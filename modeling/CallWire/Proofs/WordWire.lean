import CallWire.Word
import CallWire.Proofs.ScanReads

namespace CallWire

namespace Word

theorem ext_val {a b : Word} (hw : a.width = b.width) (hs : a.signed = b.signed)
    (hv : a.val = b.val) : a = b := by
  cases a
  cases b
  subst hw hs hv
  rfl

/-- A number of a width comes back from its residue. -/
theorem interpret_residue (w : Word) :
    interpret w.width w.signed (w.val % 2 ^ w.width.bits).toNat = w.val := by
  obtain ⟨width, signed, val, hl, hg⟩ := w
  cases width <;> cases signed <;>
    simp only [interpret, Width.least, Width.greatest, Width.signedMin, Width.signedMax,
      Width.unsignedMax, Width.bits, Bool.false_eq_true, false_and, true_and, ↓reduceIte]
      at hl hg ⊢ <;> (try split) <;> omega

theorem residue_interpret {width : Width} {signed : Bool} {n : Nat} (h : n < 2 ^ width.bits) :
    (interpret width signed n % 2 ^ width.bits).toNat = n := by
  cases width <;> cases signed <;>
    simp only [interpret, Width.bits, Bool.false_eq_true, false_and, true_and, ↓reduceIte]
      at h ⊢ <;> (try split) <;> omega

theorem pow_bits (width : Width) : 256 ^ width.bytes = 2 ^ width.bits := by
  rw [width.bits_eq, Nat.pow_mul]

theorem residue_lt (w : Word) : (w.val % 2 ^ w.width.bits).toNat < 2 ^ w.width.bits := by
  obtain ⟨width, signed, val, _, _⟩ := w
  cases width <;> simp only [Width.bits] <;> omega

theorem ofBits_residue (w : Word) :
    ofBits w.width w.signed (w.val % 2 ^ w.width.bits).toNat = w :=
  ext_val rfl rfl (interpret_residue w)

theorem scan_reads (w : Word) : (scan w.width w.signed).Reads w.encode w := by
  unfold scan encode
  refine (Scan.take_little_reads _ _).bind_nil ?_
  rw [Bytes.number_little, pow_bits, Nat.mod_eq_of_lt (residue_lt w), ofBits_residue]
  exact .pure w

theorem scan_spells (width : Width) (signed : Bool) :
    (scan width signed).Spells fun w xs =>
      w.width = width ∧ w.signed = signed ∧ xs = w.encode := by
  unfold scan
  refine (Scan.take_spells width.bytes).bind fun bs xs hx => ?_
  obtain ⟨rfl, hk⟩ := hx
  refine .pure ⟨rfl, rfl, ?_⟩
  have hlt := Bytes.number_lt xs
  rw [hk, pow_bits] at hlt
  have hln := Bytes.little_number xs
  rw [hk] at hln
  rw [List.append_nil, encode, ofBits, residue_interpret hlt, hln]

end Word

end CallWire
