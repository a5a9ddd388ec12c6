import CallWire.Datum
import CallWire.ValueWire
import CallWire.Proofs.VarintCode
import CallWire.Proofs.WordWire

namespace CallWire

/-- The last byte has its high bit set just when the number is in the upper half of those that the
bytes can say. -/
theorem Bytes.isNegative_iff {bs : Bytes} (h : bs ≠ []) :
    Word.isNegative bs = true ↔ 128 * 256 ^ (bs.length - 1) ≤ number bs := by
  induction bs with
  | nil => exact absurd rfl h
  | cons b bs ih =>
    have hb := b.toNat_lt
    cases bs with
    | nil =>
      have hlast : Word.isNegative [b] = true ↔ 128 ≤ b.toNat := by
        simp [Word.isNegative, UInt8.le_iff_toNat_le]
      rw [hlast]
      simp [number]
    | cons b' bs =>
      have htail : Word.isNegative (b :: b' :: bs) = Word.isNegative (b' :: bs) := by
        simp only [Word.isNegative, List.getLast?_cons_cons]
      have hpow : 256 ^ ((b :: b' :: bs).length - 1) = 256 * 256 ^ ((b' :: bs).length - 1) := by
        simp only [List.length_cons, Nat.add_sub_cancel]
        rw [Nat.pow_succ, Nat.mul_comm]
      have hnumber : number (b :: b' :: bs) = b.toNat + 256 * number (b' :: bs) := rfl
      rw [htail, ih (by simp), hpow, hnumber]
      omega

namespace Word

theorem length_encode (w : Word) : w.encode.length = w.width.bytes := Bytes.little_length _ _

theorem toNat_residue (w : Word) :
    ((w.val % 2 ^ w.width.bits).toNat : Int) = w.val % 2 ^ w.width.bits :=
  Int.toNat_of_nonneg (Int.emod_nonneg _ (by cases w.width <;> decide))

theorem number_encode (w : Word) : Bytes.number w.encode = (w.val % 2 ^ w.width.bits).toNat := by
  rw [encode, Bytes.number_little, pow_bits, Nat.mod_eq_of_lt (residue_lt w)]

/-- Of the signed numbers, those below zero have their residue in the upper half. -/
theorem half_le_residue {w : Word} (hs : w.signed = true) :
    128 * 256 ^ (w.width.bytes - 1) ≤ (w.val % 2 ^ w.width.bits).toNat ↔ w.val < 0 := by
  obtain ⟨width, signed, val, hl, hg⟩ := w
  subst hs
  cases width <;>
    simp only [Width.least, Width.greatest, Width.signedMin, Width.signedMax, Width.bytes,
      Width.bits, ↓reduceIte] at hl hg ⊢ <;> omega

theorem isNegative_encode {w : Word} (hs : w.signed = true) :
    isNegative w.encode = true ↔ w.val < 0 := by
  have hlen := length_encode w
  have hpos := w.width.bytes_pos
  have hne : w.encode ≠ [] := List.length_pos_iff.mp (by omega)
  rw [Bytes.isNegative_iff hne, hlen, number_encode, half_le_residue hs]

/-- Enough bytes are always read, as the number that they are the encoding of. -/
theorem scan_of_le (width : Width) (signed : Bool) {c : Cursor} (h : width.bytes ≤ c.rest.length) :
    ∃ w, scan width signed c = .ok w (c.advance width.bytes) ∧ w.width = width ∧
      w.signed = signed ∧ w.encode = c.rest.take width.bytes := by
  have hholds : Bytes.holds width.bytes c.rest = true := by
    rwa [Bytes.holds_eq_decide, decide_eq_true_eq]
  have htake : Scan.take width.bytes c = .ok (c.rest.take width.bytes) (c.advance width.bytes) :=
    if_pos hholds
  have hscan : scan width signed c =
      .ok (ofBits width signed (Bytes.number (c.rest.take width.bytes)))
        (c.advance width.bytes) := by
    unfold scan
    rw [Scan.bind_of_ok htake]
    rfl
  obtain ⟨xs, ⟨hw, hs, hx⟩, hr, _⟩ := scan_spells width signed _ _ _ hscan
  refine ⟨_, hscan, hw, hs, ?_⟩
  have hsplit := (List.take_append_drop width.bytes c.rest).trans hr
  rw [← hx, List.append_cancel_right hsplit]

/-- The encoding of a number is read as that number, whatever follows it. -/
theorem scan_of_encode (w : Word) {c : Cursor} {rest : Bytes} (h : c.rest = w.encode ++ rest) :
    scan w.width w.signed c = .ok w (c.advance w.width.bytes) := by
  have hread := (scan_blind w.width w.signed).run_of_reads (scan_reads w) h
  have hdrop : c.rest.drop w.width.bytes = rest := by
    rw [h, List.drop_left' (length_encode w)]
  rw [hread, length_encode, Cursor.advance, hdrop]

theorem refill_of_scan {v w : Word} {c c' : Cursor} (h : scan v.width v.signed c = .ok w c') :
    (Value.word v).refill c = ⟨.word w, none, c'⟩ := by
  have hscan : (Value.word v).scan c = .ok (.word w) c' := by
    rw [Value.scan, Scan.map_eq_bind, Scan.bind_of_ok h]
    rfl
  simp only [Value.refill, hscan]

theorem ofNat_of_lt {width : Width} {n : Nat} (h : n < 2 ^ width.bits) :
    ∃ w, ofNat width n = .ok w ∧ w.width = width ∧ w.signed = false ∧ w.val = n := by
  have hle : n ≤ width.unsignedMax := Nat.le_sub_one_of_lt h
  exact ⟨_, dif_pos hle, rfl, rfl, rfl⟩

theorem ofNat_of_le {width : Width} {n : Nat} (h : 2 ^ width.bits ≤ n) :
    ∃ cause, ofNat width n = .error (.outOfRange width cause) := by
  have hmax := width.unsignedMax_lt
  exact ⟨_, dif_neg (by omega)⟩

theorem ofInt_of_within {width : Width} {n : Int}
    (h : -(2 ^ (width.bits - 1)) ≤ n ∧ n < 2 ^ (width.bits - 1)) :
    ∃ w, ofInt width n = .ok w ∧ w.width = width ∧ w.signed = true ∧ w.val = n := by
  have hwithin : width.signedMin ≤ n ∧ n ≤ width.signedMax := ⟨h.1, Int.le_sub_one_of_lt h.2⟩
  exact ⟨_, dif_pos hwithin, rfl, rfl, rfl⟩

theorem ofInt_of_outside {width : Width} {n : Int}
    (h : n < -(2 ^ (width.bits - 1)) ∨ 2 ^ (width.bits - 1) ≤ n) :
    ∃ cause, ofInt width n = .error (.outOfRange width cause) := by
  have houtside : ¬ (width.signedMin ≤ n ∧ n ≤ width.signedMax) := by
    unfold Width.signedMin Width.signedMax
    omega
  exact ⟨_, dif_neg houtside⟩

/-- An integer of a width is an exact number. It is made from the numbers that the bits of the
width can say and from no others, its bytes are the number modulo their span, bytes and numbers
stand for each other one to one, a number below zero is told by the last byte, and plain data keeps
the number and whether it has a sign. -/
theorem twos_complement (width : Width) :
    (∀ n : Nat,
      (n < 2 ^ width.bits →
        ∃ w, ofNat width n = .ok w ∧ w.width = width ∧ w.signed = false ∧ w.val = n) ∧
      (2 ^ width.bits ≤ n → ∃ cause, ofNat width n = .error (.outOfRange width cause))) ∧
    (∀ n : Int,
      (-(2 ^ (width.bits - 1)) ≤ n ∧ n < 2 ^ (width.bits - 1) →
        ∃ w, ofInt width n = .ok w ∧ w.width = width ∧ w.signed = true ∧ w.val = n) ∧
      (n < -(2 ^ (width.bits - 1)) ∨ 2 ^ (width.bits - 1) ≤ n →
        ∃ cause, ofInt width n = .error (.outOfRange width cause))) ∧
    (∀ w : Word, w.width = width →
      (Value.word w).encode = .ok w.encode ∧ w.encode.length = width.bytes ∧
      (Bytes.number w.encode : Int) = w.val % 2 ^ width.bits ∧
      (∀ (c : Cursor) (rest : Bytes), c.rest = w.encode ++ rest →
        (Value.word w).refill c = ⟨.word w, none, c.advance width.bytes⟩) ∧
      (w.signed = true → (isNegative w.encode = true ↔ w.val < 0) ∧
        (Value.word w).datum = .integer w.val) ∧
      (w.signed = false → ∃ n : Nat, (n : Int) = w.val ∧ (Value.word w).datum = .natural n)) ∧
    ∀ (v : Word) (c : Cursor), v.width = width → width.bytes ≤ c.rest.length →
      ∃ w, (Value.word v).refill c = ⟨.word w, none, c.advance width.bytes⟩ ∧
        w.width = width ∧ w.signed = v.signed ∧ w.encode = c.rest.take width.bytes := by
  refine ⟨fun n => ⟨ofNat_of_lt, ofNat_of_le⟩, fun n => ⟨ofInt_of_within, ofInt_of_outside⟩,
    fun w hw => ?_, fun v c hv hle => ?_⟩
  · subst hw
    refine ⟨rfl, length_encode w, ?_, fun c rest hr => refill_of_scan (scan_of_encode w hr),
      fun hs => ⟨isNegative_encode hs, ?_⟩, fun hs => ⟨w.val.toNat, ?_, ?_⟩⟩
    · rw [number_encode, toNat_residue]
    · rw [Value.datum, if_pos hs]
    · have hleast := w.least_le
      rw [hs] at hleast
      exact Int.toNat_of_nonneg hleast
    · rw [Value.datum, hs]
      rfl
  · subst hv
    obtain ⟨w, hscan, hfound⟩ := scan_of_le v.width v.signed hle
    exact ⟨w, refill_of_scan hscan, hfound⟩

/-- The least number of all is written as zeros before one high bit, and is told to be below zero;
a window of bytes with that bit set is read as such a number and written back. -/
theorem twos_complement_least :
    (∃ w, ofInt .w128 (-(2 ^ 127)) = .ok w ∧ isNegative w.encode = true ∧
      (Bytes.number w.encode : Int) = 2 ^ 127 ∧ (Value.word w).datum = .integer (-(2 ^ 127))) ∧
    (∃ cause, ofNat .w8 256 = .error (.outOfRange .w8 cause)) ∧
    ∃ w, (Value.word (zero .w16 true)).refill (.start [0xFE, 0xFF, 7] .unbounded) =
        ⟨.word w, none, ⟨[7], 2, 0, .unbounded⟩⟩ ∧ w.encode = [0xFE, 0xFF] := by
  obtain ⟨_, hsigned, hword, _⟩ := twos_complement .w128
  obtain ⟨hunsigned, _, _, _⟩ := twos_complement .w8
  obtain ⟨_, _, _, hreads⟩ := twos_complement .w16
  refine ⟨?_, (hunsigned 256).2 (by decide), ?_⟩
  · obtain ⟨w, hw, hwidth, hs, hval⟩ := (hsigned (-(2 ^ 127))).1 (by decide)
    obtain ⟨_, _, hnumber, _, hnegative, _⟩ := hword w hwidth
    obtain ⟨hiff, hdatum⟩ := hnegative hs
    rw [hval] at hnumber hiff hdatum
    exact ⟨w, hw, hiff.mpr (by decide), hnumber, hdatum⟩
  · have hle : Width.bytes .w16 ≤ (Cursor.start [0xFE, 0xFF, 7] .unbounded).rest.length := by decide
    obtain ⟨w, hw, _, _, hx⟩ := hreads (zero .w16 true) _ rfl hle
    exact ⟨w, hw, hx⟩

end Word

end CallWire
