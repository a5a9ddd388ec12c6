import CallWire.Proofs.ValueSpells
import Mathlib.Algebra.Ring.Nat

namespace CallWire

theorem Varint.length_bytes_pos (n : Nat) : 0 < (Varint.bytes n).length := by
  unfold Varint.bytes
  split
  all_goals simp [Bytes.little_length]

namespace Value

theorem minSizes_le_sum (vs : List Value) (total : Nat) :
    minSizes vs total ≤ total + (vs.map minSize).sum := by
  induction vs generalizing total with
  | nil => exact Nat.le_refl _
  | cons v vs ih =>
    have hsum : Count.add total v.minSize ≤ total + v.minSize := Nat.min_le_left _ _
    have hrest := ih (Count.add total v.minSize)
    rw [minSizes, List.map_cons, List.sum_cons]
    omega

theorem minSizes_blankAll {vs : List Value} (h : ∀ v ∈ vs, v.blank.minSize = v.minSize)
    (total : Nat) : minSizes (blankAll vs) total = minSizes vs total := by
  induction vs generalizing total with
  | nil => rfl
  | cons v vs ih =>
    obtain ⟨hv, hvs⟩ := List.forall_mem_cons.mp h
    rw [blankAll, minSizes, minSizes, hv, ih hvs]

theorem minSize_blank (v : Value) : v.blank.minSize = v.minSize := by
  induction v using parts_induction with
  | bool | text | word | varint | vector | enum | array => rfl
  | struct fields hf | tuple fields hf => exact minSizes_blankAll hf 0

theorem minSize_eq_of_blank_eq {v w : Value} (h : w.blank = v.blank) : w.minSize = v.minSize := by
  rw [← minSize_blank w, h, minSize_blank]

theorem minSize_eq_of_sameShape {v w : Value} (hv : Sound v) (hw : Sound w)
    (h : v.sameShape w = true) : v.minSize = w.minSize :=
  hv.eq_of_sameShape minSize_blank hw h

/-- A value takes at least as many bytes as its shape says. -/
def Paid (v : Value) : Prop := ∀ bytes, v.encode = .ok bytes → v.minSize ≤ bytes.length

theorem sum_minSize_le_length {vs : List Value} (h : ∀ v ∈ vs, Paid v) {bytes : Bytes}
    (he : encodeAll vs = .ok bytes) : (vs.map minSize).sum ≤ bytes.length := by
  induction vs generalizing bytes with
  | nil => exact Nat.zero_le _
  | cons v vs ih =>
    obtain ⟨hv, hvs⟩ := List.forall_mem_cons.mp h
    obtain ⟨head, tail, hh, ht, rfl⟩ := encodeAll_cons_eq_ok.mp he
    have hhead := hv head hh
    have htail := ih hvs ht
    rw [List.map_cons, List.sum_cons, List.length_append]
    omega

/-- Items that each take some bytes take together as many as a product says, even where the count
of bytes is no longer exact. -/
theorem mul_le_length {vs : List Value} {size : Nat} (h : ∀ v ∈ vs, Paid v)
    (hsize : ∀ v ∈ vs, v.minSize = size) {bytes : Bytes} (he : encodeAll vs = .ok bytes) :
    Count.mul vs.length size ≤ bytes.length := by
  have hsum : (vs.map minSize).sum = vs.length * size := by
    rw [List.map_congr_left hsize, List.map_const', List.sum_replicate_nat]
  have hlength := sum_minSize_le_length h he
  have hmul : Count.mul vs.length size ≤ vs.length * size := Nat.min_le_left _ _
  omega

theorem Sound.paid {v : Value} (hv : Sound v) : Paid v := by
  induction hv with
  | bool b =>
    intro bytes h
    cases h
    exact Nat.le_refl _
  | text s =>
    intro bytes h
    obtain ⟨_, rfl⟩ := encode_text_eq_ok.mp h
    have hpos := Varint.length_bytes_pos s.utf8ByteSize
    rw [minSize, List.length_append]
    omega
  | word n =>
    intro bytes h
    cases h
    exact Nat.le_of_eq (Bytes.little_length _ _).symm
  | varint n =>
    intro bytes h
    cases h
    exact Varint.length_bytes_pos n.val
  | @vector t items =>
    intro bytes h
    obtain ⟨_, content, _, rfl⟩ := encode_vector_eq_ok.mp h
    have hpos := Varint.length_bytes_pos items.length
    rw [minSize, List.length_append]
    omega
  | array ht _ hl hi hsh _ ih =>
    intro bytes h
    rw [minSize, ← hl]
    exact mul_le_length ih (fun v hm => minSize_eq_of_sameShape (hi v hm) ht (hsh v hm)) h
  | @struct fields _ ih | @tuple fields _ ih =>
    intro bytes h
    have hsum := minSizes_le_sum fields 0
    have hlength := sum_minSize_le_length ih h
    rw [minSize]
    omega
  | enum =>
    intro bytes h
    obtain ⟨content, _, rfl⟩ := encode_enum_eq_ok.mp h
    rw [minSize, List.length_cons]
    omega

end Value

end CallWire
