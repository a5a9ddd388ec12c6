import CallWire.Proofs.ValueBuilt
import CallWire.Proofs.ValueSize

namespace CallWire

namespace Value

theorem spine_blank (v : Value) : v.blank.spine = v.spine := by
  cases v with
  | bool | text | word | varint | vector | array | struct | tuple | enum => rfl

theorem shapes_blankAll {vs : List Value} (h : ∀ v ∈ vs, v.blank.shape = v.shape) :
    shapes (blankAll vs) = shapes vs := by
  induction vs with
  | nil => rfl
  | cons v vs ih =>
    obtain ⟨hv, hvs⟩ := List.forall_mem_cons.mp h
    rw [blankAll, shapes, shapes, hv, ih hvs]

theorem shape_blank (v : Value) : v.blank.shape = v.shape := by
  induction v using parts_induction with
  | bool | text | word | varint | vector | array | enum => rfl
  | struct fields hf | tuple fields hf => rw [blank, shape, shape, shapes_blankAll hf]

theorem Sound.sameShape_symm {v w : Value} (hv : Sound v) (hw : Sound w)
    (h : v.sameShape w = true) : w.sameShape v = true :=
  sameShape_of_blank_eq ((hv.sameShape_iff hw).mp h).symm

theorem Sound.sameShape_trans {u v w : Value} (hu : Sound u) (hv : Sound v) (hw : Sound w)
    (h : u.sameShape v = true) (h' : v.sameShape w = true) : u.sameShape w = true := by
  have huv := (hu.sameShape_iff hv).mp h
  have hvw := (hv.sameShape_iff hw).mp h'
  exact sameShape_of_blank_eq (huv.trans hvw)

/-- Values are of one shape just when their blanks are equal. So shape is an equivalence, making a
value blank picks one value for each shape, and what is told of a shape is told alike of every value
of it, whatever the value holds. -/
theorem Built.shape_laws {u v w : Value} (hu : Built u) (hv : Built v) (hw : Built w) :
    (u.sameShape v = true ↔ u.blank = v.blank) ∧
    u.sameShape u = true ∧
    (u.sameShape v = true → v.sameShape u = true) ∧
    (u.sameShape v = true → v.sameShape w = true → u.sameShape w = true) ∧
    u.blank.blank = u.blank ∧ u.sameShape u.blank = true ∧
    (u.sameShape v = true → u.minSize = v.minSize ∧ u.spine = v.spine ∧ u.shape = v.shape) := by
  have hus := hu.sound
  have hvs := hv.sound
  refine ⟨hus.sameShape_iff hvs, sameShape_refl u, hus.sameShape_symm hvs,
    hus.sameShape_trans hvs hw.sound, blank_blank u, u.sameShape_blank, fun h => ⟨?_, ?_, ?_⟩⟩
  · exact minSize_eq_of_sameShape hus hvs h
  · exact hus.eq_of_sameShape spine_blank hvs h
  · exact hus.eq_of_sameShape shape_blank hvs h

/-- A vector of enums, an empty one, and one that was decoded and then decoded again in vain. -/
theorem shape_laws_vector :
    let used := ((newVector sampleEnum).refill (.start [4, 0] .unbounded)).value
    let left := (used.refill (.start [8, 0] .unbounded)).value
    sampleVector.blank = (newVector sampleEnum).blank ∧
      sampleVector.minSize = (newVector sampleEnum).minSize ∧
      sampleVector.shape = (newVector sampleEnum).shape ∧ sampleVector.sameShape left = true := by
  intro used left
  have hempty : Built (newVector sampleEnum) := .newVector built_sampleEnum
  have hleft : Built left := .refill (.refill hempty _) _
  have hshape : sampleVector.sameShape (newVector sampleEnum) = true := by decide
  have hagain : (newVector sampleEnum).sameShape left = true := by decide
  obtain ⟨hiff, _, _, htrans, _, _, hsame⟩ := Built.shape_laws built_sampleVector hempty hleft
  obtain ⟨hsize, _, htext⟩ := hsame hshape
  exact ⟨hiff.mp hshape, hsize, htext, htrans hshape hagain⟩

end Value

end CallWire
