import CallWire.Value
import Mathlib.Data.List.Forall2

namespace CallWire

namespace Value

/-- What holds of a value whenever it holds of all that it is made of, blanks included, holds of
every value. -/
@[elab_as_elim]
theorem parts_induction {motive : Value → Prop}
    (bool : ∀ b, motive (.bool b)) (text : ∀ s, motive (.text s))
    (word : ∀ n, motive (.word n)) (varint : ∀ n, motive (.varint n))
    (vector : ∀ t items, motive t → (∀ v ∈ items, motive v) → motive (.vector t items))
    (array : ∀ t n items, motive t → (∀ v ∈ items, motive v) → motive (.array t n items))
    (struct : ∀ fields, (∀ v ∈ fields, motive v) → motive (.struct fields))
    (tuple : ∀ fields, (∀ v ∈ fields, motive v) → motive (.tuple fields))
    (enum : ∀ variants tag payload, (∀ fields ∈ variants, ∀ v ∈ fields, motive v) →
      (∀ v ∈ payload, motive v) → motive (.enum variants tag payload))
    (v : Value) : motive v := by
  refine @Value.rec motive (fun vs => ∀ v ∈ vs, motive v)
    (fun vss => ∀ vs ∈ vss, ∀ v ∈ vs, motive v) bool text word varint vector array struct tuple
    enum ?_ ?_ ?_ ?_ v
  · simp
  · exact fun v vs hv hvs => List.forall_mem_cons.mpr ⟨hv, hvs⟩
  · simp
  · exact fun vs vss hvs hvss => List.forall_mem_cons.mpr ⟨hvs, hvss⟩

theorem blankAll_eq_map (vs : List Value) : blankAll vs = vs.map blank := by
  induction vs with
  | nil => rfl
  | cons v vs ih => rw [blankAll, ih, List.map_cons]

theorem blankAll_eq_iff {vs ws : List Value} :
    blankAll vs = blankAll ws ↔ List.Forall₂ (fun v w => v.blank = w.blank) vs ws := by
  rw [blankAll_eq_map, blankAll_eq_map, ← List.forall₂_eq_eq_eq, List.forall₂_map_left_iff,
    List.forall₂_map_right_iff]

theorem sameShapes_iff {xs ys : List Value} :
    sameShapes xs ys = true ↔ List.Forall₂ (fun x y => sameShape x y = true) xs ys := by
  induction xs generalizing ys with
  | nil => cases ys <;> simp [sameShapes]
  | cons x xs ih => cases ys <;> simp [sameShapes, ih]

theorem sameVariants_iff {xs ys : List (List Value)} :
    sameVariants xs ys = true ↔ List.Forall₂ (fun x y => sameShapes x y = true) xs ys := by
  induction xs generalizing ys with
  | nil => cases ys <;> simp [sameVariants]
  | cons x xs ih => cases ys <;> simp [sameVariants, ih]

theorem sameShapes_refl {vs : List Value} (h : ∀ v ∈ vs, sameShape v v = true) :
    sameShapes vs vs = true :=
  sameShapes_iff.mpr (List.forall₂_same.mpr h)

theorem sameShape_refl (v : Value) : sameShape v v = true := by
  induction v using parts_induction with
  | bool | text | word | varint => simp [sameShape]
  | vector t items ht _ => simpa [sameShape] using ht
  | array t n items ht _ => simpa [sameShape] using ht
  | struct fields hf => simpa [sameShape] using sameShapes_refl hf
  | tuple fields hf => simpa [sameShape] using sameShapes_refl hf
  | enum variants tag payload hv _ =>
    rw [sameShape, sameVariants_iff]
    exact List.forall₂_same.mpr fun fields hf => sameShapes_refl (hv fields hf)

theorem blank_blank (v : Value) : v.blank.blank = v.blank := by
  induction v using parts_induction with
  | bool | text | word | varint | vector | enum => rfl
  | array t n items => simp [blank]
  | struct fields hf | tuple fields hf => simpa [blank, blankAll_eq_map] using hf

theorem sameShape_blank_left (v w : Value) : sameShape v.blank w = sameShape v w := by
  have list {xs : List Value} (h : ∀ x ∈ xs, ∀ w, sameShape x.blank w = sameShape x w) (ys) :
      sameShapes (blankAll xs) ys = sameShapes xs ys := by
    induction xs generalizing ys with
    | nil => rfl
    | cons x xs ih =>
      obtain ⟨hx, hxs⟩ := List.forall_mem_cons.mp h
      cases ys with
      | nil => rfl
      | cons y ys => rw [blankAll, sameShapes, sameShapes, hx, ih hxs]
  induction v using parts_induction generalizing w with
  | bool | text | word | varint | vector | array | enum => cases w <;> rfl
  | struct fields hf | tuple fields hf => cases w <;> simp [blank, sameShape, list hf]

theorem sameShape_of_blank_eq {v w : Value} (h : v.blank = w.blank) : sameShape v w = true := by
  rw [← sameShape_blank_left, h, sameShape_blank_left, sameShape_refl]

theorem sameShape_blank (v : Value) : v.sameShape v.blank = true :=
  sameShape_of_blank_eq (blank_blank v).symm

theorem sameShapes_of_blankAll_eq {vs ws : List Value} (h : blankAll vs = blankAll ws) :
    sameShapes vs ws = true :=
  sameShapes_iff.mpr ((blankAll_eq_iff.mp h).imp fun _ _ => sameShape_of_blank_eq)

theorem length_eq_of_blankAll_eq {vs ws : List Value} (h : blankAll vs = blankAll ws) :
    vs.length = ws.length :=
  (blankAll_eq_iff.mp h).length_eq

/-- Values with the blanks of items of one shape are of that shape. -/
theorem sameShape_of_blankAll_eq {vs ws : List Value} {t : Value} (h : blankAll ws = blankAll vs)
    (hv : ∀ v ∈ vs, v.blank = t.blank) : ∀ w ∈ ws, w.sameShape t = true := by
  intro w hw
  rw [blankAll_eq_map, blankAll_eq_map] at h
  have hm : w.blank ∈ vs.map blank := h ▸ List.mem_map_of_mem hw
  obtain ⟨v, hvm, he⟩ := List.mem_map.mp hm
  exact sameShape_of_blank_eq (he.symm.trans (hv v hvm))

end Value

end CallWire
