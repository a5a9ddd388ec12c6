import CallWire.Proofs.ValueShape

namespace CallWire

namespace Value

/-- What every operation on values keeps. Items are of the shape of the element they are kept
with, a payload is of the shape of the variant that the tag names, and elements and variants are
blank. -/
inductive Sound : Value → Prop
  | bool (b : Bool) : Sound (.bool b)
  | text (s : String) : Sound (.text s)
  | word (n : Word) : Sound (.word n)
  | varint (n : Varint) : Sound (.varint n)
  | vector {t : Value} {items : List Value} (element : Sound t) (blank : t.blank = t)
      (items_sound : ∀ v ∈ items, Sound v) (shape : ∀ v ∈ items, v.sameShape t = true) :
      Sound (.vector t items)
  | array {t : Value} {n : Nat} {items : List Value} (element : Sound t) (blank : t.blank = t)
      (length : items.length = n) (items_sound : ∀ v ∈ items, Sound v)
      (shape : ∀ v ∈ items, v.sameShape t = true) : Sound (.array t n items)
  | struct {fields : List Value} (fields_sound : ∀ v ∈ fields, Sound v) : Sound (.struct fields)
  | tuple {fields : List Value} (fields_sound : ∀ v ∈ fields, Sound v) : Sound (.tuple fields)
  | enum {variants : List (List Value)} {tag : UInt8} {fields payload : List Value}
      (count : variants.length ≤ maxVariants)
      (variants_sound : ∀ vs ∈ variants, ∀ v ∈ vs, Sound v)
      (blank : ∀ vs ∈ variants, ∀ v ∈ vs, v.blank = v)
      (variant : variants[tag.toNat]? = some fields) (payload_sound : ∀ v ∈ payload, Sound v)
      (shape : sameShapes payload fields = true) : Sound (.enum variants tag payload)

theorem blankAll_eq_self {vs : List Value} (h : ∀ v ∈ vs, v.blank = v) : blankAll vs = vs := by
  rw [blankAll_eq_map, List.map_congr_left h, List.map_id']

theorem Sound.blank {v : Value} (h : Sound v) : Sound v.blank := by
  induction h with
  | bool | text | word | varint => constructor
  | vector ht hb => exact .vector ht hb (by simp) (by simp)
  | array ht hb hl =>
    refine .array ht hb (by simpa using hl) ?_ ?_
    · intro v hv
      rw [List.eq_of_mem_replicate hv, hb]
      exact ht
    · intro v hv
      rw [List.eq_of_mem_replicate hv, hb]
      exact sameShape_refl _
  | struct _ ih | tuple _ ih =>
    rw [Value.blank, blankAll_eq_map]
    constructor
    simpa using ih
  | @enum variants tag fields payload hc hvs hb hv _ _ =>
    obtain ⟨hlt, _⟩ := List.getElem?_eq_some_iff.mp hv
    cases variants with
    | nil => simp at hlt
    | cons first others =>
      exact .enum hc hvs hb rfl (hvs first (by simp)) (sameShapes_refl fun v _ => sameShape_refl v)

/-- A value that equals every sound value of its shape once both are blank. -/
def Settled (v : Value) : Prop := ∀ w, Sound w → v.sameShape w = true → v.blank = w.blank

theorem blankAll_eq {xs ys : List Value} (hx : ∀ x ∈ xs, Settled x) (hy : ∀ y ∈ ys, Sound y)
    (h : sameShapes xs ys = true) : blankAll xs = blankAll ys := by
  rw [sameShapes_iff] at h
  induction h with
  | nil => rfl
  | cons hs _ ih =>
    obtain ⟨hx, hxs⟩ := List.forall_mem_cons.mp hx
    obtain ⟨hy, hys⟩ := List.forall_mem_cons.mp hy
    rw [blankAll, blankAll, hx _ hy hs, ih hxs hys]

/-- Variants hold blanks, so that those of one shape are equal. -/
theorem variants_eq {vs ws : List (List Value)} (hv : ∀ xs ∈ vs, ∀ v ∈ xs, Settled v)
    (hvb : ∀ xs ∈ vs, ∀ v ∈ xs, v.blank = v) (hw : ∀ ys ∈ ws, ∀ v ∈ ys, Sound v)
    (hwb : ∀ ys ∈ ws, ∀ v ∈ ys, v.blank = v) (h : sameVariants vs ws = true) : vs = ws := by
  rw [sameVariants_iff] at h
  induction h with
  | nil => rfl
  | cons hs _ ih =>
    obtain ⟨hv, hvs⟩ := List.forall_mem_cons.mp hv
    obtain ⟨hvb, hvbs⟩ := List.forall_mem_cons.mp hvb
    obtain ⟨hw, hws⟩ := List.forall_mem_cons.mp hw
    obtain ⟨hwb, hwbs⟩ := List.forall_mem_cons.mp hwb
    have he := blankAll_eq hv hw hs
    rw [blankAll_eq_self hvb, blankAll_eq_self hwb] at he
    rw [he, ih hvs hvbs hws hwbs]

theorem Sound.settled {v : Value} (hv : Sound v) : Settled v := by
  induction hv with
  | bool | text | word | varint =>
    intro w hw h
    cases hw <;> simp_all [sameShape, Value.blank]
  | vector _ hb _ _ ih =>
    intro w hw h
    cases hw with
    | vector hu hbu =>
      have he := ih _ hu (by simpa [sameShape] using h)
      rw [hb, hbu] at he
      rw [Value.blank, Value.blank, he]
    | _ => simp [sameShape] at h
  | array _ hb hl _ _ ih =>
    intro w hw h
    cases hw with
    | array hu hbu hlu =>
      simp only [sameShape, Bool.and_eq_true, beq_iff_eq] at h
      have he := ih _ hu h.2
      rw [hb, hbu] at he
      rw [Value.blank, Value.blank, hl, hlu, h.1, he]
    | _ => simp [sameShape] at h
  | struct _ ih =>
    intro w hw h
    cases hw with
    | struct hf => rw [Value.blank, Value.blank, blankAll_eq ih hf (by simpa [sameShape] using h)]
    | _ => simp [sameShape] at h
  | tuple _ ih =>
    intro w hw h
    cases hw with
    | tuple hf => rw [Value.blank, Value.blank, blankAll_eq ih hf (by simpa [sameShape] using h)]
    | _ => simp [sameShape] at h
  | enum _ _ hb _ _ _ ih =>
    intro w hw h
    cases hw with
    | enum _ hvs hbw =>
      rw [sameShape] at h
      rw [Value.blank, Value.blank, variants_eq ih hb hvs hbw h]
    | _ => simp [sameShape] at h

/-- Sound values are of one shape just when they are equal once made blank. -/
theorem Sound.sameShape_iff {v w : Value} (hv : Sound v) (hw : Sound w) :
    v.sameShape w = true ↔ v.blank = w.blank :=
  ⟨hv.settled w hw, sameShape_of_blank_eq⟩

/-- What is the same of a value and of its blank is the same of all values of that shape. -/
theorem Sound.eq_of_sameShape {α : Type} {f : Value → α} (hf : ∀ v, f v.blank = f v) {v w : Value}
    (hv : Sound v) (hw : Sound w) (h : v.sameShape w = true) : f v = f w := by
  have hb := (hv.sameShape_iff hw).mp h
  rw [← hf v, hb, hf]

theorem sameShapes_iff_of_sound {vs ws : List Value} (hv : ∀ v ∈ vs, Sound v)
    (hw : ∀ w ∈ ws, Sound w) : sameShapes vs ws = true ↔ blankAll vs = blankAll ws :=
  ⟨blankAll_eq (fun v hm => (hv v hm).settled) hw, sameShapes_of_blankAll_eq⟩

end Value

end CallWire
