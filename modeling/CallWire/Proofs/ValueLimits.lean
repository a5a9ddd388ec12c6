import CallWire.Proofs.ScanLimits
import CallWire.Proofs.ValueRuns

namespace CallWire

namespace Value

/-- One value is so many levels down in another, which is made of it. -/
inductive NodeAt (u : Value) : Nat → Value → Prop
  | self : NodeAt u 0 u
  | component {n : Nat} {v w : Value} (hm : w ∈ v.components) (h : NodeAt u n w) :
      NodeAt u (n + 1) v

/-- The lengths of the value itself are no greater: the bytes of a text, the items of a vector,
and of an array both the items and the length it is declared with. -/
def LengthWithin (max : Nat) : Value → Prop
  | text s => s.utf8ByteSize ≤ max
  | vector _ items => items.length ≤ max
  | array _ n items => n ≤ max ∧ items.length ≤ max
  | _ => True

/-- At so many levels below the top the value and all that it is made of keep to the limits on
depth and on collections. -/
def Heeds (l : Limits) (depth : Nat) (v : Value) : Prop :=
  ∀ n u, NodeAt u n v →
    (∀ max ∈ l.depth, depth + n ≤ max) ∧ ∀ max ∈ l.collection, u.LengthWithin max

variable {l : Limits} {depth : Nat} {v : Value}

theorem heeds_iff : v.Heeds l depth ↔ (∀ max ∈ l.depth, depth ≤ max) ∧
    (∀ max ∈ l.collection, v.LengthWithin max) ∧ ∀ w ∈ v.components, w.Heeds l (depth + 1) := by
  constructor
  · intro h
    obtain ⟨hdepth, hlength⟩ := h 0 v .self
    refine ⟨hdepth, hlength, fun w hw n u hu => ?_⟩
    obtain ⟨hbelow, hpart⟩ := h (n + 1) u (.component hw hu)
    refine ⟨fun max hmax => ?_, hpart⟩
    have := hbelow max hmax
    omega
  · rintro ⟨hdepth, hlength, hparts⟩ n u hu
    cases hu with
    | self => exact ⟨hdepth, hlength⟩
    | @component n _ w hw hu =>
      obtain ⟨hbelow, hpart⟩ := hparts w hw n u hu
      refine ⟨fun max hmax => ?_, hpart⟩
      have := hbelow max hmax
      omega

theorem Heeds.depth_le (h : v.Heeds l depth) : ∀ max ∈ l.depth, depth ≤ max := (heeds_iff.mp h).1

theorem Heeds.part (h : v.Heeds l depth) {w : Value} (hw : w ∈ v.components) :
    w.Heeds l (depth + 1) :=
  (heeds_iff.mp h).2.2 w hw

theorem heeds_leaf (hleaf : v.components = []) (hdepth : ∀ max ∈ l.depth, depth ≤ max)
    (hlength : ∀ max ∈ l.collection, v.LengthWithin max) : v.Heeds l depth := by
  refine heeds_iff.mpr ⟨hdepth, hlength, ?_⟩
  rw [hleaf]
  exact List.forall_mem_nil _

/-- An enum that holds its first variant chosen. -/
theorem heeds_enum {variants : List (List Value)} (tag : UInt8)
    (hdepth : ∀ max ∈ l.depth, depth ≤ max)
    (h : ∀ fields ∈ variants, ∀ v ∈ fields, v.Heeds l (depth + 1)) :
    (enum variants tag (variants.headD [])).Heeds l depth := by
  refine heeds_iff.mpr ⟨hdepth, fun _ _ => trivial, fun w hw => ?_⟩
  rcases List.mem_append.mp hw with hw | hw
  · obtain ⟨fields, hf, hw⟩ := List.mem_flatten.mp hw
    exact h fields hf w hw
  · cases variants with
    | nil => cases hw
    | cons first others => exact h first List.mem_cons_self w hw

/-- A blank is no deeper than the value, and holds no texts and no items of vectors. -/
theorem Heeds.blank (h : v.Heeds l depth) : v.blank.Heeds l depth := by
  induction v using parts_induction generalizing depth with
  | bool | text | word | varint =>
    refine heeds_leaf rfl h.depth_le fun max _ => ?_
    simp [Value.blank, LengthWithin]
  | vector t items _ _ =>
    refine heeds_iff.mpr ⟨h.depth_le, fun max _ => Nat.zero_le max, fun w hw => ?_⟩
    cases List.mem_singleton.mp hw
    exact h.part List.mem_cons_self
  | array t n items ht _ =>
    obtain ⟨_, hlength, hparts⟩ := heeds_iff.mp h
    have helement : t.Heeds l (depth + 1) := hparts t List.mem_cons_self
    refine heeds_iff.mpr ⟨h.depth_le, fun max hmax => ?_, fun w hw => ?_⟩
    · simpa [Value.blank, LengthWithin] using hlength max hmax
    · rcases List.mem_cons.mp hw with rfl | hw
      · exact helement
      · rw [List.eq_of_mem_replicate hw]
        exact ht helement
  | struct fields hf | tuple fields hf =>
    refine heeds_iff.mpr ⟨h.depth_le, fun _ _ => trivial, fun w hw => ?_⟩
    rw [Value.blank, components, blankAll_eq_map] at hw
    obtain ⟨u, hu, rfl⟩ := List.mem_map.mp hw
    exact hf u hu (h.part hu)
  | enum variants tag payload _ _ =>
    refine heeds_enum 0 h.depth_le fun fields hf w hw => h.part ?_
    exact List.mem_append_left payload (List.mem_flatten.mpr ⟨fields, hf, hw⟩)

theorem Heeds.newVector {t : Value} (hdepth : ∀ max ∈ l.depth, depth ≤ max)
    (h : t.Heeds l (depth + 1)) : (newVector t).Heeds l depth := by
  refine heeds_iff.mpr ⟨hdepth, fun max _ => Nat.zero_le max, ?_⟩
  exact List.forall_mem_singleton.mpr h.blank

theorem Heeds.newArray {t : Value} {n : Nat} (hdepth : ∀ max ∈ l.depth, depth ≤ max)
    (hn : ∀ max ∈ l.collection, n ≤ max) (h : t.Heeds l (depth + 1))
    (hv : newArray t n = .ok v) : v.Heeds l depth := by
  obtain ⟨_, rfl⟩ := newArray_eq_ok.mp hv
  refine heeds_iff.mpr ⟨hdepth, fun max hmax => ?_, List.forall_mem_cons.mpr ⟨h.blank, ?_⟩⟩
  · exact ⟨hn max hmax, by rw [List.length_replicate]; exact hn max hmax⟩
  · intro w hw
    rw [List.eq_of_mem_replicate hw]
    exact h.blank.blank

theorem Heeds.newEnum {variants : List (List Value)} (hdepth : ∀ max ∈ l.depth, depth ≤ max)
    (h : ∀ fields ∈ variants, ∀ w ∈ fields, w.Heeds l (depth + 1))
    (hv : newEnum variants = .ok v) : v.Heeds l depth := by
  obtain ⟨_, rfl⟩ := newEnum_eq_ok.mp hv
  refine heeds_enum 0 hdepth fun blanks hb w hw => ?_
  obtain ⟨fields, hf, rfl⟩ := List.mem_map.mp hb
  rw [blankAll_eq_map] at hw
  obtain ⟨u, hu, rfl⟩ := List.mem_map.mp hw
  exact (h fields hf u hu).blank

theorem scanAll_heeds {vs : List Value} (h : ∀ v ∈ vs, (scan v).Gives l (Heeds l depth)) :
    (scanAll vs).Gives l fun ws => ws.length = vs.length ∧ ∀ w ∈ ws, w.Heeds l depth := by
  induction vs with
  | nil => exact .pure ⟨rfl, List.forall_mem_nil _⟩
  | cons v vs ih =>
    obtain ⟨hv, hvs⟩ := List.forall_mem_cons.mp h
    rw [scanAll]
    refine hv.bind fun w hw => (ih hvs).bind fun ws hws => .pure ?_
    exact ⟨congrArg Nat.succ hws.1, List.forall_mem_cons.mpr ⟨hw, hws.2⟩⟩

theorem times_heeds {t : Value} (h : (scan t).Gives l (Heeds l depth)) (n : Nat) :
    (Scan.times (scan t) n).Gives l fun ws => ws.length = n ∧ ∀ w ∈ ws, w.Heeds l depth := by
  have hall : ∀ v ∈ List.replicate n t, (scan v).Gives l (Heeds l depth) := by
    intro v hv
    rw [List.eq_of_mem_replicate hv]
    exact h
  rw [times_eq_scanAll_replicate]
  refine (scanAll_heeds hall).mono fun ws hws => ?_
  rwa [List.length_replicate] at hws

/-- What is read by a value that keeps to the limits keeps to them as well. Vectors and texts are
checked as they are read, and nothing lies deeper than in the value that it is read by. -/
theorem Heeds.scan (h : v.Heeds l depth) : (scan v).Gives l (Heeds l depth) := by
  induction v using parts_induction generalizing depth with
  | bool b =>
    rw [Value.scan]
    refine (Scan.bool_blind.gives.mono fun a _ => ?_).map
    exact heeds_leaf rfl h.depth_le fun _ _ => trivial
  | text s =>
    rw [Value.scan]
    refine (Scan.text_gives.mono fun a ha => ?_).map
    exact heeds_leaf rfl h.depth_le ha
  | word n =>
    rw [Value.scan]
    refine ((Word.scan_blind _ _).gives.mono fun a _ => ?_).map
    exact heeds_leaf rfl h.depth_le fun _ _ => trivial
  | varint n =>
    rw [Value.scan]
    refine ((Varint.scan_blind _).gives.mono fun a _ => ?_).map
    exact heeds_leaf rfl h.depth_le fun _ _ => trivial
  | vector t items ht _ =>
    have helement : t.Heeds l (depth + 1) := h.part List.mem_cons_self
    rw [Value.scan, Scan.vectorLength_bind]
    refine Varint.scanLength_gives.bind fun n hn => .demanding ?_
    refine (Scan.charge_gives _).bind fun _ _ => (times_heeds (ht helement) n).bind fun ws hws => ?_
    refine .pure (heeds_iff.mpr ⟨h.depth_le, ?_, List.forall_mem_cons.mpr ⟨helement, hws.2⟩⟩)
    show ∀ max ∈ l.collection, ws.length ≤ max
    rw [hws.1]
    exact hn
  | array t n items ht _ =>
    obtain ⟨_, hlength, hparts⟩ := heeds_iff.mp h
    have helement : t.Heeds l (depth + 1) := hparts t List.mem_cons_self
    rw [Value.scan]
    refine ((times_heeds (ht helement) items.length).mono fun ws hws => ?_).map
    refine heeds_iff.mpr ⟨h.depth_le, ?_, List.forall_mem_cons.mpr ⟨helement, hws.2⟩⟩
    show ∀ max ∈ l.collection, n ≤ max ∧ ws.length ≤ max
    rw [hws.1]
    exact hlength
  | struct fields hf | tuple fields hf =>
    rw [Value.scan]
    have hall : ∀ u ∈ fields, (Value.scan u).Gives l (Heeds l (depth + 1)) :=
      fun u hu => hf u hu (h.part hu)
    refine ((scanAll_heeds hall).mono fun ws hws => ?_).map
    exact heeds_iff.mpr ⟨h.depth_le, fun _ _ => trivial, hws.2⟩
  | enum variants tag payload hv _ =>
    rw [Value.scan]
    refine Scan.Blind.byte.gives.bind fun chosen _ => .guard fun hlt => ?_
    have hget := List.getElem?_eq_getElem (Nat.not_le.mp hlt)
    have hmem := List.mem_of_getElem? hget
    have hpart : ∀ w ∈ variants.flatten, w.Heeds l (depth + 1) :=
      fun w hw => h.part (List.mem_append_left payload hw)
    have hall : ∀ u ∈ variants[chosen.toNat], (Value.scan u).Gives l (Heeds l (depth + 1)) :=
      fun u hu => hv _ hmem u hu (hpart u (List.mem_flatten.mpr ⟨_, hmem, hu⟩))
    rw [scanVariant_eq hget]
    refine (scanAll_heeds hall).bind fun ws hws => .pure ?_
    refine heeds_iff.mpr ⟨h.depth_le, fun _ _ => trivial, fun w hw => ?_⟩
    exact (List.mem_append.mp hw).elim (hpart w) (hws.2 w)

end Value

end CallWire
