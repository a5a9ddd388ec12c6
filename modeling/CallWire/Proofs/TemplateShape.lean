import CallWire.Template
import CallWire.Proofs.ValueBuilt

namespace CallWire

/-- The same limits but for that on collections. -/
def Limits.uncollected (l : Limits) : Limits := { l with collection := none }

namespace Interface

variable {i : Interface} {l : Limits} {depth : Nat} {id : TypeId} {t : Value}

/-- The blank value of a layout, from those of the types it refers to. -/
def templateOf (build : TypeId → Except Fault Value) (l : Limits) : Layout → Except Fault Value
  | .primitive p => return Value.ofPrimitive p
  | .struct fields => return .struct (← fields.mapM build)
  | .tuple fields => return .tuple (← fields.mapM build)
  | .vector element => return Value.newVector (← build element)
  | .array element length => do
    l.checkCollection length
    Value.newArray (← build element) length
  | .enum variants => do
    Value.newEnum (← variants.mapM fun fields => fields.mapM build)

theorem templateAt_eq (i : Interface) (l : Limits) (depth : Nat) (id : TypeId) :
    i.templateAt l depth id = (do
      l.checkDepth depth
      templateOf (i.templateAt l (depth + 1)) l (← i.resolve id).layout) := by
  rw [templateAt]
  congr 1
  funext _
  unfold resolve
  split
  next h => simp only [h]; rfl
  next h => simp only [h]; rfl
  next h =>
    simp only [h]
    rw [mapM_attach_eq (i.templateAt l (depth + 1))]
    rfl
  next h =>
    simp only [h]
    rw [mapM_attach_eq (i.templateAt l (depth + 1))]
    rfl
  next h => simp only [h]; rfl
  next h => simp only [h]; rfl
  next h =>
    simp only [h]
    simp only [mapM_attach_eq (i.templateAt l (depth + 1))]
    rw [mapM_attach_eq fun fields : List TypeId => fields.mapM (i.templateAt l (depth + 1))]
    rfl

theorem templateAt_eq_ok : i.templateAt l depth id = .ok t ↔
    l.checkDepth depth = .ok () ∧ ∃ decl, i.resolve id = .ok decl ∧
      templateOf (i.templateAt l (depth + 1)) l decl.layout = .ok t := by
  rw [templateAt_eq, bind_eq_ok]
  constructor
  · intro h
    obtain ⟨_, hdepth, hrest⟩ := h
    exact ⟨hdepth, bind_eq_ok.mp hrest⟩
  · intro h
    obtain ⟨hdepth, hrest⟩ := h
    exact ⟨(), hdepth, bind_eq_ok.mpr hrest⟩

theorem getElem?_of_resolve {decl : TypeDecl} (h : i.resolve id = .ok decl) :
    i.types[id]? = some decl := by
  unfold resolve at h
  split at h
  next d hd =>
    cases h
    exact hd
  next => cases h

theorem refers_of_resolve {decl : TypeDecl} (h : i.resolve id = .ok decl) {child : TypeId}
    (hc : child ∈ decl.layout.references) : i.types.Refers child id :=
  TypeTable.refers_of_mem (getElem?_of_resolve h) hc

/-- What holds of a type whenever it holds of all that the type refers to, holds of every type. -/
theorem types_induction (i : Interface) {p : TypeId → Prop}
    (h : ∀ id, (∀ decl, i.resolve id = .ok decl → ∀ child ∈ decl.layout.references, p child) →
      p id) (id : TypeId) : p id := by
  induction id using i.acyclic.induction with
  | _ id ih => exact h id fun decl hd child hc => ih child (refers_of_resolve hd hc)

/-- A sound value that is blank itself. -/
def Plain (t : Value) : Prop := Value.Sound t ∧ t.blank = t

theorem fields_plain {build : TypeId → Except Fault Value} {fields : List TypeId}
    {ts : List Value} (hb : ∀ child ∈ fields, ∀ t, build child = .ok t → Plain t)
    (h : fields.mapM build = .ok ts) :
    (∀ t ∈ ts, Value.Sound t) ∧ Value.blankAll ts = ts := by
  have hplain : ∀ t ∈ ts, Plain t := mapM_forall h hb
  have hblank : ∀ t ∈ ts, t.blank = t := fun t hm => (hplain t hm).2
  exact ⟨fun t hm => (hplain t hm).1, Value.blankAll_eq_self hblank⟩

theorem templateOf_plain {build : TypeId → Except Fault Value} {layout : Layout}
    (hb : ∀ child ∈ layout.references, ∀ t, build child = .ok t → Plain t)
    (h : templateOf build l layout = .ok t) : Plain t := by
  cases layout with
  | primitive p =>
    cases h
    cases p with
    | bool => exact ⟨.bool _, rfl⟩
    | text => exact ⟨.text _, rfl⟩
    | word width signed => exact ⟨.word _, rfl⟩
    | varint width => exact ⟨.varint _, rfl⟩
  | struct fields =>
    obtain ⟨ts, hts, h⟩ := bind_eq_ok.mp h
    cases pure_eq_ok.mp h
    obtain ⟨hsound, hblank⟩ := fields_plain hb hts
    exact ⟨.struct hsound, by rw [Value.blank, hblank]⟩
  | tuple fields =>
    obtain ⟨ts, hts, h⟩ := bind_eq_ok.mp h
    cases pure_eq_ok.mp h
    obtain ⟨hsound, hblank⟩ := fields_plain hb hts
    exact ⟨.tuple hsound, by rw [Value.blank, hblank]⟩
  | vector element =>
    obtain ⟨u, hu, h⟩ := bind_eq_ok.mp h
    cases pure_eq_ok.mp h
    exact ⟨(hb element (List.mem_singleton_self _) u hu).1.newVector, rfl⟩
  | array element length =>
    obtain ⟨_, _, h⟩ := bind_eq_ok.mp h
    obtain ⟨u, hu, h⟩ := bind_eq_ok.mp h
    have hplain := hb element (List.mem_singleton_self _) u hu
    refine ⟨hplain.1.newArray h, ?_⟩
    obtain ⟨_, rfl⟩ := Value.newArray_eq_ok.mp h
    rw [Value.blank, List.length_replicate]
  | enum variants =>
    obtain ⟨tss, htss, h⟩ := bind_eq_ok.mp h
    have hsound : ∀ ts ∈ tss, ∀ t ∈ ts, Value.Sound t := by
      refine mapM_forall htss ?_
      intro fields hf ts hts
      have hfields : ∀ child ∈ fields, ∀ t, build child = .ok t → Plain t :=
        fun child hc => hb child (List.mem_flatten.mpr ⟨fields, hf, hc⟩)
      exact (fields_plain hfields hts).1
    refine ⟨.newEnum hsound h, ?_⟩
    obtain ⟨_, rfl⟩ := Value.newEnum_eq_ok.mp h
    rfl

theorem templateAt_plain (h : i.templateAt l depth id = .ok t) : Plain t := by
  induction id using i.types_induction generalizing depth t with
  | _ id ih =>
    obtain ⟨_, decl, hd, ht⟩ := templateAt_eq_ok.mp h
    exact templateOf_plain (fun child hc u hu => ih decl hd child hc hu) ht

theorem templateOf_narrows {bad : Fault → Prop} {build others : TypeId → Except Fault Value}
    {l m : Limits} {layout : Layout}
    (hb : ∀ child ∈ layout.references, Narrows bad (build child) (others child))
    (hc : ∀ element n, layout = .array element n →
      Narrows bad (l.checkCollection n) (m.checkCollection n)) :
    Narrows bad (templateOf build l layout) (templateOf others m layout) := by
  cases layout with
  | primitive p => exact .refl _
  | struct fields => exact (Narrows.mapM hb).bind fun _ => .refl _
  | tuple fields => exact (Narrows.mapM hb).bind fun _ => .refl _
  | vector element => exact (hb element (List.mem_singleton_self _)).bind fun _ => .refl _
  | array element length =>
    refine (hc element length rfl).bind fun _ => ?_
    exact (hb element (List.mem_singleton_self _)).bind fun _ => .refl _
  | enum variants =>
    refine (Narrows.mapM fun fields hf => Narrows.mapM fun id hid => ?_).bind fun _ => .refl _
    exact hb id (List.mem_flatten.mpr ⟨fields, hf, hid⟩)

/-- Templates under two limits differ only where the checks of depth and of collections do. -/
theorem templateAt_narrows {bad : Fault → Prop} {l m : Limits}
    (hd : ∀ n, Narrows bad (l.checkDepth n) (m.checkDepth n))
    (hc : ∀ n, Narrows bad (l.checkCollection n) (m.checkCollection n)) :
    Narrows bad (i.templateAt l depth id) (i.templateAt m depth id) := by
  induction id using i.types_induction generalizing depth with
  | _ id ih =>
    rw [templateAt_eq, templateAt_eq]
    refine (hd depth).bind fun _ => ?_
    cases hr : i.resolve id with
    | error f => exact .refl _
    | ok decl => exact templateOf_narrows (fun child hm => ih decl hr child hm) fun _ n _ => hc n

/-- A length above the limit on collections. -/
def OverCollection (l : Limits) (f : Fault) : Prop :=
  ∃ length, ∃ max ∈ l.collection, f = .limitExceeded .collection length max

theorem templateAt_narrows_uncollected (i : Interface) (l : Limits) (depth : Nat) (id : TypeId) :
    Narrows (OverCollection l) (i.templateAt l depth id) (i.templateAt l.uncollected depth id) := by
  refine templateAt_narrows (m := l.uncollected) (fun n => .refl _) fun n => ?_
  have hnone : ∀ k ∈ l.uncollected.collection, ∃ max ∈ l.collection, max ≤ k := nofun
  exact (Limits.within_narrows n hnone).mono fun f hf => ⟨n, hf⟩

theorem templateAt_uncollected (h : i.templateAt l depth id = .ok t) :
    i.templateAt l.uncollected depth id = .ok t :=
  (templateAt_narrows_uncollected i l depth id).of_ok h

/-- A template that is within all limits but that on collections fails, if it does, over a
limit. -/
theorem templateAt_or_limit (h : i.templateAt l.uncollected depth id = .ok t) :
    i.templateAt l depth id = .ok t ∨
      ∃ f, i.templateAt l depth id = .error f ∧ f.IsLimit ∧ ¬ l.Lenient := by
  rcases templateAt_narrows_uncollected i l depth id with hsame | ⟨f, hf, n, max, hmax, rfl⟩
  · exact .inl (hsame.trans h)
  · refine .inr ⟨_, hf, ⟨_, _, _, rfl⟩, fun hl => ?_⟩
    rw [hl.1] at hmax
    cases hmax

end Interface

end CallWire
