import CallWire.Proofs.TemplateShape
import Mathlib.Logic.Relation

namespace CallWire

namespace Interface

variable {i : Interface} {l : Limits} {depth : Nat} {id : TypeId} {t : Value}

/-- The layout is no array longer than collections may be. -/
def LengthWithin (l : Limits) (layout : Layout) : Prop :=
  ∀ element n, layout = .array element n → ∀ max ∈ l.collection, n ≤ max

/-- No array among the types that a type is made of, itself included, is longer than collections
may be. -/
def ArraysWithin (i : Interface) (l : Limits) (id : TypeId) : Prop :=
  ∀ part, Relation.ReflTransGen i.types.Refers part id → ∀ decl, i.resolve part = .ok decl →
    LengthWithin l decl.layout

theorem exists_of_refers {child : TypeId} (h : i.types.Refers child id) :
    ∃ decl, i.resolve id = .ok decl ∧ child ∈ decl.layout.references := by
  unfold TypeTable.Refers TypeTable.references at h
  split at h
  next decl hd =>
    refine ⟨decl, ?_, h⟩
    unfold resolve
    rw [hd]
  next => cases h

theorem ArraysWithin.reference (h : i.ArraysWithin l id) {decl : TypeDecl} {child : TypeId}
    (hr : i.resolve id = .ok decl) (hc : child ∈ decl.layout.references) :
    i.ArraysWithin l child :=
  fun part hpart => h part (hpart.tail (refers_of_resolve hr hc))

theorem arraysWithin_of_children
    (h : ∀ decl, i.resolve id = .ok decl → LengthWithin l decl.layout ∧
      ∀ child ∈ decl.layout.references, i.ArraysWithin l child) : i.ArraysWithin l id := by
  intro part hpart
  rcases hpart.cases_tail with heq | ⟨parent, hpart, hrefers⟩
  · subst heq
    exact fun decl hr => (h decl hr).1
  · obtain ⟨decl, hr, hc⟩ := exists_of_refers hrefers
    exact (h decl hr).2 parent hc part hpart

theorem templateAt_narrows_of_arraysWithin (h : i.ArraysWithin l id) :
    Narrows (fun _ => False) (i.templateAt l depth id) (i.templateAt l.uncollected depth id) := by
  induction id using i.types_induction generalizing depth with
  | _ id ih =>
    rw [templateAt_eq, templateAt_eq]
    refine (Narrows.refl _).bind fun _ => ?_
    cases hr : i.resolve id with
    | error f => exact .refl _
    | ok decl =>
      have hparts : ∀ child ∈ decl.layout.references, Narrows (fun _ => False)
          (i.templateAt l (depth + 1) child) (i.templateAt l.uncollected (depth + 1) child) :=
        fun child hc => ih decl hr child hc (h.reference hr hc)
      refine templateOf_narrows hparts fun element n hlayout => .inl ?_
      exact Limits.within_eq_ok_iff.mpr (h id .refl decl hr element n hlayout)

/-- A layer of a template is built of those of all its references, and is no array too long. -/
theorem templateOf_parts {build : TypeId → Except Fault Value} {layout : Layout}
    (h : templateOf build l layout = .ok t) :
    LengthWithin l layout ∧ ∀ child ∈ layout.references, ∃ u, build child = .ok u := by
  cases layout with
  | primitive p => exact ⟨nofun, nofun⟩
  | struct fields =>
    obtain ⟨ts, hts, _⟩ := bind_eq_ok.mp h
    exact ⟨nofun, fun child hc => exists_of_mapM hts hc⟩
  | tuple fields =>
    obtain ⟨ts, hts, _⟩ := bind_eq_ok.mp h
    exact ⟨nofun, fun child hc => exists_of_mapM hts hc⟩
  | vector element =>
    obtain ⟨u, hu, _⟩ := bind_eq_ok.mp h
    refine ⟨nofun, fun child hc => ?_⟩
    cases List.mem_singleton.mp hc
    exact ⟨u, hu⟩
  | array element length =>
    obtain ⟨_, hlength, h⟩ := bind_eq_ok.mp h
    obtain ⟨u, hu, _⟩ := bind_eq_ok.mp h
    constructor
    · intro _ n hlayout
      cases hlayout
      exact Limits.within_eq_ok_iff.mp hlength
    · intro child hc
      cases List.mem_singleton.mp hc
      exact ⟨u, hu⟩
  | enum variants =>
    obtain ⟨tss, htss, _⟩ := bind_eq_ok.mp h
    refine ⟨nofun, fun child hc => ?_⟩
    obtain ⟨fields, hf, hc⟩ := List.mem_flatten.mp hc
    obtain ⟨ts, hts⟩ := exists_of_mapM htss hf
    exact exists_of_mapM hts hc

theorem arraysWithin_of_templateAt (h : i.templateAt l depth id = .ok t) :
    i.ArraysWithin l id := by
  induction id using i.types_induction generalizing depth t with
  | _ id ih =>
    obtain ⟨_, decl, hr, ht⟩ := templateAt_eq_ok.mp h
    obtain ⟨hlength, hparts⟩ := templateOf_parts ht
    refine arraysWithin_of_children fun other ho => ?_
    cases hr.symm.trans ho
    refine ⟨hlength, fun child hc => ?_⟩
    obtain ⟨u, hu⟩ := hparts child hc
    exact ih decl hr child hc hu

end Interface

end CallWire
