import CallWire.Proofs.ArgumentSound

namespace CallWire

namespace Interface

variable {i : Interface} {l : Limits} {depth : Nat} {id : TypeId} {t : Value}
  {types : List TypeDecl} {methods : List Method} {contract : Option Contract}

theorem sized_of_ofParts (h : ofParts types methods contract = .ok i) {decl : TypeDecl}
    (hr : i.resolve id = .ok decl) : decl.Sized := by
  have hformed := ofParts_ok_iff.mp ⟨i, h⟩
  obtain ⟨hd, _⟩ := (resolve_eq_ok h).mp hr
  exact ⟨hformed.arrays decl hd, hformed.enums decl hd⟩

theorem exists_reference_of_ofParts (h : ofParts types methods contract = .ok i) {decl : TypeDecl}
    (hr : i.resolve id = .ok decl) :
    ∀ child ∈ decl.layout.references, ∃ other, i.resolve child = .ok other := by
  have hformed := ofParts_ok_iff.mp ⟨i, h⟩
  obtain ⟨hd, _⟩ := (resolve_eq_ok h).mp hr
  exact fun child hc => exists_resolve h (hformed.references decl hd child hc)

theorem exists_template_unbounded (h : ofParts types methods contract = .ok i)
    (hid : id < types.length) (depth : Nat) : ∃ t, i.templateAt .unbounded depth id = .ok t :=
  templateAt_unbounded (fun _ _ => sized_of_ofParts h) (fun _ _ => exists_reference_of_ofParts h)
    (exists_resolve h hid)

/-- Counted from a depth, no type that a type is made of, itself included, lies deeper than types
may. -/
def DepthWithin (i : Interface) (l : Limits) (depth : Nat) (id : TypeId) : Prop :=
  ∀ n part, i.Below n part id → ∀ max ∈ l.depth, depth + n ≤ max

theorem DepthWithin.checkDepth (h : i.DepthWithin l depth id) : l.checkDepth depth = .ok () :=
  Limits.within_eq_ok_iff.mpr fun max hmax => h 0 id (.self id) max hmax

theorem DepthWithin.reference (h : i.DepthWithin l depth id) {decl : TypeDecl} {child : TypeId}
    (hr : i.resolve id = .ok decl) (hc : child ∈ decl.layout.references) :
    i.DepthWithin l (depth + 1) child := by
  intro n part hb max hmax
  have hle := h (n + 1) part (.reference hr hc hb) max hmax
  omega

/-- Depth and the lengths of arrays are all that can stop a template. -/
theorem templateAt_ok (hparts : ofParts types methods contract = .ok i) (hid : id < types.length)
    (hd : i.DepthWithin l depth id) (ha : i.ArraysWithin l id) :
    ∃ t, i.templateAt l depth id = .ok t := by
  obtain ⟨decl, hr⟩ := exists_resolve hparts hid
  clear hid
  induction id using i.types_induction generalizing depth decl with
  | _ id ih =>
    have hbuilt : ∀ child ∈ decl.layout.references,
        ∃ u, i.templateAt l (depth + 1) child = .ok u := by
      intro child hc
      obtain ⟨other, ho⟩ := exists_reference_of_ofParts hparts hr child hc
      exact ih decl hr child hc (hd.reference hr hc) (ha.reference hr hc) other ho
    have hlength : LengthWithin l decl.layout := ha id .refl decl hr
    obtain ⟨t, ht⟩ := templateOf_ok (sized_of_ofParts hparts hr) hlength hbuilt
    exact ⟨t, templateAt_eq_ok.mpr ⟨hd.checkDepth, decl, hr, ht⟩⟩

theorem depthWithin_of_templateAt (h : i.templateAt l depth id = .ok t) :
    i.DepthWithin l depth id :=
  fun _ _ hb => Limits.within_eq_ok_iff.mp (checkDepth_of_templateAt hb h)

/-- A depth above the limit on depth. -/
def OverDepth (l : Limits) (f : Fault) : Prop :=
  ∃ depth, ∃ max ∈ l.depth, f = .limitExceeded .depth depth max

/-- Limits give the template that no limits give, or a fault of depth or of length. -/
theorem templateAt_narrows_unbounded (i : Interface) (l : Limits) (depth : Nat) (id : TypeId) :
    Narrows (fun f => OverDepth l f ∨ OverCollection l f) (i.templateAt l depth id)
      (i.templateAt .unbounded depth id) := by
  refine templateAt_narrows (m := .unbounded) (fun n => ?_) fun n => ?_
  · have hnone : ∀ k ∈ Limits.unbounded.depth, ∃ max ∈ l.depth, max ≤ k := nofun
    exact (Limits.within_narrows n hnone).mono fun f hf => .inl ⟨n, hf⟩
  · have hnone : ∀ k ∈ Limits.unbounded.collection, ∃ max ∈ l.collection, max ≤ k := nofun
    exact (Limits.within_narrows n hnone).mono fun f hf => .inr ⟨n, hf⟩

/-- The template of a type is built just when no path of references from it is longer than types
may be deep and no array on any of them is longer than collections may be. Otherwise one of these
limits stops it, unless there is no such type. -/
theorem template_built_iff (h : ofParts types methods contract = .ok i) (l : Limits)
    (id : TypeId) :
    (types.length ≤ id → i.template l id = .error (.unknownType id)) ∧
    (id < types.length →
      ((∃ t, i.template l id = .ok t) ↔
        (∀ n part, i.Below n part id → ∀ max ∈ l.depth, n ≤ max) ∧ i.ArraysWithin l id) ∧
      ∀ f, i.template l id = .error f → OverDepth l f ∨ OverCollection l f) := by
  constructor
  · intro hid
    have htop : l.checkDepth 0 = .ok () := Limits.within_eq_ok_iff.mpr fun max _ => Nat.zero_le max
    rw [template, templateAt_eq, htop, resolve_of_le h hid]
    rfl
  · intro hid
    have hzero : i.DepthWithin l 0 id ↔ ∀ n part, i.Below n part id → ∀ max ∈ l.depth, n ≤ max := by
      simp only [DepthWithin, Nat.zero_add]
    rw [← hzero]
    refine ⟨⟨fun hok => ?_, fun hw => templateAt_ok h hid hw.1 hw.2⟩, fun f hf => ?_⟩
    · obtain ⟨t, ht⟩ := hok
      exact ⟨depthWithin_of_templateAt ht, arraysWithin_of_templateAt ht⟩
    · obtain ⟨t, ht⟩ := exists_template_unbounded h hid 0
      rcases templateAt_narrows_unbounded i l 0 id with hsame | ⟨g, hg, hover⟩
      · cases (hf.symm.trans hsame).trans ht
      · cases hf.symm.trans hg
        exact hover

/-- Limits that the grid just meets. -/
def gridLimits : Limits := { collection := some 3, depth := some 3 }

theorem below_grid : gridInterface.Below 3 0 3 := by
  have hrow : gridInterface.resolve 3 = .ok ⟨3, .array 2 3⟩ := rfl
  have hchoice : gridInterface.resolve 2 = .ok ⟨2, .enum [[0, 1], [1]]⟩ := rfl
  have hflags : gridInterface.resolve 1 = .ok ⟨1, .vector 0⟩ := rfl
  have hflag : gridInterface.Below 1 0 1 := .reference hflags List.mem_cons_self (.self 0)
  have hsecond : (1 : TypeId) ∈ (Layout.enum [[0, 1], [1]]).references := by decide
  exact .reference hrow List.mem_cons_self (.reference hchoice hsecond hflag)

theorem template_built_iff_grid : ofParts gridTypes [] none = .ok gridInterface ∧
    gridInterface.template gridLimits 4 = .error (.unknownType 4) ∧
    (∀ n part, gridInterface.Below n part 3 → n ≤ 3) ∧
    ¬ ∃ t, gridInterface.template { gridLimits with depth := some 2 } 3 = .ok t := by
  obtain ⟨hunknown, _⟩ := template_built_iff ofParts_grid gridLimits 4
  obtain ⟨_, hgrid⟩ := template_built_iff ofParts_grid gridLimits 3
  obtain ⟨_, hshallow⟩ := template_built_iff ofParts_grid { gridLimits with depth := some 2 } 3
  have hid : 3 < gridTypes.length := by decide
  have hbuilt : ∃ t, gridInterface.template gridLimits 3 = .ok t := ⟨_, by cbv⟩
  obtain ⟨hpaths, _⟩ := (hgrid hid).1.mp hbuilt
  refine ⟨ofParts_grid, hunknown (Nat.le_refl 4), fun n part hb => hpaths n part hb 3 rfl, ?_⟩
  intro hok
  obtain ⟨hpaths, _⟩ := (hshallow hid).1.mp hok
  exact absurd (hpaths 3 0 below_grid 2 rfl) (by decide)

end Interface

end CallWire
