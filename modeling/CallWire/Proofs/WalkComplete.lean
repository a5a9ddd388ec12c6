import CallWire.Proofs.WalkInvariant

namespace CallWire

namespace Walk

variable {types : TypeTable} {marks : Array Mark} {w : Walk}

/-- A run fails at no step when none fails that keeps what the steps keep. -/
theorem run_ok {p : Walk → Prop} (hstep : ∀ w v, p w → step types w = .ok v → p v)
    (hok : ∀ w, p w → ∃ v, step types w = .ok v) (hw : p w) :
    ∃ marks, run types w = .ok marks := by
  induction w using run.induct types with
  | case1 w hp =>
    obtain ⟨marks, path⟩ := w
    cases hp
    exact ⟨marks, run_nil types marks⟩
  | case2 w hp v hv ih =>
    rw [run_of_step hp hv]
    exact ih (hstep w v hw hv)
  | case3 w hp f hf =>
    obtain ⟨v, hv⟩ := hok w hw
    cases hf.symm.trans hv

/-- Walks from types of a table fail nowhere when no step fails. -/
theorem Kept.roots_ok {p : Walk → Prop} (hp : Kept types p)
    (hok : ∀ w, p w → ∃ v, step types w = .ok v) {ids : List TypeId} (hw : p ⟨marks, []⟩) :
    ∃ others, roots types ids marks = .ok others := by
  induction ids generalizing marks with
  | nil => exact ⟨marks, rfl⟩
  | cons id ids ih =>
    by_cases hf : mark marks id = .fresh
    · have hstart := hp.of_start marks id hw hf
      obtain ⟨between, hrun⟩ := run_ok hp.of_step hok hstart
      obtain ⟨others, hr⟩ := ih (run_keeps hp.of_step hstart hrun)
      rw [roots_fresh hf]
      exact ⟨others, bind_eq_ok.mpr ⟨between, hrun, hr⟩⟩
    · rw [roots_touched hf]
      exact ih hw

/-- The walk over a whole table leaves each type with a count of its nodes. -/
theorem mark_of_survey (h : survey types = .ok marks) (id : TypeId) :
    mark marks id = .done (nodes marks id) := by
  obtain ⟨n, hn⟩ := isDone_of_survey h id
  rw [nodes, hn]
  rfl

theorem hasNodes_of_survey (hc : Closed types) (h : survey types = .ok marks) {id : TypeId}
    (hid : id < types.size) :
    nodes marks id ≤ maxTypeNodes ∧ HasNodes types.toList id (nodes marks id) :=
  ((kept_invariant hc).of_roots (.start types) h).1.counted id _ hid (mark_of_survey h id)

/-- The count of a type is made up of those of the types it refers to. -/
theorem nodes_of_survey (hc : Closed types) (h : survey types = .ok marks) {id : TypeId}
    {decl : TypeDecl} (hd : types[id]? = some decl) :
    nodes marks id = decl.layout.templateNodes (nodes marks) := by
  obtain ⟨hlt, _⟩ := Array.getElem?_eq_some_iff.mp hd
  have hchildren : ∀ c ∈ decl.layout.references, HasNodes types.toList c (nodes marks c) := by
    intro c hm
    rw [← TypeTable.references_of_getElem? hd] at hm
    exact (hasNodes_of_survey hc h (hc.references_lt id c hm)).2
  rw [← Array.getElem?_toList] at hd
  obtain ⟨hm, rfl⟩ := hc.numbered.getElem?_eq.mp hd
  exact hc.numbered.hasNodes_unique (hasNodes_of_survey hc h hlt).2 (.intro hm hchildren)

theorem layoutNodes_of_survey (hc : Closed types) (h : survey types = .ok marks) {id : TypeId}
    {decl : TypeDecl} (hd : types[id]? = some decl) :
    nodes marks id = decl.layout.nodes (nodes marks) := by
  obtain ⟨hlt, _⟩ := Array.getElem?_eq_some_iff.mp hd
  have hmax : maxTypeNodes ≤ Count.max := by decide
  have hle := (hasNodes_of_survey hc h hlt).1.trans hmax
  rw [Layout.nodes_eq_min, ← nodes_of_survey hc h hd, Nat.min_eq_left hle]

theorem survey_ok (hc : Closed types) (hacyclic : ∀ id, ¬ Relation.TransGen types.Refers id id)
    (hsmall : ∀ id n, HasNodes types.toList id n → n ≤ maxTypeNodes) :
    ∃ marks, survey types = .ok marks :=
  (kept_invariant hc).roots_ok (fun _ => step_ok hc hacyclic hsmall) (.start types)

end Walk

namespace Interface

theorem acyclicity_of_survey {types : TypeTable} {marks : Array Mark}
    (hs : Walk.survey types = .ok marks) :
    acyclicity types = .ok ⟨Walk.wellFounded_of_survey hs⟩ := by
  unfold acyclicity
  split
  next f hf => cases hs.symm.trans hf
  next => rfl

theorem survey_of_acyclicity {types : TypeTable} {acyclic : PLift (WellFounded types.Refers)}
    (h : acyclicity types = .ok acyclic) : ∃ marks, Walk.survey types = .ok marks := by
  unfold acyclicity at h
  split at h
  next => cases h
  next marks hs => exact ⟨marks, hs⟩

theorem acyclicity_ok {types : TypeTable} (hc : Walk.Closed types) :
    (∃ acyclic, acyclicity types = .ok acyclic) ↔
      (∀ id, ¬ Relation.TransGen types.Refers id id) ∧
        ∀ decl ∈ types.toList, ∃ n ≤ maxTypeNodes, HasNodes types.toList decl.id n := by
  constructor
  · intro h
    obtain ⟨acyclic, ha⟩ := h
    have hwf := acyclic.down
    obtain ⟨marks, hs⟩ := survey_of_acyclicity ha
    refine ⟨fun id hcycle => hwf.transGen.asymmetric id id hcycle hcycle, ?_⟩
    intro decl hd
    exact ⟨_, Walk.hasNodes_of_survey hc hs (hc.numbered.lt_length hd)⟩
  · intro h
    obtain ⟨hacyclic, hcount⟩ := h
    have hsmall : ∀ id n, HasNodes types.toList id n → n ≤ maxTypeNodes := by
      intro id n hn
      cases hn with
      | @intro decl count hd hchild =>
        obtain ⟨m, hle, hm⟩ := hcount decl hd
        have hsame := hc.numbered.hasNodes_unique (.intro hd hchild) hm
        rwa [hsame]
    obtain ⟨marks, hs⟩ := Walk.survey_ok hc hacyclic hsmall
    exact ⟨_, acyclicity_of_survey hs⟩

end Interface

end CallWire
