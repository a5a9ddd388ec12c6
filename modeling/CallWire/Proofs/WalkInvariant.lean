import CallWire.Proofs.TypeGraph

namespace CallWire

namespace Walk

variable {types : TypeTable} {marks : Array Mark} {w v : Walk}

/-- What every step of a walk keeps; `above` is a type about to be entered from the path. -/
structure Invariant (types : TypeTable) (above : Option TypeId) (w : Walk) : Prop
    extends Grounded types above w where
  counted : ∀ id n, id < types.size → mark w.marks id = .done n →
    n ≤ maxTypeNodes ∧ HasNodes types.toList id n

/-- A table whose types stand in order and refer to none outside it. -/
structure Closed (types : TypeTable) : Prop where
  numbered : Numbered types.toList
  references_lt : ∀ id, ∀ c ∈ types.references id, c < types.size

/-- The types on the path all lead to the one that stands above them. -/
theorem Trail.reaches {id : TypeId} {path : List Frame} (h : Trail types marks (some id) path) :
    ∀ f ∈ path, Relation.TransGen types.Refers id f.id := by
  induction path generalizing id with
  | nil => simp
  | cons f path ih =>
    obtain ⟨hf, hpath⟩ := h
    have hstep : types.Refers id f.id := hf.above_mem id rfl
    intro g hg
    rcases List.mem_cons.mp hg with rfl | hg
    · exact .single hstep
    · exact .head hstep (ih hpath g hg)

theorem step_error_cases {f : SchemaFault} (h : step types w = .error f) :
    (∃ id path, w.path = ⟨id, []⟩ :: path ∧ maxTypeNodes < count types w.marks id) ∨
    (∃ id next pending path, w.path = ⟨id, next :: pending⟩ :: path ∧
      mark w.marks next = .entered) := by
  unfold step at h
  split at h
  next => cases h
  next id path hp =>
    dsimp only at h
    split at h
    next => cases h
    next hn => exact .inl ⟨id, path, hp, Nat.lt_of_not_le hn⟩
  next id next pending path hp =>
    split at h
    next => cases h
    next hm => exact .inr ⟨id, next, pending, path, hp, hm⟩
    next => cases h

namespace Invariant

variable {id next : TypeId} {pending : List TypeId} {path : List Frame}

theorem root (h : Invariant types none ⟨marks, []⟩) : Invariant types (some id) ⟨marks, []⟩ :=
  ⟨h.toGrounded.root, h.counted⟩

theorem enter (h : Invariant types (some next) w) (hf : mark w.marks next = .fresh) :
    Invariant types none (Walk.enter types w next) :=
  ⟨h.toGrounded.enter hf, fun id n hid hn => h.counted id n hid ((done_of_entered_iff hf).mp hn)⟩

theorem follow (h : Invariant types none ⟨marks, ⟨id, next :: pending⟩ :: path⟩) :
    Invariant types (some next) ⟨marks, ⟨id, pending⟩ :: path⟩ :=
  ⟨h.toGrounded.follow, h.counted⟩

theorem skip (h : Invariant types (some next) w) (hd : IsDone w.marks next) :
    Invariant types none w :=
  ⟨h.toGrounded.skip hd, h.counted⟩

/-- A type with no reference left to follow has as many nodes as the marks of those it refers to
say. -/
theorem hasNodes_top (hc : Closed types)
    (h : Invariant types none ⟨marks, ⟨id, []⟩ :: path⟩) :
    ∃ decl, types[id]? = some decl ∧
      HasNodes types.toList id (decl.layout.templateNodes (nodes marks)) := by
  have hlt : id < types.size := h.bounded ⟨id, []⟩ List.mem_cons_self
  obtain ⟨decl, hd⟩ : ∃ decl, types[id]? = some decl := ⟨_, Array.getElem?_eq_getElem hlt⟩
  have hchild : ∀ c ∈ decl.layout.references, HasNodes types.toList c (nodes marks c) := by
    intro c hm
    rw [← TypeTable.references_of_getElem? hd] at hm
    have hclt := hc.references_lt id c hm
    obtain ⟨n, hn⟩ := h.references_done c hm
    rw [nodes, hn]
    exact (h.counted c n hclt hn).2
  rw [← Array.getElem?_toList] at hd
  obtain ⟨hm, rfl⟩ := hc.numbered.getElem?_eq.mp hd
  exact ⟨decl, by rwa [← Array.getElem?_toList], .intro hm hchild⟩

theorem leave (hc : Closed types) (h : Invariant types none ⟨marks, ⟨id, []⟩ :: path⟩)
    (hn : count types marks id ≤ maxTypeNodes) :
    Invariant types none ⟨marks.setIfInBounds id (.done (count types marks id)), path⟩ := by
  obtain ⟨decl, hd, hnodes⟩ := h.hasNodes_top hc
  have hcount : count types marks id = decl.layout.templateNodes (nodes marks) := by
    rw [count, hd] at hn ⊢
    exact Layout.nodes_eq_of_le hn
  refine ⟨h.toGrounded.leave _, ?_⟩
  intro c n hclt hm
  rw [mark_setIfInBounds h.toGrounded.lt_size_top] at hm
  by_cases hci : c = id
  · rw [if_pos hci] at hm
    cases hm
    rw [hci]
    exact ⟨hn, hcount ▸ hnodes⟩
  · rw [if_neg hci] at hm
    exact h.counted c n hclt hm

theorem start (types : TypeTable) :
    Invariant types none ⟨Array.replicate types.size .fresh, []⟩ := by
  refine ⟨.start types, ?_⟩
  intro id n hlt hm
  cases (mark_replicate hlt).symm.trans hm

end Invariant

theorem step_invariant (hc : Closed types) (hw : Invariant types none w)
    (h : step types w = .ok v) : Invariant types none v := by
  obtain ⟨marks, path⟩ := w
  rcases step_cases h with ⟨_, rfl⟩ | ⟨id, path, rfl, hn, rfl⟩ |
    ⟨id, next, pending, path, rfl, hd, rfl⟩ | ⟨id, next, pending, path, rfl, hf, rfl⟩
  · exact hw
  · exact hw.leave hc hn
  · exact hw.follow.skip hd
  · exact hw.follow.enter hf

theorem kept_invariant (hc : Closed types) : Kept types (Invariant types none) :=
  ⟨fun _ _ => step_invariant hc, fun _ _ hw => hw.root.enter⟩

theorem step_ok (hc : Closed types) (hacyclic : ∀ id, ¬ Relation.TransGen types.Refers id id)
    (hsmall : ∀ id n, HasNodes types.toList id n → n ≤ maxTypeNodes)
    (hw : Invariant types none w) : ∃ v, step types w = .ok v := by
  cases h : step types w with
  | ok v => exact ⟨v, rfl⟩
  | error f =>
    exfalso
    obtain ⟨marks, path⟩ := w
    rcases step_error_cases h with ⟨id, path, rfl, hn⟩ | ⟨id, next, pending, path, rfl, hm⟩
    · obtain ⟨decl, hd, hnodes⟩ := hw.hasNodes_top hc
      rw [count, hd] at hn
      exact absurd (Layout.nodes_le_iff.mpr (hsmall id _ hnodes)) (Nat.not_le.mpr hn)
    · -- The type entered again lies on the path, and all types on the path lead to it.
      obtain ⟨f, hf, hid⟩ := List.mem_map.mp (hw.follow.entered next hm)
      have hcycle := hw.follow.trail.reaches f hf
      rw [hid] at hcycle
      exact hacyclic next hcycle

end Walk

end CallWire
