import CallWire.Proofs.WalkTurns

namespace CallWire

namespace TypeTable

/-- The table with each type numbered by its place. -/
def numbered (types : TypeTable) : TypeTable :=
  types.mapIdx fun place decl => ⟨place, decl.layout⟩

theorem size_numbered (types : TypeTable) : types.numbered.size = types.size := Array.size_mapIdx

theorem getElem?_numbered (types : TypeTable) (id : TypeId) :
    types.numbered[id]? = types[id]?.map fun decl => ⟨id, decl.layout⟩ := Array.getElem?_mapIdx

theorem references_numbered (types : TypeTable) (id : TypeId) :
    types.numbered.references id = types.references id := by
  rw [references, references, getElem?_numbered]
  cases types[id]? <;> rfl

theorem numbered_toList (types : TypeTable) : Numbered types.numbered.toList := by
  apply List.ext_getElem?
  intro id
  rw [List.getElem?_map, Array.getElem?_toList, getElem?_numbered]
  by_cases hid : id < types.size
  · rw [Array.getElem?_eq_getElem hid, List.getElem?_range (by simpa [numbered] using hid)]
    rfl
  · rw [Array.getElem?_eq_none (Nat.le_of_not_lt hid), List.getElem?_eq_none]
    · rfl
    · simpa [numbered] using hid

end TypeTable

namespace Walk

open TypeTable

variable {types : TypeTable} {marks : Array Mark} {w : Walk} {id next : TypeId}
  {pending : List TypeId} {path : List Frame}

theorem Trail.pending_suffix {above : Option TypeId} (h : Trail types marks above path) :
    ∀ f ∈ path, f.pending <:+ types.references f.id := by
  induction path generalizing above with
  | nil => nofun
  | cons f path ih =>
    obtain ⟨seen, hs, _⟩ := h.1.split
    exact List.forall_mem_cons.mpr ⟨⟨seen, hs.symm⟩, ih h.2⟩

theorem Trail.linked {above : Option TypeId} (h : Trail types marks above path) :
    path.IsChain fun f g => types.Refers f.id g.id := by
  induction path generalizing above with
  | nil => exact .nil
  | cons f path ih =>
    cases path with
    | nil => exact .singleton f
    | cons g path => exact List.isChain_cons_cons.mpr ⟨h.2.1.above_mem f.id rfl, ih h.2⟩

theorem count_numbered (types : TypeTable) (marks : Array Mark) (id : TypeId) :
    count types.numbered marks id = count types marks id := by
  rw [count, count, getElem?_numbered]
  cases types[id]? <;> rfl

theorem enter_numbered (types : TypeTable) (w : Walk) (id : TypeId) :
    enter types.numbered w id = enter types w id := by
  rw [enter, enter, references_numbered]

/-- A table whose types refer to none outside it. -/
def Ranged (types : TypeTable) : Prop :=
  ∀ decl ∈ types, ∀ c ∈ decl.layout.references, c < types.size

theorem Ranged.closed (h : Ranged types) : Closed types.numbered := by
  refine ⟨numbered_toList types, ?_⟩
  intro id c hc
  rw [references_numbered, references] at hc
  rw [size_numbered]
  split at hc
  next decl hd => exact h decl (Array.mem_of_getElem? hd) c hc
  next => cases hc

/-- What every turn keeps, whatever the numbers that the types carry. -/
structure Settled (types : TypeTable) (above : Option TypeId) (w : Walk) : Prop where
  invariant : Invariant types.numbered above w
  on_path : ∀ f ∈ w.path, mark w.marks f.id = .entered
  nodup : (w.path.map Frame.id).Nodup
  done_closed : ∀ id, IsDone w.marks id → ∀ c ∈ types.references id, IsDone w.marks c

namespace Settled

theorem size_eq {above : Option TypeId} (h : Settled types above w) :
    w.marks.size = types.size := by
  rw [h.invariant.size, size_numbered]

theorem mem_path_iff {above : Option TypeId} (h : Settled types above w) :
    mark w.marks id = .entered ↔ id ∈ w.path.map Frame.id := by
  refine ⟨h.invariant.entered id, ?_⟩
  intro hm
  obtain ⟨f, hf, rfl⟩ := List.mem_map.mp hm
  exact h.on_path f hf

theorem follow (h : Settled types none ⟨marks, ⟨id, next :: pending⟩ :: path⟩) :
    Settled types (some next) ⟨marks, ⟨id, pending⟩ :: path⟩ := by
  refine ⟨h.invariant.follow, ?_, h.nodup, h.done_closed⟩
  intro f hf
  rcases List.mem_cons.mp hf with rfl | hf
  · exact h.on_path ⟨id, next :: pending⟩ List.mem_cons_self
  · exact h.on_path f (List.mem_cons_of_mem _ hf)

theorem skip (h : Settled types (some next) w) (hd : IsDone w.marks next) :
    Settled types none w :=
  ⟨h.invariant.skip hd, h.on_path, h.nodup, h.done_closed⟩

theorem enter (h : Settled types (some next) w) (hf : mark w.marks next = .fresh) :
    Settled types none (Walk.enter types w next) := by
  have hmark : ∀ c, mark (w.marks.setIfInBounds next .entered) c =
      if c = next then .entered else mark w.marks c :=
    fun c => mark_setIfInBounds (lt_size_of_mark hf nofun)
  have hother : ∀ f ∈ w.path, f.id ≠ next := by
    rintro f hm rfl
    cases hf.symm.trans (h.on_path f hm)
  constructor
  · rw [← enter_numbered]
    exact h.invariant.enter hf
  · intro f hm
    rcases List.mem_cons.mp hm with rfl | hm
    · exact (hmark next).trans (if_pos rfl)
    · exact ((hmark f.id).trans (if_neg (hother f hm))).trans (h.on_path f hm)
  · refine List.nodup_cons.mpr ⟨?_, h.nodup⟩
    intro hm
    obtain ⟨f, hm, hid⟩ := List.mem_map.mp hm
    exact hother f hm hid
  · rintro c ⟨n, hn⟩ d hd
    obtain ⟨m, hm⟩ := h.done_closed c ⟨n, (done_of_entered_iff hf).mp hn⟩ d hd
    exact ⟨m, (done_of_entered_iff hf).mpr hm⟩

theorem pending_suffix {above : Option TypeId} (h : Settled types above w) :
    ∀ f ∈ w.path, f.pending <:+ types.references f.id := by
  intro f hf
  rw [← references_numbered]
  exact h.invariant.trail.pending_suffix f hf

theorem linked {above : Option TypeId} (h : Settled types above w) :
    w.path.IsChain fun f g => types.Refers f.id g.id := by
  refine h.invariant.trail.linked.imp ?_
  intro f g hr
  rwa [Refers, references_numbered] at hr

theorem references_done (h : Settled types none ⟨marks, ⟨id, []⟩ :: path⟩) :
    ∀ c ∈ types.references id, IsDone marks c := by
  rw [← references_numbered]
  exact h.invariant.references_done

theorem leave (hr : Ranged types) (h : Settled types none ⟨marks, ⟨id, []⟩ :: path⟩)
    (hn : count types marks id ≤ maxTypeNodes) :
    Settled types none ⟨marks.setIfInBounds id (.done (count types marks id)), path⟩ := by
  have hlt : id < marks.size := h.invariant.lt_size_top
  obtain ⟨hnot, hnodup⟩ := List.nodup_cons.mp h.nodup
  constructor
  · rw [← count_numbered] at hn ⊢
    exact h.invariant.leave hr.closed hn
  · intro f hf
    have hid : f.id ≠ id := fun hid => hnot (List.mem_map.mpr ⟨f, hf, hid⟩)
    rw [mark_setIfInBounds hlt, if_neg hid]
    exact h.on_path f (List.mem_cons_of_mem _ hf)
  · exact hnodup
  · intro c hc d hd
    refine (isDone_of_done_iff hlt).mpr (.inr ?_)
    rcases (isDone_of_done_iff hlt).mp hc with rfl | hc
    · exact h.references_done d hd
    · exact h.done_closed c hc d hd

end Settled

theorem settled_start (types : TypeTable) :
    Settled types none ⟨Array.replicate types.size .fresh, []⟩ := by
  have hstart := Invariant.start types.numbered
  rw [size_numbered] at hstart
  refine ⟨hstart, nofun, List.nodup_nil, ?_⟩
  intro id hd c hc
  by_cases hid : id < types.size
  · obtain ⟨n, hn⟩ := hd
    cases (mark_replicate hid).symm.trans hn
  · rw [references_of_size_le (Nat.le_of_not_lt hid)] at hc
    cases hc

end Walk

namespace Tour

open Walk

variable {types : TypeTable} {t u : Tour}

theorem settled_of_goes (hr : Ranged types) (h : Goes types t u) (ht : Settled types none t.walk) :
    Settled types none u.walk := by
  cases h with
  | leave hn => exact ht.leave hr hn
  | follow hd => exact ht.follow.skip hd
  | enter hf => exact ht.follow.enter hf
  | root hf =>
    exact Settled.enter ⟨ht.invariant.root, ht.on_path, ht.nodup, ht.done_closed⟩ hf
  | pass => exact ht

end Tour

end CallWire
