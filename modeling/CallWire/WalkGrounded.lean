import CallWire.Walk

namespace CallWire

namespace Walk

variable {types : TypeTable} {marks others : Array Mark} {w v : Walk} {id next : TypeId}
  {path : List Frame}

theorem mark_setIfInBounds {c : TypeId} {m : Mark} (h : id < marks.size) :
    mark (marks.setIfInBounds id m) c = if c = id then m else mark marks c := by
  unfold mark
  simp only [Array.getD_eq_getD_getElem?, Array.getElem?_setIfInBounds]
  by_cases hc : c = id
  · simp [hc, h]
  · simp [hc, Ne.symm hc]

theorem mark_of_size_le (h : marks.size ≤ id) : mark marks id = .done 0 := by
  rw [mark, Array.getD_eq_getD_getElem?, Array.getElem?_eq_none h]
  rfl

theorem lt_size_of_mark {m : Mark} (h : mark marks id = m) (hm : m ≠ .done 0) :
    id < marks.size := by
  apply Decidable.byContradiction
  intro hlt
  exact hm (h.symm.trans (mark_of_size_le (Nat.le_of_not_lt hlt)))

theorem mark_replicate {n : Nat} (h : id < n) : mark (Array.replicate n .fresh) id = .fresh := by
  rw [mark, Array.getD_eq_getD_getElem?, Array.getElem?_replicate, if_pos h]
  rfl

def IsDone (marks : Array Mark) (id : TypeId) : Prop := ∃ n, mark marks id = .done n

/-- A type that is done is not the fresh one that is entered, so that its mark stays. -/
theorem done_of_entered_iff {c : TypeId} {n : Nat} (hf : mark marks next = .fresh) :
    mark (marks.setIfInBounds next .entered) c = .done n ↔ mark marks c = .done n := by
  rw [mark_setIfInBounds (lt_size_of_mark hf nofun)]
  by_cases hc : c = next
  · simp [hc, hf]
  · rw [if_neg hc]

theorem isDone_of_done_iff {c : TypeId} {n : Nat} (h : id < marks.size) :
    IsDone (marks.setIfInBounds id (.done n)) c ↔ c = id ∨ IsDone marks c := by
  rw [IsDone, mark_setIfInBounds h]
  by_cases hc : c = id
  · rw [if_pos hc]
    exact ⟨fun _ => .inl hc, fun _ => ⟨n, rfl⟩⟩
  · rw [if_neg hc, or_iff_right hc, IsDone]

/-- What a frame has followed so far is done or is the type entered from it. -/
structure Followed (types : TypeTable) (marks : Array Mark) (above : Option TypeId)
    (f : Frame) : Prop where
  split : ∃ seen, types.references f.id = seen ++ f.pending ∧
    ∀ c ∈ seen, IsDone marks c ∨ above = some c
  above_mem : ∀ c, above = some c → c ∈ types.references f.id

/-- Each frame of the path was entered from the one below it. -/
def Trail (types : TypeTable) (marks : Array Mark) : Option TypeId → List Frame → Prop
  | _, [] => True
  | above, f :: path => Followed types marks above f ∧ Trail types marks (some f.id) path

theorem Followed.mono {above : Option TypeId} {f : Frame} (h : Followed types marks above f)
    (hd : ∀ c, IsDone marks c → IsDone others c) : Followed types others above f := by
  obtain ⟨seen, hs, hc⟩ := h.split
  exact ⟨⟨seen, hs, fun c hm => (hc c hm).imp_left (hd c)⟩, h.above_mem⟩

theorem Trail.mono {above : Option TypeId} (h : Trail types marks above path)
    (hd : ∀ c, IsDone marks c → IsDone others c) : Trail types others above path := by
  induction path generalizing above with
  | nil => trivial
  | cons f path ih => exact ⟨h.1.mono hd, ih h.2⟩

theorem Trail.leave (h : Trail types marks (some id) path) (hd : IsDone marks id) :
    Trail types marks none path := by
  cases path with
  | nil => trivial
  | cons f path =>
    obtain ⟨hf, hpath⟩ := h
    obtain ⟨seen, hs, hc⟩ := hf.split
    refine ⟨⟨⟨seen, hs, ?_⟩, nofun⟩, hpath⟩
    intro c hm
    rcases hc c hm with hdone | habove
    · exact .inl hdone
    · cases habove
      exact .inl hd

theorem step_cases (h : step types w = .ok v) :
    (w.path = [] ∧ v = w) ∨
    (∃ id path, w.path = ⟨id, []⟩ :: path ∧ count types w.marks id ≤ maxTypeNodes ∧
      v = ⟨w.marks.setIfInBounds id (.done (count types w.marks id)), path⟩) ∨
    (∃ id next pending path, w.path = ⟨id, next :: pending⟩ :: path ∧ IsDone w.marks next ∧
      v = ⟨w.marks, ⟨id, pending⟩ :: path⟩) ∨
    (∃ id next pending path, w.path = ⟨id, next :: pending⟩ :: path ∧
      mark w.marks next = .fresh ∧ v = enter types ⟨w.marks, ⟨id, pending⟩ :: path⟩ next) := by
  unfold step at h
  split at h
  next hp =>
    cases h
    exact .inl ⟨hp, rfl⟩
  next id path hp =>
    dsimp only at h
    split at h
    next hn =>
      cases h
      exact .inr (.inl ⟨id, path, hp, hn, rfl⟩)
    next => cases h
  next id next pending path hp =>
    split at h
    next n hm =>
      cases h
      exact .inr (.inr (.inl ⟨id, next, pending, path, hp, ⟨n, hm⟩, rfl⟩))
    next => cases h
    next hm =>
      cases h
      exact .inr (.inr (.inr ⟨id, next, pending, path, hp, hm, rfl⟩))

theorem mark_setIfInBounds_ne_fresh {c : TypeId} {m : Mark} (hm : m ≠ .fresh)
    (hc : mark marks c ≠ .fresh) : mark (marks.setIfInBounds id m) c ≠ .fresh := by
  by_cases hid : id < marks.size
  · rw [mark_setIfInBounds hid]
    split
    next => exact hm
    next => exact hc
  · rwa [Array.setIfInBounds, dif_neg hid]

theorem step_touched (h : step types w = .ok v) (hid : mark w.marks id ≠ .fresh) :
    mark v.marks id ≠ .fresh := by
  obtain ⟨marks, path⟩ := w
  rcases step_cases h with ⟨_, rfl⟩ | ⟨_, _, _, _, rfl⟩ | ⟨_, _, _, _, _, _, rfl⟩ |
    ⟨_, _, _, _, _, _, rfl⟩
  · exact hid
  · exact mark_setIfInBounds_ne_fresh nofun hid
  · exact hid
  · exact mark_setIfInBounds_ne_fresh nofun hid

/-- What steps keep, a whole run keeps. -/
theorem run_keeps {p : Walk → Prop} (hstep : ∀ w v, p w → step types w = .ok v → p v)
    (hw : p w) (h : run types w = .ok marks) : p ⟨marks, []⟩ := by
  induction w using run.induct types with
  | case1 w hp =>
    obtain ⟨_, _⟩ := w
    cases hp
    cases (run_nil types _).symm.trans h
    exact hw
  | case2 w hp v hv ih => exact ih (hstep w v hw hv) (run_of_step hp hv ▸ h)
  | case3 w hp f hf => cases (run_of_fault hp hf).symm.trans h

theorem run_touched (h : run types w = .ok marks) (hid : mark w.marks id ≠ .fresh) :
    mark marks id ≠ .fresh :=
  run_keeps (p := fun w => mark w.marks id ≠ .fresh) (fun _ _ ht hs => step_touched hs ht) hid h

theorem enter_touched (hf : mark marks next = .fresh) (h : id = next ∨ mark marks id ≠ .fresh) :
    mark (enter types ⟨marks, path⟩ next).marks id ≠ .fresh := by
  rcases h with rfl | h
  · rw [enter, mark_setIfInBounds (lt_size_of_mark hf nofun), if_pos rfl]
    nofun
  · exact mark_setIfInBounds_ne_fresh nofun h

/-- A property of walks that each step keeps, and each start from a fresh type. -/
structure Kept (types : TypeTable) (p : Walk → Prop) : Prop where
  of_step : ∀ w v, p w → step types w = .ok v → p v
  of_start : ∀ marks id, p ⟨marks, []⟩ → mark marks id = .fresh → p (enter types ⟨marks, []⟩ id)

/-- What is kept holds after walks from all types of a list, and none of them is fresh then. -/
theorem Kept.of_roots {p : Walk → Prop} (hp : Kept types p) {ids : List TypeId}
    (hw : p ⟨marks, []⟩) (h : roots types ids marks = .ok others) :
    p ⟨others, []⟩ ∧ ∀ c, c ∈ ids ∨ mark marks c ≠ .fresh → mark others c ≠ .fresh := by
  induction ids generalizing marks with
  | nil =>
    cases h
    exact ⟨hw, fun c hc => hc.resolve_left List.not_mem_nil⟩
  | cons id ids ih =>
    have hsort : ∀ c, c ∈ id :: ids ∨ mark marks c ≠ .fresh →
        c ∈ ids ∨ c = id ∨ mark marks c ≠ .fresh := fun c hc => by
      rwa [List.mem_cons, or_assoc, or_left_comm] at hc
    by_cases hf : mark marks id = .fresh
    · rw [roots_fresh hf] at h
      cases hrun : run types (enter types ⟨marks, []⟩ id) with
      | error f =>
        rw [hrun] at h
        cases h
      | ok between =>
        rw [hrun] at h
        obtain ⟨hend, htouched⟩ := ih (run_keeps hp.of_step (hp.of_start marks id hw hf) hrun) h
        refine ⟨hend, fun c hc => htouched c ((hsort c hc).imp_right ?_)⟩
        exact fun hc => run_touched hrun (enter_touched hf hc)
    · rw [roots_touched hf] at h
      obtain ⟨hend, htouched⟩ := ih hw h
      refine ⟨hend, fun c hc => htouched c ((hsort c hc).imp_right ?_)⟩
      rintro (rfl | hc)
      · exact hf
      · exact hc

/-- What every step of a walk keeps; `above` is a type about to be entered from the path. From a
type that is done no references go on without end. -/
structure Grounded (types : TypeTable) (above : Option TypeId) (w : Walk) : Prop where
  size : w.marks.size = types.size
  entered : ∀ id, mark w.marks id = .entered → id ∈ w.path.map Frame.id
  bounded : ∀ f ∈ w.path, f.id < types.size
  trail : Trail types w.marks above w.path
  accessible : ∀ id, IsDone w.marks id → Acc types.Refers id

namespace Grounded

theorem root (h : Grounded types none ⟨marks, []⟩) : Grounded types (some id) ⟨marks, []⟩ :=
  ⟨h.size, h.entered, h.bounded, trivial, h.accessible⟩

theorem enter (h : Grounded types (some next) w) (hf : mark w.marks next = .fresh) :
    Grounded types none (Walk.enter types w next) := by
  have hlt : next < w.marks.size := lt_size_of_mark hf nofun
  have hdone : ∀ c, IsDone (w.marks.setIfInBounds next .entered) c ↔ IsDone w.marks c :=
    fun c => exists_congr fun n => done_of_entered_iff hf
  constructor
  · rw [← h.size]
    exact Array.size_setIfInBounds
  · intro id hid
    have hmark : mark (w.marks.setIfInBounds next .entered) id = .entered := hid
    rw [mark_setIfInBounds hlt] at hmark
    by_cases hc : id = next
    · rw [hc]
      exact List.mem_cons_self
    · rw [if_neg hc] at hmark
      exact List.mem_cons_of_mem _ (h.entered id hmark)
  · intro f hm
    rcases List.mem_cons.mp hm with rfl | hm
    · rwa [← h.size]
    · exact h.bounded f hm
  · exact ⟨⟨⟨[], rfl, nofun⟩, nofun⟩, h.trail.mono fun c => (hdone c).mpr⟩
  · exact fun id hid => h.accessible id ((hdone id).mp hid)

theorem follow {pending : List TypeId}
    (h : Grounded types none ⟨marks, ⟨id, next :: pending⟩ :: path⟩) :
    Grounded types (some next) ⟨marks, ⟨id, pending⟩ :: path⟩ := by
  obtain ⟨hf, hpath⟩ := h.trail
  obtain ⟨seen, hs, hc⟩ := hf.split
  refine ⟨h.size, h.entered, ?_, ⟨⟨⟨seen ++ [next], ?_, ?_⟩, ?_⟩, hpath⟩, h.accessible⟩
  · intro f hm
    rcases List.mem_cons.mp hm with rfl | hm
    · exact h.bounded ⟨id, next :: pending⟩ List.mem_cons_self
    · exact h.bounded f (List.mem_cons_of_mem _ hm)
  · rw [List.append_assoc]
    exact hs
  · intro c hm
    rcases List.mem_append.mp hm with hm | hm
    · exact .inl ((hc c hm).resolve_right nofun)
    · rw [List.mem_singleton.mp hm]
      exact .inr rfl
  · intro c habove
    cases habove
    have hrefs : types.references id = seen ++ next :: pending := hs
    rw [hrefs]
    simp

theorem skip (h : Grounded types (some next) w) (hd : IsDone w.marks next) :
    Grounded types none w :=
  ⟨h.size, h.entered, h.bounded, h.trail.leave hd, h.accessible⟩

/-- When a type is left, all that it refers to is done. -/
theorem references_done (h : Grounded types none ⟨marks, ⟨id, []⟩ :: path⟩) :
    ∀ c ∈ types.references id, IsDone marks c := by
  obtain ⟨seen, hs, hseen⟩ := h.trail.1.split
  have hall : types.references id = seen := hs.trans (List.append_nil seen)
  intro c hm
  rw [hall] at hm
  exact (hseen c hm).resolve_right fun ho => by cases ho

theorem lt_size_top {pending : List TypeId}
    (h : Grounded types none ⟨marks, ⟨id, pending⟩ :: path⟩) : id < marks.size := by
  rw [h.size]
  exact h.bounded ⟨id, pending⟩ List.mem_cons_self

theorem leave (h : Grounded types none ⟨marks, ⟨id, []⟩ :: path⟩) (n : Nat) :
    Grounded types none ⟨marks.setIfInBounds id (.done n), path⟩ := by
  have hdone : ∀ c, IsDone (marks.setIfInBounds id (.done n)) c ↔ c = id ∨ IsDone marks c :=
    fun c => isDone_of_done_iff h.lt_size_top
  have htrail := h.trail.2.mono fun c hc => (hdone c).mpr (.inr hc)
  constructor
  · rw [← h.size]
    exact Array.size_setIfInBounds
  · intro c hm
    rw [mark_setIfInBounds h.lt_size_top] at hm
    by_cases hc : c = id
    · rw [if_pos hc] at hm
      cases hm
    · rw [if_neg hc] at hm
      exact (List.mem_cons.mp (h.entered c hm)).resolve_left hc
  · exact fun f hf => h.bounded f (List.mem_cons_of_mem _ hf)
  · exact htrail.leave ((hdone id).mpr (.inl rfl))
  · intro c hc
    rcases (hdone c).mp hc with rfl | hc
    · exact .intro c fun child hchild => h.accessible child (h.references_done child hchild)
    · exact h.accessible c hc

theorem start (types : TypeTable) :
    Grounded types none ⟨Array.replicate types.size .fresh, []⟩ := by
  refine ⟨Array.size_replicate, ?_, nofun, trivial, ?_⟩
  · intro id hid
    have hlt := lt_size_of_mark hid nofun
    rw [Array.size_replicate] at hlt
    cases (mark_replicate hlt).symm.trans hid
  · intro id hid
    obtain ⟨n, hn⟩ := hid
    by_cases hlt : id < types.size
    · cases (mark_replicate hlt).symm.trans hn
    · -- A type outside the table counts as done, and refers to nothing.
      refine .intro id fun child hchild => ?_
      rw [TypeTable.Refers, TypeTable.references_of_size_le (Nat.le_of_not_lt hlt)] at hchild
      cases hchild

end Grounded

theorem step_grounded (hw : Grounded types none w) (h : step types w = .ok v) :
    Grounded types none v := by
  obtain ⟨marks, path⟩ := w
  rcases step_cases h with ⟨_, rfl⟩ | ⟨id, path, rfl, _, rfl⟩ |
    ⟨id, next, pending, path, rfl, hd, rfl⟩ | ⟨id, next, pending, path, rfl, hf, rfl⟩
  · exact hw
  · exact hw.leave _
  · exact hw.follow.skip hd
  · exact hw.follow.enter hf

theorem kept_grounded (types : TypeTable) : Kept types (Grounded types none) :=
  ⟨fun _ _ => step_grounded, fun _ _ hw => hw.root.enter⟩

/-- A walk over a whole table that comes to its end has left every type. -/
theorem isDone_of_survey (h : survey types = .ok marks) (id : TypeId) : IsDone marks id := by
  obtain ⟨hend, htouched⟩ := (kept_grounded types).of_roots (.start types) h
  cases hm : mark marks id with
  | fresh =>
    have hlt : id < types.size := hend.size ▸ lt_size_of_mark hm nofun
    exact absurd hm (htouched id (.inl (List.mem_range.mpr hlt)))
  | entered => exact absurd (hend.entered id hm) List.not_mem_nil
  | done n => exact ⟨n, hm⟩

theorem wellFounded_of_survey (h : survey types = .ok marks) : WellFounded types.Refers := by
  obtain ⟨hend, _⟩ := (kept_grounded types).of_roots (.start types) h
  exact ⟨fun id => hend.accessible id (isDone_of_survey h id)⟩

end Walk

end CallWire
