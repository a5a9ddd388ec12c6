import CallWire.Proofs.WalkComplete

namespace CallWire

/-- The check of a whole table under way: the types from which a walk has still to be started, and
the walk that goes on. -/
structure Tour where
  waiting : List TypeId
  walk : Walk

namespace Tour

open Walk

variable {types : TypeTable} {t u : Tour}

/-- What one turn of a check leads to. -/
inductive Turn where
  | onward (next : Tour)
  | ended (answer : Except SchemaFault (Array Mark))

def start (types : TypeTable) : Tour :=
  ⟨List.range types.size, ⟨Array.replicate types.size .fresh, []⟩⟩

/-- Takes a step of the walk, or looks at the next type when there is nothing on the path. -/
def turn (types : TypeTable) (t : Tour) : Turn :=
  match t.walk.path with
  | _ :: _ =>
    match step types t.walk with
    | .ok w => .onward ⟨t.waiting, w⟩
    | .error f => .ended (.error f)
  | [] =>
    match t.waiting with
    | [] => .ended (.ok t.walk.marks)
    | id :: ids =>
      if mark t.walk.marks id = .fresh then .onward ⟨ids, enter types ⟨t.walk.marks, []⟩ id⟩
      else .onward ⟨ids, ⟨t.walk.marks, []⟩⟩

/-- The tours of a check from its start on, each after one turn of the one before. -/
def Course (types : TypeTable) (tours : List Tour) : Prop :=
  tours.head? = some (start types) ∧ tours.IsChain fun t u => turn types t = .onward u

/-- What is left of a check from a tour on. -/
def finish (types : TypeTable) (t : Tour) : Except SchemaFault (Array Mark) := do
  roots types t.waiting (← run types t.walk)

/-- The turns by what they do. -/
inductive Goes (types : TypeTable) : Tour → Tour → Prop
  | leave {ids : List TypeId} {marks : Array Mark} {id : TypeId} {path : List Frame}
      (h : count types marks id ≤ maxTypeNodes) :
      Goes types ⟨ids, ⟨marks, ⟨id, []⟩ :: path⟩⟩
        ⟨ids, ⟨marks.setIfInBounds id (.done (count types marks id)), path⟩⟩
  | follow {ids : List TypeId} {marks : Array Mark} {id next : TypeId} {pending : List TypeId}
      {path : List Frame} (h : IsDone marks next) :
      Goes types ⟨ids, ⟨marks, ⟨id, next :: pending⟩ :: path⟩⟩
        ⟨ids, ⟨marks, ⟨id, pending⟩ :: path⟩⟩
  | enter {ids : List TypeId} {marks : Array Mark} {id next : TypeId} {pending : List TypeId}
      {path : List Frame} (h : mark marks next = .fresh) :
      Goes types ⟨ids, ⟨marks, ⟨id, next :: pending⟩ :: path⟩⟩
        ⟨ids, Walk.enter types ⟨marks, ⟨id, pending⟩ :: path⟩ next⟩
  | root {ids : List TypeId} {marks : Array Mark} {id : TypeId} (h : mark marks id = .fresh) :
      Goes types ⟨id :: ids, ⟨marks, []⟩⟩ ⟨ids, Walk.enter types ⟨marks, []⟩ id⟩
  | pass {ids : List TypeId} {marks : Array Mark} {id : TypeId} (h : mark marks id ≠ .fresh) :
      Goes types ⟨id :: ids, ⟨marks, []⟩⟩ ⟨ids, ⟨marks, []⟩⟩

theorem goes_of_turn (h : turn types t = .onward u) : Goes types t u := by
  obtain ⟨ids, marks, path⟩ := t
  unfold turn at h
  split at h
  next f path hp =>
    cases hp
    split at h
    next w hw =>
      cases h
      rcases step_cases hw with ⟨hnil, _⟩ | ⟨id, path, hp, hn, rfl⟩ |
        ⟨id, next, pending, path, hp, hd, rfl⟩ | ⟨id, next, pending, path, hp, hf, rfl⟩
      · cases hnil
      · cases hp
        exact .leave hn
      · cases hp
        exact .follow hd
      · cases hp
        exact .enter hf
    next => cases h
  next hp =>
    cases hp
    split at h
    next => cases h
    next id ids hr =>
      cases hr
      split at h
      next hf =>
        cases h
        exact .root hf
      next hf =>
        cases h
        exact .pass hf

/-- The answer of a check is settled by its turns one after the other. -/
theorem finish_eq (types : TypeTable) (t : Tour) : finish types t =
    match turn types t with
    | .onward u => finish types u
    | .ended answer => answer := by
  obtain ⟨ids, marks, path⟩ := t
  cases path with
  | cons f path =>
    have hp : f :: path ≠ [] := List.cons_ne_nil f path
    cases h : step types ⟨marks, f :: path⟩ with
    | ok w => simp only [turn, h, finish, run_of_step hp h]
    | error e =>
      simp only [turn, h, finish, run_of_fault hp h]
      rfl
  | nil =>
    cases ids with
    | nil =>
      simp only [turn, finish, run_nil]
      rfl
    | cons id ids =>
      by_cases h : mark marks id = .fresh
      · simp only [turn, if_pos h, finish, run_nil]
        exact roots_fresh h
      · simp only [turn, if_neg h, finish, run_nil]
        exact roots_touched h

theorem finish_start (types : TypeTable) : finish types (start types) = survey types := by
  rw [finish, start, run_nil]
  rfl

end Tour

end CallWire
