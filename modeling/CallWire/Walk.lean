import CallWire.TypeTable

namespace CallWire

/-- How far the walk over a type table has come with one type. -/
inductive Mark where
  | fresh
  | entered
  | done (nodes : Nat)
  deriving DecidableEq, Repr

namespace Mark

def nodes : Mark → Nat
  | done n => n
  | _ => 0

end Mark

/-- A type on the path of the walk, with the references it has still to follow. -/
structure Frame where
  id : TypeId
  pending : List TypeId
  deriving Repr

/-- A depth-first walk under way. The path starts with the type entered last. -/
structure Walk where
  marks : Array Mark
  path : List Frame

namespace Walk

def mark (marks : Array Mark) (id : TypeId) : Mark := marks.getD id (.done 0)

def nodes (marks : Array Mark) (id : TypeId) : Nat := (mark marks id).nodes

def enter (types : TypeTable) (w : Walk) (id : TypeId) : Walk :=
  ⟨w.marks.setIfInBounds id .entered, ⟨id, types.references id⟩ :: w.path⟩

def count (types : TypeTable) (marks : Array Mark) (id : TypeId) : Nat :=
  match types[id]? with
  | some decl => decl.layout.nodes (nodes marks)
  | none => 0

/-- Follows one reference of the type entered last, or leaves that type when it has none left. A
reference to a type on the path closes a cycle. -/
def step (types : TypeTable) (w : Walk) : Except SchemaFault Walk :=
  match w.path with
  | [] => .ok w
  | ⟨id, []⟩ :: path =>
    let n := count types w.marks id
    if n ≤ maxTypeNodes then .ok ⟨w.marks.setIfInBounds id (.done n), path⟩
    else .error (.tooManyNodes id n)
  | ⟨id, next :: pending⟩ :: path =>
    match mark w.marks next with
    | .done _ => .ok ⟨w.marks, ⟨id, pending⟩ :: path⟩
    | .entered => .error (.cycle next)
    | .fresh => .ok (enter types ⟨w.marks, ⟨id, pending⟩ :: path⟩ next)

def isFresh : Mark → Bool
  | .fresh => true
  | _ => false

def untouched (marks : Array Mark) : Nat := marks.countP isFresh

/-- Steps that need no further type to be entered. -/
def work : List Frame → Nat
  | [] => 0
  | f :: path => f.pending.length + 1 + work path

theorem untouched_setIfInBounds_le (marks : Array Mark) (id : TypeId) {m : Mark}
    (h : isFresh m = false) : untouched (marks.setIfInBounds id m) ≤ untouched marks := by
  unfold untouched
  by_cases hi : id < marks.size
  · rw [Array.setIfInBounds, dif_pos hi, Array.countP_set]
    simp [h]
  · exact Nat.le_of_eq (congrArg (Array.countP isFresh) (dif_neg hi))

theorem untouched_enter_lt {marks : Array Mark} {id : TypeId} (h : mark marks id = .fresh) :
    untouched (marks.setIfInBounds id .entered) < untouched marks := by
  have hi : id < marks.size := by
    apply Decidable.byContradiction
    intro hi
    simp [mark, Array.getD, hi] at h
  have hf : isFresh marks[id] = true := by
    have : marks[id] = .fresh := by simpa [mark, Array.getD, hi] using h
    simp [this, isFresh]
  have hpos : 0 < marks.countP isFresh :=
    Array.countP_pos_iff.mpr ⟨marks[id], Array.getElem_mem hi, hf⟩
  unfold untouched
  rw [Array.setIfInBounds, dif_pos hi, Array.countP_set]
  have he : isFresh .entered = false := rfl
  simp only [hf, he, ↓reduceIte, Bool.false_eq_true, Nat.add_zero]
  omega

theorem step_lt {types : TypeTable} {w v : Walk} (hne : w.path ≠ [])
    (h : step types w = .ok v) :
    untouched v.marks < untouched w.marks ∨
      untouched v.marks ≤ untouched w.marks ∧ work v.path < work w.path := by
  unfold step at h
  split at h
  next he => exact absurd he hne
  next id path he =>
    simp only at h
    split at h
    next =>
      cases Except.ok.inj h
      exact .inr ⟨untouched_setIfInBounds_le _ _ rfl, by simp [work, he]⟩
    next => simp at h
  next id next pending path he =>
    split at h
    next =>
      cases Except.ok.inj h
      exact .inr ⟨Nat.le_refl _, by simp [work, he]⟩
    next => simp at h
    next hm =>
      cases Except.ok.inj h
      exact .inl (untouched_enter_lt hm)

def run (types : TypeTable) (w : Walk) : Except SchemaFault (Array Mark) :=
  if _hne : w.path = [] then .ok w.marks
  else
    match _h : step types w with
    | .ok v => run types v
    | .error f => .error f
termination_by (untouched w.marks, work w.path)
decreasing_by
  rcases step_lt _hne _h with hu | ⟨hu, hw⟩
  · exact Prod.Lex.left _ _ hu
  · rcases Nat.lt_or_eq_of_le hu with hu | hu
    · exact Prod.Lex.left _ _ hu
    · rw [hu]
      exact Prod.Lex.right _ hw

theorem run_nil (types : TypeTable) (marks : Array Mark) : run types ⟨marks, []⟩ = .ok marks := by
  rw [run, dif_pos rfl]

theorem run_of_step {types : TypeTable} {w v : Walk} (hp : w.path ≠ [])
    (h : step types w = .ok v) : run types w = run types v := by
  rw [run, dif_neg hp]
  split
  next x hx =>
    cases h.symm.trans hx
    rfl
  next f hf => cases h.symm.trans hf

theorem run_of_fault {types : TypeTable} {w : Walk} {f : SchemaFault} (hp : w.path ≠ [])
    (h : step types w = .error f) : run types w = .error f := by
  rw [run, dif_neg hp]
  split
  next x hx => cases h.symm.trans hx
  next g hg =>
    cases h.symm.trans hg
    rfl

def roots (types : TypeTable) : List TypeId → Array Mark → Except SchemaFault (Array Mark)
  | [], marks => .ok marks
  | id :: ids, marks =>
    match mark marks id with
    | .fresh => do roots types ids (← run types (enter types ⟨marks, []⟩ id))
    | _ => roots types ids marks

theorem roots_fresh {types : TypeTable} {id : TypeId} {ids : List TypeId} {marks : Array Mark}
    (h : mark marks id = .fresh) : roots types (id :: ids) marks =
      run types (enter types ⟨marks, []⟩ id) >>= roots types ids := by
  rw [roots, h]

theorem roots_touched {types : TypeTable} {id : TypeId} {ids : List TypeId} {marks : Array Mark}
    (h : mark marks id ≠ .fresh) : roots types (id :: ids) marks = roots types ids marks := by
  rw [roots]
  split
  next hf => exact absurd hf h
  next => rfl

/-- Walks over the whole table and counts the nodes of each type. -/
def survey (types : TypeTable) : Except SchemaFault (Array Mark) :=
  roots types (List.range types.size) (Array.replicate types.size .fresh)

end Walk

end CallWire
