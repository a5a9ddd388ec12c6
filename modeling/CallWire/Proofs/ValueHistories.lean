import CallWire.Proofs.ValueRuns

namespace CallWire

namespace Value

/-- What a caller can do to get values: a constructor, a change of a value in place, or a look at
what a value is directly made of. -/
inductive Operation where
  | bool (b : Bool)
  | text (s : String)
  | word (n : Word)
  | varint (n : Varint)
  | struct (fields : List Value)
  | tuple (fields : List Value)
  | newVector (element : Value)
  | vectorOf (element : Value) (items : List Value)
  | newArray (element : Value) (length : Nat)
  | arrayOf (element : Value) (length : Nat) (items : List Value)
  | newEnum (variants : List (List Value))
  | change (change : Change) (v : Value)
  | components (v : Value)

namespace Operation

/-- The values that an operation is given. -/
def arguments : Operation → List Value
  | struct fields => fields
  | tuple fields => fields
  | newVector t => [t]
  | vectorOf t items => t :: items
  | newArray t _ => [t]
  | arrayOf t _ items => t :: items
  | newEnum variants => variants.flatten
  | change c v => v :: c.arguments
  | components v => [v]
  | _ => []

/-- The values that come out, or why a constructor refuses. A change leaves a value behind whether
it was refused or not. -/
def answer : Operation → Except Fault (List Value)
  | bool b => .ok [.bool b]
  | text s => .ok [.text s]
  | word n => .ok [.word n]
  | varint n => .ok [.varint n]
  | struct fields => .ok [.struct fields]
  | tuple fields => .ok [.tuple fields]
  | newVector t => .ok [Value.newVector t]
  | vectorOf t items => ([·]) <$> Value.vectorOf t items
  | newArray t n => ([·]) <$> Value.newArray t n
  | arrayOf t n items => ([·]) <$> Value.arrayOf t n items
  | newEnum variants => ([·]) <$> Value.newEnum variants
  | change c v => .ok [c.apply v]
  | components v => .ok v.components

def given (op : Operation) : List Value := op.answer.toOption.getD []

/-- The operation as a relation between what it is given and one value that comes out. -/
def Gives : Operation → Value → Prop
  | bool b, w => w = .bool b
  | text s, w => w = .text s
  | word n, w => w = .word n
  | varint n, w => w = .varint n
  | struct fields, w => w = .struct fields
  | tuple fields, w => w = .tuple fields
  | newVector t, w => w = Value.newVector t
  | vectorOf t items, w => Value.vectorOf t items = .ok w
  | newArray t n, w => Value.newArray t n = .ok w
  | arrayOf t n items, w => Value.arrayOf t n items = .ok w
  | newEnum variants, w => Value.newEnum variants = .ok w
  | change c v, w => w = c.apply v
  | components v, w => w ∈ v.components

theorem mem_singleton_map {x : Except Fault Value} {w : Value} :
    w ∈ (([·]) <$> x).toOption.getD [] ↔ x = .ok w := by
  cases x with
  | error f => simp [Except.toOption]
  | ok v => simp [Except.toOption, eq_comm]

theorem mem_given {op : Operation} {w : Value} : w ∈ op.given ↔ op.Gives w := by
  cases op with
  | vectorOf | newArray | arrayOf | newEnum => exact mem_singleton_map
  | components v => exact Iff.rfl
  | _ => exact List.mem_singleton

end Operation

theorem Built.component {v w : Value} (hv : Built v) (hw : w ∈ v.components) : Built w := by
  cases v with
  | vector t items =>
    rcases List.mem_cons.mp hw with rfl | hw
    · exact hv.vectorElement
    · exact hv.part hw
  | array t n items =>
    rcases List.mem_cons.mp hw with rfl | hw
    · exact hv.arrayElement
    · exact hv.part hw
  | struct | tuple => exact hv.part hw
  | enum variants tag payload =>
    rcases List.mem_append.mp hw with hw | hw
    · obtain ⟨fields, hf, hw⟩ := List.mem_flatten.mp hw
      exact hv.variant hf hw
    · exact hv.payload hw
  | _ => simp [components] at hw

theorem Built.of_operation {op : Operation} {w : Value} (h : ∀ v ∈ op.arguments, Built v)
    (hw : op.Gives w) : Built w := by
  cases op with
  | bool b =>
    cases hw
    exact .bool b
  | text s =>
    cases hw
    exact .text s
  | word n =>
    cases hw
    exact .word n
  | varint n =>
    cases hw
    exact .varint n
  | struct fields =>
    cases hw
    exact .struct h
  | tuple fields =>
    cases hw
    exact .tuple h
  | newVector t =>
    cases hw
    exact .newVector (h t List.mem_cons_self)
  | vectorOf t items =>
    obtain ⟨ht, hi⟩ := List.forall_mem_cons.mp h
    exact .vectorOf ht hi hw
  | newArray t n => exact .newArray (h t List.mem_cons_self) hw
  | arrayOf t n items =>
    obtain ⟨ht, hi⟩ := List.forall_mem_cons.mp h
    exact .arrayOf ht hi hw
  | newEnum variants => exact .newEnum (List.forall_mem_flatten.mp h) hw
  | change c v =>
    obtain ⟨hv, hargs⟩ := List.forall_mem_cons.mp h
    cases hw
    exact hv.apply hargs
  | components v => exact (h v List.mem_cons_self).component hw

/-- What all the operations gave. -/
def obtained (ops : List Operation) : List Value := ops.flatMap Operation.given

/-- Operations one after the other, the latest first: each is given only values that those before
it gave. -/
inductive History : List Operation → Prop
  | nil : History []
  | cons {op : Operation} {ops : List Operation} (hops : History ops)
      (harguments : ∀ v ∈ op.arguments, v ∈ obtained ops) : History (op :: ops)

theorem mem_obtained {ops : List Operation} {w : Value} :
    w ∈ obtained ops ↔ ∃ op ∈ ops, op.Gives w := by
  simp only [obtained, List.mem_flatMap, Operation.mem_given]

theorem History.built {ops : List Operation} (h : History ops) : ∀ v ∈ obtained ops, Built v := by
  induction h with
  | nil => exact List.forall_mem_nil _
  | cons _ harguments ih =>
    refine List.forall_mem_append.mpr ⟨fun w hw => ?_, ih⟩
    exact .of_operation (fun v hv => ih v (harguments v hv)) (Operation.mem_given.mp hw)

theorem History.append {first second : List Operation} (hf : History first)
    (hs : History second) : History (second ++ first) := by
  induction hs with
  | nil => exact hf
  | cons _ harguments ih =>
    refine .cons ih fun v hv => ?_
    obtain ⟨op, hm, hw⟩ := mem_obtained.mp (harguments v hv)
    exact mem_obtained.mpr ⟨op, List.mem_append_left _ hm, hw⟩

/-- Some history gives the value. -/
def Obtainable (v : Value) : Prop := ∃ ops, History ops ∧ v ∈ obtained ops

theorem exists_history {vs : List Value} (h : ∀ v ∈ vs, Obtainable v) :
    ∃ ops, History ops ∧ ∀ v ∈ vs, v ∈ obtained ops := by
  induction vs with
  | nil => exact ⟨[], .nil, List.forall_mem_nil _⟩
  | cons v vs ih =>
    obtain ⟨⟨first, hfirst, hv⟩, hvs⟩ := List.forall_mem_cons.mp h
    obtain ⟨others, hothers, hgiven⟩ := ih hvs
    refine ⟨others ++ first, hfirst.append hothers, ?_⟩
    rw [obtained, List.flatMap_append]
    exact List.forall_mem_cons.mpr ⟨List.mem_append_right _ hv,
      fun w hw => List.mem_append_left _ (hgiven w hw)⟩

theorem Obtainable.operation {w : Value} (op : Operation)
    (h : ∀ v ∈ op.arguments, Obtainable v) (hw : op.Gives w) : Obtainable w := by
  obtain ⟨ops, hops, harguments⟩ := exists_history h
  exact ⟨op :: ops, .cons hops harguments, mem_obtained.mpr ⟨op, List.mem_cons_self, hw⟩⟩

theorem mem_components_of_mem_parts {v w : Value} (hw : w ∈ v.parts) : w ∈ v.components := by
  cases v with
  | vector | array => exact List.mem_cons_of_mem _ hw
  | struct | tuple => exact hw
  | _ => cases hw

/-- Histories give the values that a caller can get and no others. -/
theorem obtainable_iff_built {v : Value} : Obtainable v ↔ Built v := by
  constructor
  · rintro ⟨ops, hops, hv⟩
    exact hops.built v hv
  · intro h
    induction h with
    | bool b => exact .operation (.bool b) nofun rfl
    | text s => exact .operation (.text s) nofun rfl
    | word n => exact .operation (.word n) nofun rfl
    | varint n => exact .operation (.varint n) nofun rfl
    | struct _ ih => exact .operation (.struct _) ih rfl
    | tuple _ ih => exact .operation (.tuple _) ih rfl
    | newVector _ ih => exact .operation (.newVector _) (List.forall_mem_singleton.mpr ih) rfl
    | vectorOf _ _ h iht ihi =>
      exact .operation (.vectorOf _ _) (List.forall_mem_cons.mpr ⟨iht, ihi⟩) h
    | newArray _ h ih => exact .operation (.newArray _ _) (List.forall_mem_singleton.mpr ih) h
    | arrayOf _ _ h iht ihi =>
      exact .operation (.arrayOf _ _ _) (List.forall_mem_cons.mpr ⟨iht, ihi⟩) h
    | newEnum _ h ih => exact .operation (.newEnum _) (List.forall_mem_flatten.mpr ih) h
    | @push v item w _ _ h ihv ihi =>
      refine .operation (.change (.push item) v) (List.forall_mem_cons.mpr ⟨ihv, ?_⟩) ?_
      · exact List.forall_mem_singleton.mpr ihi
      · simp [Operation.Gives, Change.apply, h, Except.toOption]
    | @set v item w index _ _ h ihv ihi =>
      refine .operation (.change (.set index item) v) (List.forall_mem_cons.mpr ⟨ihv, ?_⟩) ?_
      · exact List.forall_mem_singleton.mpr ihi
      · simp [Operation.Gives, Change.apply, h, Except.toOption]
    | @select v w tag payload _ _ h ihv ihp =>
      refine .operation (.change (.select tag payload) v) (List.forall_mem_cons.mpr ⟨ihv, ihp⟩) ?_
      simp [Operation.Gives, Change.apply, h, Except.toOption]
    | blank _ ih => exact .operation (.change .blank _) (List.forall_mem_singleton.mpr ih) rfl
    | refill _ c ih =>
      exact .operation (.change (.refill c) _) (List.forall_mem_singleton.mpr ih) rfl
    | part _ hw ih =>
      exact .operation (.components _) (List.forall_mem_singleton.mpr ih)
        (mem_components_of_mem_parts hw)
    | vectorElement _ ih | arrayElement _ ih =>
      exact .operation (.components _) (List.forall_mem_singleton.mpr ih) List.mem_cons_self
    | variant _ hf hm ih =>
      refine .operation (.components _) (List.forall_mem_singleton.mpr ih) ?_
      exact List.mem_append_left _ (List.mem_flatten.mpr ⟨_, hf, hm⟩)
    | payload _ hm ih =>
      refine .operation (.components _) (List.forall_mem_singleton.mpr ih) ?_
      exact List.mem_append_right _ hm

end Value

end CallWire
