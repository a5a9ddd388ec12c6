import CallWire.Proofs.ValueBuilt

namespace CallWire

namespace Value

/-- What a value is directly made of, its blanks included. -/
def components : Value → List Value
  | vector t items => t :: items
  | array t _ items => t :: items
  | struct fields => fields
  | tuple fields => fields
  | enum variants _ payload => variants.flatten ++ payload
  | _ => []

/-- One value is another or, at any depth, something that the other is made of. -/
inductive Node (u : Value) : Value → Prop
  | self : Node u u
  | component {v w : Value} (hm : w ∈ v.components) (h : Node u w) : Node u v

/-- What is between a value and what it is directly made of. -/
def Coherent : Value → Prop
  | vector t items => t.blank = t ∧ ∀ v ∈ items, v.sameShape t = true
  | array t n items => t.blank = t ∧ items.length = n ∧ ∀ v ∈ items, v.sameShape t = true
  | enum variants tag payload =>
    (0 < variants.length ∧ variants.length ≤ maxVariants) ∧
      (∀ fields ∈ variants, ∀ f ∈ fields, f.blank = f) ∧
      ∃ fields, variants[tag.toNat]? = some fields ∧
        List.Forall₂ (fun v f => v.sameShape f = true) payload fields
  | _ => True

theorem Sound.component {v w : Value} (hv : Sound v) (hm : w ∈ v.components) : Sound w := by
  cases hv with
  | vector ht _ hi _ => exact List.forall_mem_cons.mpr ⟨ht, hi⟩ w hm
  | array ht _ _ hi _ => exact List.forall_mem_cons.mpr ⟨ht, hi⟩ w hm
  | struct hf => exact hf w hm
  | tuple hf => exact hf w hm
  | enum _ hvs _ _ hp _ =>
    rcases List.mem_append.mp hm with hm | hm
    · obtain ⟨fields, hf, hw⟩ := List.mem_flatten.mp hm
      exact hvs fields hf w hw
    · exact hp w hm
  | _ => simp [components] at hm

theorem Sound.node {u v : Value} (hv : Sound v) (hn : Node u v) : Sound u := by
  induction hn with
  | self => exact hv
  | component hm _ ih => exact ih (hv.component hm)

theorem Sound.coherent {v : Value} (hv : Sound v) : Coherent v := by
  cases hv with
  | vector _ hb _ hsh => exact ⟨hb, hsh⟩
  | array _ hb hl _ hsh => exact ⟨hb, hl, hsh⟩
  | enum hc _ hb hget _ hsh =>
    obtain ⟨hlt, _⟩ := List.getElem?_eq_some_iff.mp hget
    exact ⟨⟨Nat.zero_lt_of_lt hlt, hc⟩, hb, _, hget, sameShapes_iff.mp hsh⟩
  | _ => trivial

/-- An operation on a value in place, with what it is given. -/
inductive Change where
  | push (item : Value)
  | set (index : Nat) (item : Value)
  | select (tag : UInt8) (payload : List Value)
  | blank
  | refill (cursor : Cursor)

namespace Change

/-- What an operation makes of a value; one that is refused leaves the value as it was. -/
def apply : Change → Value → Value
  | push item, v => (v.push item).toOption.getD v
  | set index item, v => (v.set index item).toOption.getD v
  | select tag payload, v => (v.select tag payload).toOption.getD v
  | blank, v => v.blank
  | refill cursor, v => (v.refill cursor).value

/-- The values that an operation is given. -/
def arguments : Change → List Value
  | push item => [item]
  | set _ item => [item]
  | select _ payload => payload
  | _ => []

def run (changes : List Change) (v : Value) : Value :=
  changes.foldl (fun w change => change.apply w) v

end Change

theorem blank_of_push {v item w : Value} (h : v.push item = .ok w) : w.blank = v.blank := by
  cases v with
  | vector t items =>
    obtain ⟨_, _, h⟩ := bind_eq_ok.mp h
    cases h
    rfl
  | _ => cases h

theorem blankAll_of_setField {what : Counted} {fields others : List Value} {index : Nat}
    {field : Value} (hf : ∀ v ∈ fields, Sound v) (hs : Sound field)
    (h : setField what fields index field = .ok others) : blankAll others = blankAll fields := by
  obtain ⟨old, hold, hsh, rfl⟩ := setField_eq_ok h
  obtain ⟨hlt, rfl⟩ := List.getElem?_eq_some_iff.mp hold
  have hb := (hs.sameShape_iff (hf _ (List.getElem_mem hlt))).mp hsh
  have hlt' : index < (fields.map blank).length := by simpa using hlt
  rw [blankAll_eq_map, blankAll_eq_map, List.map_set, hb, ← List.getElem_map blank (h := hlt'),
    List.set_getElem_self]

theorem Sound.blank_of_set {v item w : Value} {index : Nat} (hv : Sound v) (hi : Sound item)
    (h : v.set index item = .ok w) : w.blank = v.blank := by
  cases hv with
  | array =>
    obtain ⟨_, _, h⟩ := bind_eq_ok.mp h
    split at h
    next =>
      cases h
      rw [Value.blank, Value.blank, List.length_set]
    next => cases h
  | struct hf =>
    obtain ⟨others, hr, rfl⟩ := map_eq_ok.mp h
    rw [Value.blank, Value.blank, blankAll_of_setField hf hi hr]
  | tuple hf =>
    obtain ⟨others, hr, rfl⟩ := map_eq_ok.mp h
    rw [Value.blank, Value.blank, blankAll_of_setField hf hi hr]
  | _ => cases h

/-- What holds of a value and of every answer holds of the value afterwards. -/
theorem getD_induction {p : Value → Prop} {r : Except Fault Value} {v : Value} (hv : p v)
    (h : ∀ w, r = .ok w → p w) : p (r.toOption.getD v) := by
  cases r with
  | ok w => exact h w rfl
  | error f => exact hv

theorem Built.apply {v : Value} (hv : Built v) {change : Change}
    (ha : ∀ a ∈ change.arguments, Built a) : Built (change.apply v) := by
  cases change with
  | push item => exact getD_induction hv fun w => hv.push (ha item (List.mem_singleton_self item))
  | set index item =>
    exact getD_induction hv fun w => hv.set (ha item (List.mem_singleton_self item))
  | select tag payload => exact getD_induction hv fun w => hv.select ha
  | blank => exact hv.blank
  | refill cursor => exact hv.refill cursor

theorem Built.blank_apply {v : Value} (hv : Built v) {change : Change}
    (ha : ∀ a ∈ change.arguments, Built a) : (change.apply v).blank = v.blank := by
  cases change with
  | push item => exact getD_induction (p := fun w => w.blank = v.blank) rfl fun w => blank_of_push
  | set index item =>
    have hi := (ha item (List.mem_singleton_self item)).sound
    exact getD_induction (p := fun w => w.blank = v.blank) rfl fun w => hv.sound.blank_of_set hi
  | select tag payload =>
    exact getD_induction (p := fun w => w.blank = v.blank) rfl fun w => blank_of_select
  | blank => exact blank_blank v
  | refill cursor => exact (hv.sound.refill_keeps cursor).2

theorem Built.run {v : Value} (hv : Built v) {changes : List Change}
    (ha : ∀ change ∈ changes, ∀ a ∈ change.arguments, Built a) :
    Built (Change.run changes v) ∧ (Change.run changes v).blank = v.blank := by
  induction changes generalizing v with
  | nil => exact ⟨hv, rfl⟩
  | cons change changes ih =>
    obtain ⟨hfirst, hrest⟩ := List.forall_mem_cons.mp ha
    obtain ⟨hbuilt, hblank⟩ := ih (hv.apply hfirst) hrest
    exact ⟨hbuilt, hblank.trans (hv.blank_apply hfirst)⟩

/-- Whatever operations are applied to a value, and whether they succeed or stop midway, all that
it is made of stays coherent and its blank value stays the same. -/
theorem Built.run_coherent {v : Value} (hv : Built v) {changes : List Change}
    (ha : ∀ change ∈ changes, ∀ a ∈ change.arguments, Built a) :
    (∀ u, Node u (Change.run changes v) → Coherent u) ∧
      (Change.run changes v).blank = v.blank := by
  obtain ⟨hbuilt, hblank⟩ := hv.run ha
  exact ⟨fun u hu => (hbuilt.sound.node hu).coherent, hblank⟩

theorem run_coherent_tuple :
    Change.run [.refill (.start [0, 7] .unbounded), .set 1 (.text "")]
        (.tuple [sampleVector, .bool true]) = .tuple [.vector sampleEnum [], .bool true] ∧
      (∀ u, Node u (.tuple [.vector sampleEnum [], .bool true]) → Coherent u) ∧
      Value.blank (.tuple [.vector sampleEnum [], .bool true]) =
        Value.blank (.tuple [sampleVector, .bool true]) := by
  have hbuilt : Built (.tuple [sampleVector, .bool true]) := by
    refine .tuple ?_
    simp only [List.mem_cons, List.not_mem_nil, or_false, forall_eq_or_imp, forall_eq]
    exact ⟨built_sampleVector, .bool true⟩
  have harguments : ∀ change ∈ [Change.refill (.start [0, 7] .unbounded), .set 1 (.text "")],
      ∀ a ∈ change.arguments, Built a := by
    simp only [List.mem_cons, List.not_mem_nil, or_false, forall_eq_or_imp, forall_eq,
      Change.arguments]
    exact ⟨nofun, .text ""⟩
  have hrun : Change.run [.refill (.start [0, 7] .unbounded), .set 1 (.text "")]
      (.tuple [sampleVector, .bool true]) = .tuple [.vector sampleEnum [], .bool true] := rfl
  have hkept := hbuilt.run_coherent harguments
  rw [hrun] at hkept
  exact ⟨hrun, hkept⟩

end Value

end CallWire
