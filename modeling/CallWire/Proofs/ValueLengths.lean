import CallWire.Proofs.ValueHistories

namespace CallWire

namespace Value

/-- The lengths of all arrays that a value is made of, at any depth, have a property. -/
def Lengths (p : Nat → Prop) (v : Value) : Prop :=
  ∀ t n items, Node (.array t n items) v → p n

section Lengths

variable {p : Nat → Prop} {v t : Value} {n : Nat} {items fields payload : List Value}
  {variants : List (List Value)} {tag : UInt8}

theorem Lengths.component {w : Value} (h : v.Lengths p) (hw : w ∈ v.components) : w.Lengths p :=
  fun t n items hn => h t n items (.component hw hn)

theorem lengths_array : (array t n items).Lengths p ↔
    p n ∧ t.Lengths p ∧ ∀ i ∈ items, i.Lengths p := by
  constructor
  · intro h
    exact ⟨h t n items .self, List.forall_mem_cons.mp fun w hw => h.component hw⟩
  · rintro ⟨hn, hparts⟩ u m others hnode
    cases hnode with
    | self => exact hn
    | component hw hnode => exact List.forall_mem_cons.mpr hparts _ hw u m others hnode

theorem lengths_iff (hv : ∀ t n items, v ≠ array t n items) :
    v.Lengths p ↔ ∀ w ∈ v.components, w.Lengths p := by
  refine ⟨fun h w hw => h.component hw, fun h t n items hnode => ?_⟩
  cases hnode with
  | self => exact absurd rfl (hv t n items)
  | component hw hnode => exact h _ hw t n items hnode

theorem lengths_leaf (hv : ∀ t n items, v ≠ array t n items) (hleaf : v.components = []) :
    v.Lengths p := by
  rw [lengths_iff hv, hleaf]
  exact List.forall_mem_nil _

theorem lengths_vector : (vector t items).Lengths p ↔
    t.Lengths p ∧ ∀ i ∈ items, i.Lengths p :=
  (lengths_iff (v := vector t items) nofun).trans List.forall_mem_cons

theorem lengths_struct : (struct fields).Lengths p ↔ ∀ f ∈ fields, f.Lengths p :=
  lengths_iff nofun

theorem lengths_tuple : (tuple fields).Lengths p ↔ ∀ f ∈ fields, f.Lengths p :=
  lengths_iff nofun

theorem lengths_enum : (enum variants tag payload).Lengths p ↔
    (∀ fields ∈ variants, ∀ f ∈ fields, f.Lengths p) ∧ ∀ f ∈ payload, f.Lengths p := by
  rw [lengths_iff (v := enum variants tag payload) nofun, components, List.forall_mem_append,
    List.forall_mem_flatten]

theorem lengths_headD (h : ∀ fields ∈ variants, ∀ f ∈ fields, f.Lengths p) :
    ∀ f ∈ variants.headD [], f.Lengths p := by
  cases variants with
  | nil => exact List.forall_mem_nil _
  | cons first others => exact h first List.mem_cons_self

/-- The blank of a sound value has the same arrays, and its items and payloads add none. -/
theorem Sound.lengths_blank (hv : Sound v) : v.blank.Lengths p ↔ v.Lengths p := by
  induction hv with
  | bool | text | word | varint =>
    exact iff_of_true (lengths_leaf nofun rfl) (lengths_leaf nofun rfl)
  | vector ht hb hi hsh _ ih =>
    rw [Value.blank, lengths_vector, lengths_vector]
    refine and_congr_right fun helement => iff_of_true (List.forall_mem_nil _) fun i hm => ?_
    rw [← ih i hm, ((hi i hm).sameShape_iff ht).mp (hsh i hm), hb]
    exact helement
  | array ht hb hl hi hsh _ ih =>
    rw [Value.blank, lengths_array, lengths_array, hb]
    refine and_congr_right fun _ => and_congr_right fun helement => iff_of_true ?_ fun i hm => ?_
    · intro i hm
      rw [List.eq_of_mem_replicate hm]
      exact helement
    · rw [← ih i hm, ((hi i hm).sameShape_iff ht).mp (hsh i hm), hb]
      exact helement
  | struct _ ih =>
    rw [Value.blank, lengths_struct, lengths_struct, blankAll_eq_map, List.forall_mem_map]
    exact forall₂_congr ih
  | tuple _ ih =>
    rw [Value.blank, lengths_tuple, lengths_tuple, blankAll_eq_map, List.forall_mem_map]
    exact forall₂_congr ih
  | @enum variants tag fields payload _ hvs hb hget hp hsh _ ih =>
    have hmem : fields ∈ variants := List.mem_of_getElem? hget
    rw [Value.blank, lengths_enum, lengths_enum]
    refine and_congr_right fun hvariants => iff_of_true (lengths_headD hvariants) fun w hw => ?_
    have hblanks := (sameShapes_iff_of_sound hp (hvs fields hmem)).mp hsh
    rw [blankAll_eq_self (hb fields hmem), blankAll_eq_map] at hblanks
    rw [← ih w hw]
    exact hvariants fields hmem _ (hblanks ▸ List.mem_map_of_mem hw)

theorem Built.lengths_apply {change : Change} (hv : Built v)
    (ha : ∀ a ∈ change.arguments, Built a) (h : v.Lengths p) : (change.apply v).Lengths p := by
  rw [← (hv.apply ha).sound.lengths_blank, hv.blank_apply ha, hv.sound.lengths_blank]
  exact h

end Lengths

namespace Operation

/-- The length that an operation declares a new array with. -/
def declares : Operation → Option Nat
  | newArray _ n => some n
  | arrayOf _ n _ => some n
  | _ => none

theorem gives_array {op : Operation} {n : Nat} {w : Value} (hn : op.declares = some n)
    (hw : op.Gives w) : ∃ t items, w = .array t n items := by
  cases op with
  | newArray t n =>
    cases hn
    obtain ⟨_, rfl⟩ := newArray_eq_ok.mp hw
    exact ⟨_, _, rfl⟩
  | arrayOf t n items =>
    cases hn
    obtain ⟨_, _, rfl⟩ := arrayOf_eq_ok.mp hw
    exact ⟨_, _, rfl⟩
  | _ => cases hn

theorem refused_or_gives {op : Operation} {n : Nat} (hn : op.declares = some n) :
    (∃ f, op.answer = .error f) ∨ ∃ w, op.Gives w := by
  cases op with
  | newArray t n =>
    cases h : Value.newArray t n with
    | error f => exact .inl ⟨f, map_eq_error.mpr h⟩
    | ok w => exact .inr ⟨w, h⟩
  | arrayOf t n items =>
    cases h : Value.arrayOf t n items with
    | error f => exact .inl ⟨f, map_eq_error.mpr h⟩
    | ok w => exact .inr ⟨w, h⟩
  | _ => cases hn

end Operation

theorem lengths_of_operation {p : Nat → Prop} {op : Operation} {w : Value}
    (hb : ∀ v ∈ op.arguments, Built v) (h : ∀ v ∈ op.arguments, v.Lengths p)
    (hn : ∀ n, op.declares = some n → p n) (hw : op.Gives w) : w.Lengths p := by
  have hblank : ∀ v ∈ op.arguments, v.blank.Lengths p := fun v hv =>
    (hb v hv).sound.lengths_blank.mpr (h v hv)
  cases op with
  | bool | text | word | varint =>
    cases hw
    exact lengths_leaf nofun rfl
  | struct fields =>
    cases hw
    exact lengths_struct.mpr h
  | tuple fields =>
    cases hw
    exact lengths_tuple.mpr h
  | newVector t =>
    cases hw
    exact lengths_vector.mpr ⟨hblank t List.mem_cons_self, List.forall_mem_nil _⟩
  | vectorOf t items =>
    obtain ⟨_, rfl⟩ := vectorOf_eq_ok.mp hw
    exact lengths_vector.mpr ⟨hblank t List.mem_cons_self, (List.forall_mem_cons.mp h).2⟩
  | newArray t n =>
    obtain ⟨_, rfl⟩ := newArray_eq_ok.mp hw
    have helement := hblank t List.mem_cons_self
    refine lengths_array.mpr ⟨hn n rfl, helement, fun i hi => ?_⟩
    rw [List.eq_of_mem_replicate hi, blank_blank]
    exact helement
  | arrayOf t n items =>
    obtain ⟨_, _, rfl⟩ := arrayOf_eq_ok.mp hw
    exact lengths_array.mpr ⟨hn n rfl, hblank t List.mem_cons_self, (List.forall_mem_cons.mp h).2⟩
  | newEnum variants =>
    obtain ⟨_, rfl⟩ := newEnum_eq_ok.mp hw
    have hvariants : ∀ fields ∈ variants.map blankAll, ∀ f ∈ fields, f.Lengths p := by
      rw [List.forall_mem_map]
      intro fields hf
      rw [blankAll_eq_map, List.forall_mem_map]
      exact List.forall_mem_flatten.mp hblank fields hf
    exact lengths_enum.mpr ⟨hvariants, lengths_headD hvariants⟩
  | change c v =>
    obtain ⟨hv, hargs⟩ := List.forall_mem_cons.mp hb
    cases hw
    exact hv.lengths_apply hargs (h v List.mem_cons_self)
  | components v => exact (h v List.mem_cons_self).component hw

theorem History.lengths {p : Nat → Prop} {ops : List Operation} (h : History ops)
    (hp : ∀ op ∈ ops, ∀ n w, op.declares = some n → op.Gives w → p n) :
    ∀ v ∈ obtained ops, v.Lengths p := by
  induction h with
  | nil => exact List.forall_mem_nil _
  | @cons op ops hops harguments ih =>
    obtain ⟨hop, hrest⟩ := List.forall_mem_cons.mp hp
    have hlengths := ih hrest
    refine List.forall_mem_append.mpr ⟨fun w hw => ?_, hlengths⟩
    have hgives := Operation.mem_given.mp hw
    refine lengths_of_operation (fun v hv => hops.built v (harguments v hv))
      (fun v hv => hlengths v (harguments v hv)) (fun n hn => hop n w hn hgives) hgives

/-- The arrays that a history gives, at any depth, have the lengths that its operations declared,
those that were refused apart. -/
theorem History.lengths_iff {p : Nat → Prop} {ops : List Operation} (h : History ops) :
    (∀ v ∈ obtained ops, v.Lengths p) ↔
      ∀ op ∈ ops, ∀ n w, op.declares = some n → op.Gives w → p n := by
  refine ⟨fun hall op hm n w hn hw => ?_, h.lengths⟩
  obtain ⟨t, items, rfl⟩ := Operation.gives_array hn hw
  exact hall _ (mem_obtained.mpr ⟨op, hm, hw⟩) t n items .self

/-- What a history gives keeps the cap on lengths of arrays, and every longer length is refused,
just when no array made of given items was longer: only the constructor that fills an array with
blanks looks at the cap. -/
theorem History.lengths_capped_iff {ops : List Operation} (h : History ops) :
    ((∀ v ∈ obtained ops, v.Lengths (· ≤ maxArrayLength)) ∧
        ∀ op ∈ ops, ∀ n, op.declares = some n → maxArrayLength < n →
          ∃ f, op.answer = .error f) ↔
      ∀ t n items w, .arrayOf t n items ∈ ops → arrayOf t n items = .ok w →
        n ≤ maxArrayLength := by
  rw [h.lengths_iff]
  constructor
  · rintro ⟨hcap, _⟩ t n items w hm hw
    exact hcap _ hm n w rfl hw
  · intro hitems
    have hcap : ∀ op ∈ ops, ∀ n w, op.declares = some n → op.Gives w → n ≤ maxArrayLength := by
      intro op hm n w hn hw
      cases op with
      | newArray t n =>
        cases hn
        exact (newArray_eq_ok.mp hw).1
      | arrayOf t n items =>
        cases hn
        exact hitems t n items w hm hw
      | _ => cases hn
    refine ⟨hcap, fun op hm n hn hlong => ?_⟩
    rcases Operation.refused_or_gives hn with hrefused | ⟨w, hw⟩
    · exact hrefused
    · exact absurd (hcap op hm n w hn hw) (Nat.not_le.mpr hlong)

def cappedPair : Value := .array (.bool false) 2 [.bool true, .bool false]

def cappedOps : List Operation :=
  [.newArray (.bool true) (maxArrayLength + 1), .newVector cappedPair,
    .arrayOf (.bool false) 2 [.bool true, .bool false], .bool true, .bool false]

theorem lengths_capped_pair : History cappedOps ∧
    (∀ v ∈ obtained cappedOps, v.Lengths (· ≤ maxArrayLength)) ∧
      ∀ op ∈ cappedOps, ∀ n, op.declares = some n → maxArrayLength < n →
        ∃ f, op.answer = .error f := by
  have hpair : arrayOf (.bool false) 2 [.bool true, .bool false] = .ok cappedPair := rfl
  have hbools : History [.bool true, .bool false] := .cons (.cons .nil nofun) nofun
  have harray : History [.arrayOf (.bool false) 2 [.bool true, .bool false], .bool true,
      .bool false] := by
    refine .cons hbools fun v hv => ?_
    simp only [Operation.arguments, List.mem_cons, List.not_mem_nil, or_false] at hv
    rcases hv with rfl | rfl | rfl
    · exact mem_obtained.mpr ⟨.bool false, by simp, rfl⟩
    · exact mem_obtained.mpr ⟨.bool true, by simp, rfl⟩
    · exact mem_obtained.mpr ⟨.bool false, by simp, rfl⟩
  have hsample : History cappedOps := by
    refine .cons (.cons harray ?_) ?_
    · exact List.forall_mem_singleton.mpr (mem_obtained.mpr ⟨_, List.mem_cons_self, hpair⟩)
    · exact List.forall_mem_singleton.mpr (mem_obtained.mpr ⟨.bool true, by simp, rfl⟩)
  refine ⟨hsample, hsample.lengths_capped_iff.mpr fun t n items w hm _ => ?_⟩
  simp only [cappedOps, List.mem_cons, reduceCtorEq, Operation.arrayOf.injEq, List.not_mem_nil,
    false_or, or_false] at hm
  rw [hm.2.1]
  decide

def zeroByte : Value := .word (Word.zero .w8 false)

def overlong : Value :=
  .array zeroByte (maxArrayLength + 1) (List.replicate (maxArrayLength + 1) zeroByte)

def overlongOps : List Operation :=
  [.arrayOf zeroByte (maxArrayLength + 1) (List.replicate (maxArrayLength + 1) zeroByte),
    .word (Word.zero .w8 false)]

/-- An array that is longer than the cap and is made of given items. -/
theorem overlong_obtained : History overlongOps ∧
    arrayOf zeroByte (maxArrayLength + 1) (List.replicate (maxArrayLength + 1) zeroByte) =
      .ok overlong ∧
    overlong ∈ obtained overlongOps ∧ ¬ overlong.Lengths (· ≤ maxArrayLength) := by
  have hmade : arrayOf zeroByte (maxArrayLength + 1)
      (List.replicate (maxArrayLength + 1) zeroByte) = .ok overlong := by
    refine arrayOf_eq_ok.mpr ⟨List.length_replicate, fun i hi => ?_, rfl⟩
    rw [List.eq_of_mem_replicate hi]
    rfl
  have hzero : zeroByte ∈ obtained [.word (Word.zero .w8 false)] := List.mem_cons_self
  have hhistory : History overlongOps := by
    refine .cons (.cons .nil nofun) (List.forall_mem_cons.mpr ⟨hzero, fun v hv => ?_⟩)
    rw [List.eq_of_mem_replicate hv]
    exact hzero
  refine ⟨hhistory, hmade, mem_obtained.mpr ⟨_, List.mem_cons_self, hmade⟩, fun hcap => ?_⟩
  exact absurd (lengths_array.mp hcap).1 (Nat.not_succ_le_self maxArrayLength)

end Value

end CallWire
