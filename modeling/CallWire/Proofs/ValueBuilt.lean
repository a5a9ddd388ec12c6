import CallWire.ValueUpdate
import CallWire.Proofs.ValueRefill

namespace CallWire

namespace Value

/-- The values that a caller can get: plain ones, and what the operations make of those already
there, parts and blanks of a value and the outcome of a failed decoding included. -/
inductive Built : Value → Prop
  | bool (b : Bool) : Built (.bool b)
  | text (s : String) : Built (.text s)
  | word (n : Word) : Built (.word n)
  | varint (n : Varint) : Built (.varint n)
  | struct {fields : List Value} (hf : ∀ v ∈ fields, Built v) : Built (.struct fields)
  | tuple {fields : List Value} (hf : ∀ v ∈ fields, Built v) : Built (.tuple fields)
  | newVector {t : Value} (ht : Built t) : Built (newVector t)
  | vectorOf {t v : Value} {items : List Value} (ht : Built t) (hi : ∀ i ∈ items, Built i)
      (h : vectorOf t items = .ok v) : Built v
  | newArray {t v : Value} {n : Nat} (ht : Built t) (h : newArray t n = .ok v) : Built v
  | arrayOf {t v : Value} {n : Nat} {items : List Value} (ht : Built t)
      (hi : ∀ i ∈ items, Built i) (h : arrayOf t n items = .ok v) : Built v
  | newEnum {variants : List (List Value)} {v : Value}
      (hv : ∀ fields ∈ variants, ∀ f ∈ fields, Built f) (h : newEnum variants = .ok v) : Built v
  | push {v item w : Value} (hv : Built v) (hi : Built item) (h : v.push item = .ok w) : Built w
  | set {v item w : Value} {index : Nat} (hv : Built v) (hi : Built item)
      (h : v.set index item = .ok w) : Built w
  | select {v w : Value} {tag : UInt8} {payload : List Value} (hv : Built v)
      (hp : ∀ p ∈ payload, Built p) (h : v.select tag payload = .ok w) : Built w
  | blank {v : Value} (hv : Built v) : Built v.blank
  | refill {v : Value} (hv : Built v) (c : Cursor) : Built (v.refill c).value
  | part {v w : Value} (hv : Built v) (hw : w ∈ v.parts) : Built w
  | vectorElement {t : Value} {items : List Value} (hv : Built (.vector t items)) : Built t
  | arrayElement {t : Value} {n : Nat} {items : List Value} (hv : Built (.array t n items)) :
      Built t
  | variant {variants : List (List Value)} {tag : UInt8} {payload fields : List Value} {f : Value}
      (hv : Built (.enum variants tag payload)) (hf : fields ∈ variants) (hm : f ∈ fields) :
      Built f
  | payload {variants : List (List Value)} {tag : UInt8} {payload : List Value} {f : Value}
      (hv : Built (.enum variants tag payload)) (hm : f ∈ payload) : Built f

theorem requireShape_eq_ok {v expected : Value} {u : Unit} :
    v.requireShape expected = .ok u ↔ v.sameShape expected = true := by
  unfold requireShape
  split
  next h => simp [h]
  next h => simp [h]

theorem requireEach_eq_ok {t : Value} {items : List Value} {u : Unit} :
    requireEach t items = .ok u ↔ ∀ v ∈ items, v.sameShape t = true := by
  induction items with
  | nil => simp [requireEach]
  | cons v vs ih =>
    rw [requireEach, bind_eq_ok, List.forall_mem_cons, ← ih]
    constructor
    · intro h
      obtain ⟨_, hv, hvs⟩ := h
      exact ⟨requireShape_eq_ok.mp hv, hvs⟩
    · intro h
      exact ⟨(), requireShape_eq_ok.mpr h.1, h.2⟩

theorem requireShapes_eq_ok {vs es : List Value} {u : Unit} (hl : vs.length = es.length) :
    requireShapes vs es = .ok u ↔ sameShapes vs es = true := by
  induction vs generalizing es with
  | nil => cases es <;> simp_all [requireShapes, sameShapes]
  | cons v vs ih =>
    cases es with
    | nil => simp at hl
    | cons e es =>
      rw [requireShapes, bind_eq_ok, sameShapes, Bool.and_eq_true, ← ih (Nat.succ.inj hl)]
      constructor
      · intro h
        obtain ⟨_, hv, hvs⟩ := h
        exact ⟨requireShape_eq_ok.mp hv, hvs⟩
      · intro h
        exact ⟨(), requireShape_eq_ok.mpr h.1, h.2⟩

theorem Sound.newVector {t : Value} (ht : Sound t) : Sound (newVector t) :=
  .vector ht.blank (blank_blank t) (by simp) (by simp)

theorem vectorOf_eq_ok {t v : Value} {items : List Value} : vectorOf t items = .ok v ↔
    (∀ i ∈ items, i.sameShape t.blank = true) ∧ vector t.blank items = v := by
  rw [Value.vectorOf, bind_eq_ok]
  constructor
  · intro h
    obtain ⟨_, hr, hpure⟩ := h
    exact ⟨requireEach_eq_ok.mp hr, pure_eq_ok.mp hpure⟩
  · intro h
    exact ⟨(), requireEach_eq_ok.mpr h.1, pure_eq_ok.mpr h.2⟩

theorem newArray_eq_ok {t v : Value} {n : Nat} : newArray t n = .ok v ↔
    n ≤ maxArrayLength ∧ array t.blank n (List.replicate n t.blank.blank) = v := by
  unfold Value.newArray
  split
  next h => simp [h]
  next h => simp [h]

theorem arrayOf_eq_ok {t v : Value} {n : Nat} {items : List Value} : arrayOf t n items = .ok v ↔
    items.length = n ∧ (∀ i ∈ items, i.sameShape t.blank = true) ∧
      array t.blank n items = v := by
  rw [Value.arrayOf, guard_eq_ok, not_not, bind_eq_ok]
  constructor
  · intro h
    obtain ⟨hn, _, hr, hpure⟩ := h
    exact ⟨hn, requireEach_eq_ok.mp hr, pure_eq_ok.mp hpure⟩
  · intro h
    obtain ⟨hn, hr, hpure⟩ := h
    exact ⟨hn, (), requireEach_eq_ok.mpr hr, pure_eq_ok.mpr hpure⟩

theorem newEnum_eq_ok {variants : List (List Value)} {v : Value} : newEnum variants = .ok v ↔
    (0 < variants.length ∧ variants.length ≤ maxVariants) ∧
      enum (variants.map blankAll) 0 ((variants.map blankAll).headD []) = v := by
  unfold Value.newEnum
  split
  next h => simp [h]
  next h => simp [h]

theorem Sound.vectorOf {t v : Value} {items : List Value} (ht : Sound t)
    (hi : ∀ i ∈ items, Sound i) (h : vectorOf t items = .ok v) : Sound v := by
  obtain ⟨hs, rfl⟩ := vectorOf_eq_ok.mp h
  exact .vector ht.blank (blank_blank t) hi hs

theorem Sound.newArray {t v : Value} {n : Nat} (ht : Sound t) (h : newArray t n = .ok v) :
    Sound v := by
  obtain ⟨_, rfl⟩ := newArray_eq_ok.mp h
  refine .array ht.blank (blank_blank t) List.length_replicate ?_ ?_
  · intro v hv
    rw [List.eq_of_mem_replicate hv]
    exact ht.blank.blank
  · intro v hv
    rw [List.eq_of_mem_replicate hv, blank_blank]
    exact sameShape_refl _

theorem Sound.arrayOf {t v : Value} {n : Nat} {items : List Value} (ht : Sound t)
    (hi : ∀ i ∈ items, Sound i) (h : arrayOf t n items = .ok v) : Sound v := by
  obtain ⟨hn, hs, rfl⟩ := arrayOf_eq_ok.mp h
  exact .array ht.blank (blank_blank t) hn hi hs

theorem Sound.newEnum {variants : List (List Value)} {v : Value}
    (hv : ∀ fields ∈ variants, ∀ f ∈ fields, Sound f) (h : newEnum variants = .ok v) :
    Sound v := by
  obtain ⟨hc, rfl⟩ := newEnum_eq_ok.mp h
  have hblank : ∀ fields ∈ variants.map blankAll, ∀ f ∈ fields, Sound f ∧ f.blank = f := by
    intro fields hf f hm
    obtain ⟨vs, hvs, rfl⟩ := List.mem_map.mp hf
    rw [blankAll_eq_map] at hm
    obtain ⟨w, hw, rfl⟩ := List.mem_map.mp hm
    exact ⟨(hv vs hvs w hw).blank, blank_blank w⟩
  cases variants with
  | nil => simp at hc
  | cons first others =>
    refine .enum (by simpa using hc.2) (fun vs hvs v hm => (hblank vs hvs v hm).1)
      (fun vs hvs v hm => (hblank vs hvs v hm).2) rfl
      (fun v hm => (hblank _ (by simp) v hm).1) ?_
    exact sameShapes_refl fun v _ => sameShape_refl v

theorem Sound.push {v item w : Value} (hv : Sound v) (hi : Sound item)
    (h : v.push item = .ok w) : Sound w := by
  cases hv with
  | vector ht hb his hsh =>
    obtain ⟨_, hr, h⟩ := bind_eq_ok.mp h
    cases h
    refine .vector ht hb ?_ ?_
    · exact List.forall_mem_append.mpr ⟨his, by simpa using hi⟩
    · exact List.forall_mem_append.mpr ⟨hsh, by simpa using requireShape_eq_ok.mp hr⟩
  | _ => cases h

theorem setField_eq_ok {what : Counted} {fields others : List Value} {index : Nat}
    {field : Value} (h : setField what fields index field = .ok others) :
    ∃ old, fields[index]? = some old ∧ field.sameShape old = true ∧
      others = fields.set index field := by
  unfold setField at h
  split at h
  next => cases h
  next old ho =>
    obtain ⟨_, hr, h⟩ := bind_eq_ok.mp h
    cases h
    exact ⟨old, ho, requireShape_eq_ok.mp hr, rfl⟩

theorem forall_mem_set {p : Value → Prop} {vs : List Value} {v : Value} (index : Nat)
    (hs : ∀ w ∈ vs, p w) (hv : p v) : ∀ w ∈ vs.set index v, p w := by
  intro w hw
  rcases List.mem_or_eq_of_mem_set hw with hm | rfl
  · exact hs w hm
  · exact hv

theorem Sound.set {v item w : Value} {index : Nat} (hv : Sound v) (hi : Sound item)
    (h : v.set index item = .ok w) : Sound w := by
  cases hv with
  | @array t n items ht hb hl his hsh =>
    obtain ⟨_, hr, h⟩ := bind_eq_ok.mp h
    split at h
    next =>
      cases h
      refine .array ht hb (by simpa using hl) (forall_mem_set index his hi) ?_
      exact forall_mem_set index hsh (requireShape_eq_ok.mp hr)
    next => cases h
  | struct hf =>
    obtain ⟨others, hr, rfl⟩ := map_eq_ok.mp h
    obtain ⟨_, _, _, rfl⟩ := setField_eq_ok hr
    exact .struct (forall_mem_set index hf hi)
  | tuple hf =>
    obtain ⟨others, hr, rfl⟩ := map_eq_ok.mp h
    obtain ⟨_, _, _, rfl⟩ := setField_eq_ok hr
    exact .tuple (forall_mem_set index hf hi)
  | _ => cases h

theorem select_eq_ok {variants : List (List Value)} {old payload : List Value}
    {oldTag tag : UInt8} {w : Value} :
    (Value.enum variants oldTag old).select tag payload = .ok w ↔
      ∃ fields, variants[tag.toNat]? = some fields ∧ sameShapes payload fields = true ∧
        w = .enum variants tag payload := by
  rw [select]
  split
  next hf => simp [hf]
  next fields hf =>
    rw [guard_eq_ok, not_not, bind_eq_ok]
    simp only [hf, Option.some.injEq, exists_eq_left']
    constructor
    · intro h
      obtain ⟨hl, _, hr, hpure⟩ := h
      exact ⟨(requireShapes_eq_ok hl).mp hr, (pure_eq_ok.mp hpure).symm⟩
    · intro h
      obtain ⟨hs, hw⟩ := h
      have hl := (sameShapes_iff.mp hs).length_eq
      exact ⟨hl, (), (requireShapes_eq_ok hl).mpr hs, pure_eq_ok.mpr hw.symm⟩

theorem blank_of_select {t v : Value} {tag : UInt8} {payload : List Value}
    (h : t.select tag payload = .ok v) : v.blank = t.blank := by
  cases t with
  | enum variants oldTag old =>
    obtain ⟨_, _, _, rfl⟩ := select_eq_ok.mp h
    rfl
  | _ => cases h

theorem Sound.select {v w : Value} {tag : UInt8} {payload : List Value} (hv : Sound v)
    (hp : ∀ p ∈ payload, Sound p) (h : v.select tag payload = .ok w) : Sound w := by
  cases hv with
  | enum hc hvs hb _ _ _ =>
    obtain ⟨fields, hf, hs, rfl⟩ := select_eq_ok.mp h
    exact .enum hc hvs hb hf hp hs
  | _ => cases h

theorem Sound.part {v w : Value} (hv : Sound v) (hw : w ∈ v.parts) : Sound w := by
  cases hv with
  | vector _ _ hi _ => exact hi w hw
  | array _ _ _ hi _ => exact hi w hw
  | struct hf => exact hf w hw
  | tuple hf => exact hf w hw
  | _ => simp [parts] at hw

theorem Built.sound {v : Value} (h : Built v) : Sound v := by
  induction h with
  | bool b => exact .bool b
  | text s => exact .text s
  | word n => exact .word n
  | varint n => exact .varint n
  | struct _ ih => exact .struct ih
  | tuple _ ih => exact .tuple ih
  | newVector _ ih => exact ih.newVector
  | vectorOf _ _ h iht ihi => exact iht.vectorOf ihi h
  | newArray _ h ih => exact ih.newArray h
  | arrayOf _ _ h iht ihi => exact iht.arrayOf ihi h
  | newEnum _ h ih => exact .newEnum ih h
  | push _ _ h ihv ihi => exact ihv.push ihi h
  | set _ _ h ihv ihi => exact ihv.set ihi h
  | select _ _ h ihv ihp => exact ihv.select ihp h
  | blank _ ih => exact ih.blank
  | refill _ c ih => exact (ih.refill_keeps c).1
  | part _ hw ih => exact ih.part hw
  | vectorElement _ ih => cases ih with | vector ht => exact ht
  | arrayElement _ ih => cases ih with | array ht => exact ht
  | variant _ hf hm ih => cases ih with | enum _ hvs => exact hvs _ hf _ hm
  | payload _ hm ih => cases ih with | enum _ _ _ _ hp => exact hp _ hm

def sampleEnum : Value :=
  .enum [[], [.varint (Varint.zero .w32)]] 0 []

theorem built_sampleEnum : Built sampleEnum := by
  have h : newEnum [[], [.varint (Varint.zero .w32)]] = .ok sampleEnum := rfl
  refine .newEnum ?_ h
  simp only [List.mem_cons, List.not_mem_nil, or_false, forall_eq_or_imp, forall_eq]
  exact ⟨nofun, .varint _⟩

def sampleVector : Value :=
  .vector sampleEnum [sampleEnum,
    .enum [[], [.varint (Varint.zero .w32)]] 1 [.varint ⟨.w32, 2, by decide⟩]]

theorem built_sampleVector : Built sampleVector := by
  have hchosen : sampleEnum.select 1 [.varint ⟨.w32, 2, by decide⟩] =
      .ok (.enum [[], [.varint (Varint.zero .w32)]] 1 [.varint ⟨.w32, 2, by decide⟩]) := rfl
  have hpayload : ∀ p ∈ [Value.varint ⟨.w32, 2, by decide⟩], Built p := by
    simp only [List.mem_singleton, forall_eq]
    exact .varint _
  have hpush : (newVector sampleEnum).push sampleEnum = .ok (.vector sampleEnum [sampleEnum]) := rfl
  exact .push (.push (.newVector built_sampleEnum) built_sampleEnum hpush)
    (.select built_sampleEnum hpayload hchosen) rfl

end Value

end CallWire
