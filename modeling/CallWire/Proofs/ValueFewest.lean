import CallWire.Proofs.ValueBuilt
import CallWire.Proofs.ValueSize

namespace CallWire

theorem Count.mul_min_max (n size : Nat) :
    Count.mul n (min size Count.max) = min (n * size) Count.max := by
  by_cases hn : n = 0
  · simp [hn, Count.mul]
  by_cases hs : size ≤ Count.max
  · rw [Nat.min_eq_left hs, Count.mul]
  -- A size that is cut off is cut off again as a product.
  · have hmax : Count.max ≤ n * Count.max := Nat.le_mul_of_pos_left _ (Nat.pos_of_ne_zero hn)
    have hsize : n * Count.max ≤ n * size := Nat.mul_le_mul_left n (by omega)
    rw [Nat.min_eq_right (by omega), Count.mul]
    omega

namespace Value

mutual

/-- The fewest bytes of a value's shape, counted in full. -/
def fewest : Value → Nat
  | bool _ => 1
  | text _ => 1
  | word n => n.width.bytes
  | varint _ => 1
  | vector .. => 1
  | array t n _ => n * fewest t
  | struct fields => fewestAll fields
  | tuple fields => fewestAll fields
  | enum .. => 1

def fewestAll : List Value → Nat
  | [] => 0
  | v :: vs => fewest v + fewestAll vs

end

/-- No enum is met in a value, unless in a vector or in the element that a vector is kept with. -/
inductive Enumless : Value → Prop
  | bool (b : Bool) : Enumless (.bool b)
  | text (s : String) : Enumless (.text s)
  | word (n : Word) : Enumless (.word n)
  | varint (n : Varint) : Enumless (.varint n)
  | vector (t : Value) (items : List Value) : Enumless (.vector t items)
  | array {t : Value} (n : Nat) {items : List Value} (ht : Enumless t)
      (hi : ∀ v ∈ items, Enumless v) : Enumless (.array t n items)
  | struct {fields : List Value} (hf : ∀ v ∈ fields, Enumless v) : Enumless (.struct fields)
  | tuple {fields : List Value} (hf : ∀ v ∈ fields, Enumless v) : Enumless (.tuple fields)

theorem minSizes_eq_min {vs : List Value} (h : ∀ v ∈ vs, v.minSize = min v.fewest Count.max)
    {total : Nat} (ht : total ≤ Count.max) :
    minSizes vs total = min (total + fewestAll vs) Count.max := by
  induction vs generalizing total with
  | nil => exact (Nat.min_eq_left ht).symm
  | cons v vs ih =>
    obtain ⟨hv, hvs⟩ := List.forall_mem_cons.mp h
    rw [minSizes, ih hvs (Count.add_le_max _ _), hv, Count.add, fewestAll]
    omega

/-- The count of the fewest bytes is the full one as far as it goes. -/
theorem minSize_eq_min (v : Value) : v.minSize = min v.fewest Count.max := by
  induction v using parts_induction with
  | bool | text | varint | vector | enum => rfl
  | word n =>
    have hle : n.width.bytes ≤ Count.max := by cases n.width <;> decide
    exact (Nat.min_eq_left hle).symm
  | array t n items ht _ => rw [minSize, fewest, ht, Count.mul_min_max]
  | struct fields hf | tuple fields hf =>
    rw [minSize, fewest, minSizes_eq_min hf (Nat.zero_le _), Nat.zero_add]

/-- The blank value of a shape is encoded in the fewest bytes of the shape. -/
def Tight (v : Value) : Prop := ∃ bytes, v.blank.encode = .ok bytes ∧ bytes.length = v.fewest

theorem encodeAll_replicate {t : Value} {bytes : Bytes} (h : t.encode = .ok bytes) (n : Nat) :
    ∃ xs, encodeAll (List.replicate n t) = .ok xs ∧ xs.length = n * bytes.length := by
  induction n with
  | zero => exact ⟨[], rfl, by simp⟩
  | succ n ih =>
    obtain ⟨xs, hxs, hlen⟩ := ih
    refine ⟨bytes ++ xs, encodeAll_cons_eq_ok.mpr ⟨bytes, xs, h, hxs, rfl⟩, ?_⟩
    rw [List.length_append, hlen, Nat.succ_mul, Nat.add_comm]

theorem encodeAll_blankAll {vs : List Value} (h : ∀ v ∈ vs, Tight v) :
    ∃ xs, encodeAll (blankAll vs) = .ok xs ∧ xs.length = fewestAll vs := by
  induction vs with
  | nil => exact ⟨[], rfl, rfl⟩
  | cons v vs ih =>
    obtain ⟨⟨bytes, hbytes, hlen⟩, hvs⟩ := List.forall_mem_cons.mp h
    obtain ⟨xs, hxs, hlens⟩ := ih hvs
    refine ⟨bytes ++ xs, encodeAll_cons_eq_ok.mpr ⟨bytes, xs, hbytes, hxs, rfl⟩, ?_⟩
    rw [List.length_append, hlen, hlens, fewestAll]

theorem Enumless.tight {v : Value} (he : Enumless v) (hv : Sound v) : Tight v := by
  induction he with
  | bool | varint | vector => exact ⟨_, rfl, rfl⟩
  | text s => exact ⟨_, encode_text_eq_ok.mpr ⟨Nat.zero_le _, rfl⟩, rfl⟩
  | word n => exact ⟨_, rfl, Bytes.little_length _ _⟩
  | @array t n items _ _ ih =>
    cases hv with
    | array ht _ hlength =>
      obtain ⟨bytes, hbytes, hlen⟩ := ih ht
      obtain ⟨xs, hxs, hlens⟩ := encodeAll_replicate hbytes n
      refine ⟨xs, ?_, by rw [hlens, hlen, fewest]⟩
      rw [blank, encode, hlength, hxs]
  | struct _ ih =>
    cases hv with
    | struct hf =>
      obtain ⟨xs, hxs, hlen⟩ := encodeAll_blankAll fun v hm => ih v hm (hf v hm)
      exact ⟨xs, hxs, hlen⟩
  | tuple _ ih =>
    cases hv with
    | tuple hf =>
      obtain ⟨xs, hxs, hlen⟩ := encodeAll_blankAll fun v hm => ih v hm (hf v hm)
      exact ⟨xs, hxs, hlen⟩

theorem Sound.minSize_le_consumed {v w : Value} {c c' : Cursor} (hv : Sound v)
    (h : v.refill c = ⟨w, none, c'⟩) : ∃ bytes, c.rest = bytes ++ c'.rest ∧
      c'.position = c.position + bytes.length ∧ v.minSize ≤ bytes.length := by
  obtain ⟨bytes, ⟨hw, hb, he⟩, hr, hp⟩ := scan_spells hv _ _ _ (hv.scan_of_refill h)
  exact ⟨bytes, hr, hp, minSize_eq_of_blank_eq hb ▸ hw.paid bytes he⟩

/-- The fewest bytes of a shape bound from below what a value of the shape is encoded in and what a
decoding into it takes, wherever the count is cut off. The count is the full one as long as that is
within the largest count, and without enums, vectors apart, the blank value takes just so many
bytes. -/
theorem Built.minSize_bound {v : Value} (hv : Built v) :
    (∀ bytes, v.encode = .ok bytes → v.minSize ≤ bytes.length) ∧
    (∀ c w c', v.refill c = ⟨w, none, c'⟩ → ∃ bytes, c.rest = bytes ++ c'.rest ∧
      c'.position = c.position + bytes.length ∧ v.minSize ≤ bytes.length) ∧
    v.minSize = min v.fewest Count.max ∧
    (Enumless v → ∃ bytes, v.blank.encode = .ok bytes ∧ bytes.length = v.fewest ∧
      (v.fewest ≤ Count.max → bytes.length = v.minSize)) := by
  have hmin := minSize_eq_min v
  refine ⟨hv.sound.paid, fun c w c' => hv.sound.minSize_le_consumed, hmin, fun he => ?_⟩
  obtain ⟨bytes, hbytes, hlen⟩ := he.tight hv.sound
  refine ⟨bytes, hbytes, hlen, fun hle => ?_⟩
  rw [hlen, hmin, Nat.min_eq_left hle]

def threeWords : Value :=
  .array (.word (.zero .w16 true)) 3 (List.replicate 3 (.word (.zero .w16 true)))

/-- A number, a vector of enums that holds two of them, and three numbers more. -/
def sampleRecord : Value := .struct [.word (.zero .w32 false), sampleVector, threeWords]

theorem built_sampleRecord : Built sampleRecord := by
  have harray : Built threeWords := .newArray (n := 3) (.word (.zero .w16 true)) rfl
  refine .struct ?_
  simp only [List.mem_cons, List.not_mem_nil, or_false, forall_eq_or_imp, forall_eq]
  exact ⟨.word _, built_sampleVector, harray⟩

/-- Fourteen bytes, and twelve read for a shape of eleven. -/
theorem minSize_bound_record :
    (sampleRecord.encode = .ok [0, 0, 0, 0, 8, 0, 1, 8, 0, 0, 0, 0, 0, 0] ∧
      sampleRecord.minSize ≤ 14) ∧
    (∃ bytes : Bytes, [7, 0, 0, 0, 4, 0, 1, 0, 2, 0, 3, 0, 99] = bytes ++ [99] ∧
      12 = 0 + bytes.length ∧ sampleRecord.minSize ≤ bytes.length) ∧
    ∃ bytes, sampleRecord.blank.encode = .ok bytes ∧ bytes.length = sampleRecord.minSize ∧
      sampleRecord.minSize = 11 := by
  have hencode : sampleRecord.encode = .ok [0, 0, 0, 0, 8, 0, 1, 8, 0, 0, 0, 0, 0, 0] := rfl
  obtain ⟨w, hdecode⟩ : ∃ w, sampleRecord.refill
      (.start [7, 0, 0, 0, 4, 0, 1, 0, 2, 0, 3, 0, 99] .unbounded) =
        ⟨w, none, ⟨[99], 12, 1, .unbounded⟩⟩ := ⟨_, rfl⟩
  have henumless : Enumless sampleRecord := by
    refine .struct ?_
    simp only [List.mem_cons, List.not_mem_nil, or_false, forall_eq_or_imp, forall_eq]
    refine ⟨.word _, .vector _ _, .array 3 (.word _) fun v hv => ?_⟩
    rw [List.eq_of_mem_replicate hv]
    exact .word _
  obtain ⟨hpaid, hconsumed, _, htight⟩ := built_sampleRecord.minSize_bound
  obtain ⟨bytes, hbytes, _, hlen⟩ := htight henumless
  exact ⟨⟨hencode, hpaid _ hencode⟩, hconsumed _ w _ hdecode, bytes, hbytes, hlen (by decide), rfl⟩

end Value

end CallWire
