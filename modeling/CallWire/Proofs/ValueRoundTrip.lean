import CallWire.Proofs.ValueReads

namespace CallWire

namespace Value

/-- One value is another or, at any depth, one of its items, fields or payload. -/
inductive Inside (u : Value) : Value → Prop
  | self : Inside u u
  | vector {t v : Value} {items : List Value} (hm : v ∈ items) (h : Inside u v) :
      Inside u (.vector t items)
  | array {t v : Value} {n : Nat} {items : List Value} (hm : v ∈ items) (h : Inside u v) :
      Inside u (.array t n items)
  | struct {v : Value} {fields : List Value} (hm : v ∈ fields) (h : Inside u v) :
      Inside u (.struct fields)
  | tuple {v : Value} {fields : List Value} (hm : v ∈ fields) (h : Inside u v) :
      Inside u (.tuple fields)
  | enum {variants : List (List Value)} {tag : UInt8} {v : Value} {payload : List Value}
      (hm : v ∈ payload) (h : Inside u v) : Inside u (.enum variants tag payload)

/-- A text or a vector that is longer than a length prefix can say. -/
def Overlong : Value → Prop
  | text s => maxLength < s.utf8ByteSize
  | vector _ items => maxLength < items.length
  | _ => False

def Unspeakable (v : Value) : Prop := ∃ u, Inside u v ∧ u.Overlong

def IsLongLength (f : Fault) : Prop :=
  ∃ length, maxLength < length ∧ f = .outOfRange .w32 (.longLength length)

/-- An encoding that fails does so over a length, and some length inside the value is too long. -/
def FailsOnLength (v : Value) : Prop :=
  ∀ f, v.encode = .error f → IsLongLength f ∧ Unspeakable v

theorem encodeLength_error {n : Nat} {f : Fault} (h : Varint.encodeLength n = .error f) :
    maxLength < n ∧ IsLongLength f := by
  unfold Varint.encodeLength at h
  split at h
  next => cases h
  next hn =>
    cases h
    exact ⟨by omega, n, by omega, rfl⟩

theorem encodeAll_error {vs : List Value} {f : Fault} (h : encodeAll vs = .error f) :
    ∃ v ∈ vs, v.encode = .error f := by
  induction vs with
  | nil => cases h
  | cons v vs ih =>
    rw [encodeAll] at h
    rcases bind_eq_error.mp h with hv | ⟨head, _, h⟩
    · exact ⟨v, by simp, hv⟩
    · rcases bind_eq_error.mp h with hvs | ⟨tail, _, h⟩
      · obtain ⟨w, hw, hf⟩ := ih hvs
        exact ⟨w, List.mem_cons_of_mem v hw, hf⟩
      · cases h

theorem encodeAll_ok_mem {vs : List Value} {bytes : Bytes} (h : encodeAll vs = .ok bytes) :
    ∀ v ∈ vs, ∃ part, v.encode = .ok part := by
  induction vs generalizing bytes with
  | nil => simp
  | cons v vs ih =>
    obtain ⟨head, tail, hh, ht, _⟩ := encodeAll_cons_eq_ok.mp h
    exact List.forall_mem_cons.mpr ⟨⟨head, hh⟩, ih ht⟩

theorem fails_of_part {v : Value} {parts : List Value}
    (hin : ∀ p ∈ parts, ∀ u, Inside u p → Inside u v) (h : ∀ p ∈ parts, FailsOnLength p)
    {f : Fault} (he : encodeAll parts = .error f) : IsLongLength f ∧ Unspeakable v := by
  obtain ⟨p, hp, hf⟩ := encodeAll_error he
  obtain ⟨hlong, u, hu, ho⟩ := h p hp f hf
  exact ⟨hlong, u, hin p hp u hu, ho⟩

theorem failsOnLength (v : Value) : FailsOnLength v := by
  induction v using parts_induction with
  | bool | word | varint =>
    intro f h
    cases h
  | text s =>
    intro f h
    rw [encode] at h
    rcases bind_eq_error.mp h with h | ⟨_, _, h⟩
    · obtain ⟨hn, hf⟩ := encodeLength_error h
      exact ⟨hf, _, .self, hn⟩
    · cases h
  | vector t items _ hi =>
    intro f h
    rw [encode] at h
    rcases bind_eq_error.mp h with h | ⟨_, _, h⟩
    · obtain ⟨hn, hf⟩ := encodeLength_error h
      exact ⟨hf, _, .self, hn⟩
    · rcases bind_eq_error.mp h with h | ⟨_, _, h⟩
      · exact fails_of_part (fun p hp u hu => .vector hp hu) hi h
      · cases h
  | array t n items _ hi =>
    intro f h
    rw [encode] at h
    exact fails_of_part (fun p hp u hu => .array hp hu) hi h
  | struct fields hf =>
    intro f h
    rw [encode] at h
    exact fails_of_part (fun p hp u hu => .struct hp hu) hf h
  | tuple fields hf =>
    intro f h
    rw [encode] at h
    exact fails_of_part (fun p hp u hu => .tuple hp hu) hf h
  | enum variants tag payload _ hp =>
    intro f h
    rw [encode] at h
    rcases bind_eq_error.mp h with h | ⟨_, _, h⟩
    · exact fails_of_part (fun p hm u hu => .enum hm hu) hp h
    · cases h

theorem not_overlong_of_encode {u v : Value} (hu : Inside u v) {bytes : Bytes}
    (h : v.encode = .ok bytes) : ¬ u.Overlong := by
  induction hu generalizing bytes with
  | self =>
    intro ho
    cases u with
    | text s =>
      obtain ⟨hle, _⟩ := encode_text_eq_ok.mp h
      exact absurd ho (Nat.not_lt.mpr hle)
    | vector t items =>
      obtain ⟨hle, _⟩ := encode_vector_eq_ok.mp h
      exact absurd ho (Nat.not_lt.mpr hle)
    | _ => exact ho
  | vector hm _ ih =>
    obtain ⟨_, content, hc, _⟩ := encode_vector_eq_ok.mp h
    obtain ⟨part, hp⟩ := encodeAll_ok_mem hc _ hm
    exact ih hp
  | array hm _ ih | struct hm _ ih | tuple hm _ ih =>
    rw [encode] at h
    obtain ⟨part, hp⟩ := encodeAll_ok_mem h _ hm
    exact ih hp
  | enum hm _ ih =>
    obtain ⟨content, hc, _⟩ := encode_enum_eq_ok.mp h
    obtain ⟨part, hp⟩ := encodeAll_ok_mem hc _ hm
    exact ih hp

/-- The encoding of a value fails just when some length inside it cannot be said, and only with
that fault; otherwise the blank value of its shape reads it back from its bytes alone. -/
theorem Built.refill_of_encode {v : Value} (hv : Built v) :
    ((∃ f, v.encode = .error f) ↔ ∃ u, Inside u v ∧ u.Overlong) ∧
    (∀ f, v.encode = .error f →
      ∃ length, maxLength < length ∧ f = .outOfRange .w32 (.longLength length)) ∧
    ∀ bytes, v.encode = .ok bytes → ∀ rest : Bytes, ∃ expansion,
      v.blank.refill (Cursor.start (bytes ++ rest) .unbounded) =
        ⟨v, none, ⟨rest, bytes.length, expansion, .unbounded⟩⟩ := by
  refine ⟨⟨?_, ?_⟩, fun f h => (failsOnLength v f h).1, ?_⟩
  · intro hfails
    obtain ⟨f, h⟩ := hfails
    exact (failsOnLength v f h).2
  · intro hlong
    obtain ⟨u, hu, ho⟩ := hlong
    cases he : v.encode with
    | ok bytes => exact absurd ho (not_overlong_of_encode hu he)
    | error f => exact ⟨f, rfl⟩
  · intro bytes he rest
    rcases scan_reads hv.sound he (Cursor.start (bytes ++ rest) .unbounded) rest rfl with
      ⟨expansion, hs⟩ | ⟨hl, _⟩
    · refine ⟨expansion, ?_⟩
      rw [← scan_blank v] at hs
      have hr := hv.sound.blank.refill_of_scan hs
      simpa [Cursor.start] using hr
    · exact absurd ⟨rfl, rfl⟩ hl

theorem refill_of_encode_vector : ∃ expansion,
    sampleVector.blank.refill (Cursor.start ([8, 0, 1, 8] ++ [99]) .unbounded) =
      ⟨sampleVector, none, ⟨[99], 4, expansion, .unbounded⟩⟩ := by
  have he : sampleVector.encode = .ok [8, 0, 1, 8] := rfl
  exact (Built.refill_of_encode built_sampleVector).2.2 _ he [99]

end Value

end CallWire
