import CallWire.Proofs.SectionWire

namespace CallWire

namespace Bytes

/-- The bytes between two places, if both places are there. -/
def slice? (bytes : Bytes) (start stop : Nat) : Option Bytes :=
  if start ≤ stop ∧ stop ≤ bytes.length then some ((bytes.take stop).drop start) else none

theorem slice?_of_le {bytes : Bytes} {start stop : Nat} (h : start ≤ stop)
    (hs : stop ≤ bytes.length) : slice? bytes start stop = some ((bytes.take stop).drop start) :=
  if_pos ⟨h, hs⟩

theorem slice?_length {bytes : Bytes} {start : Nat} (h : start ≤ bytes.length) :
    slice? bytes start bytes.length = some (bytes.drop start) := by
  rw [slice?_of_le h (Nat.le_refl _), List.take_length]

theorem number_le_maxLength {bytes : Bytes} (h : bytes.length = 4) : number bytes ≤ maxLength := by
  have hlt := number_lt bytes
  rw [h] at hlt
  unfold maxLength
  omega

end Bytes

namespace Section

variable {bytes : Bytes} {s : Section}

/-- A body that is as long as was declared is read as the section that has it. -/
theorem ofBody_eq_ok {kind : UInt8} {declared : Nat} {body : Bytes} (h : body.length = declared) :
    ofBody kind declared body = .ok s ↔ s.kind = kind ∧ s.body = body := by
  constructor
  · intro hs
    cases body with
    | nil => cases hs
    | cons size rest =>
      unfold ofBody at hs
      dsimp only at hs
      split at hs
      next => cases hs
      next hfits =>
        split at hs
        next => cases hs
        next name hname =>
          unfold ofParts at hs
          split at hs
          next hle =>
            cases hs
            rw [List.length_cons] at h
            have htext := Utf8.encode_of_decode hname
            have hsize : name.utf8ByteSize = size.toNat := by
              rw [← Utf8.length_encode, htext, List.length_take]
              omega
            refine ⟨rfl, ?_⟩
            simp only [body, htext, hsize, UInt8.ofNat_toNat, List.cons_append,
              List.take_append_drop]
          next => cases hs
  · intro hs
    obtain ⟨rfl, rfl⟩ := hs
    rw [← h, length_body]
    exact ofBody_body s

theorem ofBody_error {kind : UInt8} {declared : Nat} {body : Bytes} {f : Fault}
    (h : ofBody kind declared body = .error f) : ∃ cause, f = .invalidSection cause := by
  unfold ofBody ofParts at h
  split at h
  next => exact ⟨_, (Except.error.inj h).symm⟩
  next =>
    split at h
    next => exact ⟨_, (Except.error.inj h).symm⟩
    next =>
      split at h
      next => exact ⟨_, (Except.error.inj h).symm⟩
      next =>
        split at h
        next => cases h
        next => exact ⟨_, (Except.error.inj h).symm⟩

theorem decode_error {f : Fault} (h : decode bytes = .error f) :
    ∃ cause, f = .invalidSection cause := by
  unfold decode at h
  split at h
  next =>
    dsimp only at h
    split at h
    next => exact ⟨_, (Except.error.inj h).symm⟩
    next => exact ofBody_error (map_eq_error.mp h)
  next => exact ⟨_, (Except.error.inj h).symm⟩

/-- Six bytes or more are a kind, the four bytes of a length, and something after them. -/
theorem exists_header (h : ¬ bytes.length < 6) : ∃ kind size rest, size.length = 4 ∧ rest ≠ [] ∧
    bytes = kind :: size ++ rest := by
  cases bytes with
  | nil => exact absurd (by decide) h
  | cons kind tail =>
    rw [List.length_cons] at h
    refine ⟨kind, tail.take 4, tail.drop 4, ?_, ?_, ?_⟩
    · rw [List.length_take]
      omega
    · rw [Ne, List.drop_eq_nil_iff]
      omega
    · rw [List.cons_append, List.take_append_drop]

theorem decode_short (h : bytes.length < 6) :
    decode bytes = .error (.invalidSection (.shortHeader bytes.length)) := by
  unfold decode
  split
  next =>
    simp only [List.length_cons] at h
    omega
  next => rfl

theorem decode_header (kind : UInt8) {size rest : Bytes} (hsize : size.length = 4)
    (hrest : rest ≠ []) : decode (kind :: size ++ rest) =
      if Bytes.number size = 0 ∨ rest.length < Bytes.number size then
        .error (.invalidSection (.badLength (Bytes.number size) rest.length))
      else (ofBody kind (Bytes.number size) (rest.take (Bytes.number size))).map
        (·, 5 + Bytes.number size) := by
  have hlittle : Bytes.little 4 (Bytes.number size) = size := by rw [← hsize, Bytes.little_number]
  rw [← decode_framed kind hrest (Bytes.number_le_maxLength hsize), hlittle]

/-- A section is decoded from its own encoding and from nothing else. -/
theorem decode_eq_ok {k : Nat} :
    decode bytes = .ok (s, k) ↔ k ≤ bytes.length ∧ s.encode = .ok (bytes.take k) := by
  constructor
  · intro h
    by_cases hshort : bytes.length < 6
    · cases (decode_short hshort).symm.trans h
    · obtain ⟨kind, size, rest, hsize, hrest, rfl⟩ := exists_header hshort
      rw [decode_header kind hsize hrest] at h
      split at h
      next => cases h
      next hfits =>
        obtain ⟨t, ht, he⟩ := map_eq_ok.mp h
        cases he
        have hlength : (rest.take (Bytes.number size)).length = Bytes.number size := by
          rw [List.length_take]
          omega
        obtain ⟨rfl, hbody⟩ := (ofBody_eq_ok hlength).mp ht
        have hbodySize : s.bodySize = Bytes.number size := by rw [← length_body, hbody, hlength]
        have hheader : (s.kind :: size).length = 5 := congrArg (· + 1) hsize
        refine ⟨?_, encode_eq_ok.mpr ⟨?_, ?_⟩⟩
        · rw [List.length_append, hheader]
          omega
        · rw [hbodySize]
          exact Bytes.number_le_maxLength hsize
        · rw [hbodySize, hbody, ← hsize, Bytes.little_number, ← hheader,
            List.take_length_add_append]
  · intro h
    obtain ⟨hk, hencode⟩ := h
    have hdecode := decode_of_encode hencode (bytes.drop k)
    rwa [List.take_append_drop, List.length_take, Nat.min_eq_left hk] at hdecode

/-- Reads a body by places in it, with no answer when a place is asked for that is not there. -/
def ofBodySlices (kind : UInt8) (declared : Nat) (body : Bytes) :
    Option (Except Fault Section) := do
  let size ← body[0]?
  if declared < 1 + size.toNat then
    return .error (.invalidSection (.nameOverrun size.toNat declared))
  match Utf8.decode (← Bytes.slice? body 1 (1 + size.toNat)) with
  | .error f => return .error (.invalidSection (.nameText f))
  | .ok name => return ofParts kind name (← Bytes.slice? body (1 + size.toNat) body.length)

/-- Decodes a section in the same way. -/
def decodeSlices (bytes : Bytes) : Option (Except Fault (Section × Nat)) :=
  if bytes.length < 6 then some (.error (.invalidSection (.shortHeader bytes.length)))
  else do
    let kind ← bytes[0]?
    let declared := Bytes.number (← Bytes.slice? bytes 1 5)
    let available := bytes.length - 5
    if declared = 0 ∨ available < declared then
      return .error (.invalidSection (.badLength declared available))
    let body ← Bytes.slice? bytes 5 (5 + declared)
    return (← ofBodySlices kind declared body).map (·, 5 + declared)

theorem ofBodySlices_eq (kind : UInt8) {body : Bytes} (h : body ≠ []) :
    ofBodySlices kind body.length body = some (ofBody kind body.length body) := by
  obtain ⟨size, rest, rfl⟩ := List.exists_cons_of_ne_nil h
  unfold ofBodySlices ofBody
  simp only [List.getElem?_cons_zero, Option.bind_eq_bind, Option.bind_some]
  split
  next => rfl
  next hfits =>
    have hle : 1 + size.toNat ≤ (size :: rest).length := Nat.not_lt.mp hfits
    have hname : Bytes.slice? (size :: rest) 1 (1 + size.toNat) = some (rest.take size.toNat) := by
      rw [Bytes.slice?_of_le (Nat.le_add_right _ _) hle, Nat.add_comm, List.take_succ_cons]
      rfl
    have hcontent : Bytes.slice? (size :: rest) (1 + size.toNat) (size :: rest).length =
        some (rest.drop size.toNat) := by
      rw [Bytes.slice?_length hle, Nat.add_comm, List.drop_succ_cons]
    rw [hname, hcontent]
    simp only [Option.bind_some]
    cases Utf8.decode (rest.take size.toNat) with
    | error f => rfl
    | ok name => rfl

/-- Every place that decoding asks for is there. -/
theorem decodeSlices_eq (bytes : Bytes) : decodeSlices bytes = some (decode bytes) := by
  unfold decodeSlices
  by_cases hshort : bytes.length < 6
  · rw [if_pos hshort, decode_short hshort]
  · obtain ⟨kind, size, rest, hsize, hrest, rfl⟩ := exists_header hshort
    have hheader : (kind :: size).length = 5 := congrArg (· + 1) hsize
    have hlength : (kind :: size ++ rest).length = 5 + rest.length := by
      rw [List.length_append, hheader]
    have hsizes : Bytes.slice? (kind :: size ++ rest) 1 5 = some size := by
      rw [Bytes.slice?_of_le (by decide) (by omega), List.take_left' hheader]
      rfl
    rw [if_neg hshort, decode_header kind hsize hrest, hsizes, hlength, Nat.add_sub_cancel_left]
    simp only [List.cons_append, List.getElem?_cons_zero, Option.bind_eq_bind, Option.bind_some]
    split
    next => rfl
    next hfits =>
      have hbody : Bytes.slice? (kind :: size ++ rest) 5 (5 + Bytes.number size) =
          some (rest.take (Bytes.number size)) := by
        rw [Bytes.slice?_of_le (Nat.le_add_right _ _) (by omega), ← hheader,
          List.take_length_add_append, List.drop_left]
      have htake : (rest.take (Bytes.number size)).length = Bytes.number size := by
        rw [List.length_take]
        omega
      have hne : rest.take (Bytes.number size) ≠ [] := by
        rw [← List.length_pos_iff, htake]
        omega
      have hread := ofBodySlices_eq kind hne
      rw [htake] at hread
      rw [← List.cons_append, hbody, Option.bind_some, hread]
      rfl

/-- Framing is exact: a section that its length can state is read back whatever follows it, only
the encoding of a section is read as one, every other input is an invalid section, and no place
beyond the input is ever looked at. -/
theorem decode_iff_encode :
    (∀ kind name content s rest, ofParts kind name content = .ok s →
      1 + name.utf8ByteSize + content.length ≤ maxLength →
      ∃ bytes, s.encode = .ok bytes ∧ decode (bytes ++ rest) = .ok (s, bytes.length)) ∧
    (∀ bytes s k, decode bytes = .ok (s, k) ↔ k ≤ bytes.length ∧ s.encode = .ok (bytes.take k)) ∧
    (∀ bytes s k, decode bytes = .ok (s, k) → s.name.utf8ByteSize ≤ 255) ∧
    (∀ bytes, (∀ (s : Section) front rest, s.encode = .ok front → bytes ≠ front ++ rest) →
      ∃ cause, decode bytes = .error (.invalidSection cause)) ∧
    ∀ bytes, decodeSlices bytes = some (decode bytes) := by
  refine ⟨?_, fun bytes s k => decode_eq_ok, fun bytes s k _ => s.name_le, ?_, decodeSlices_eq⟩
  · intro kind name content s rest hs hle
    unfold ofParts at hs
    split at hs
    next hname =>
      cases hs
      have hencode := encode_eq_ok (s := ⟨kind, name, content, hname⟩).mpr ⟨hle, rfl⟩
      exact ⟨_, hencode, decode_of_encode hencode rest⟩
    next => cases hs
  · intro bytes hother
    cases h : decode bytes with
    | ok found =>
      obtain ⟨s, k⟩ := found
      obtain ⟨_, hencode⟩ := decode_eq_ok.mp h
      exact absurd (List.take_append_drop k bytes).symm (hother s _ _ hencode)
    | error f =>
      obtain ⟨cause, rfl⟩ := decode_error h
      exact ⟨cause, rfl⟩

/-- A section before a byte that is not its own, and bytes whose name would pass their end. -/
theorem decode_iff_encode_init :
    ∃ s : Section, ofParts 7 "init" [4, 118] = .ok s ∧
      s.encode = .ok [7, 7, 0, 0, 0, 4, 105, 110, 105, 116, 4, 118] ∧
      decode ([7, 7, 0, 0, 0, 4, 105, 110, 105, 116, 4, 118] ++ [9]) = .ok (s, 12) ∧
      (∃ cause, decode [0, 2, 0, 0, 0, 5, 97, 255] = .error (.invalidSection cause)) ∧
      decodeSlices [0, 2, 0, 0, 0, 5, 97, 255] =
        some (.error (.invalidSection (.nameOverrun 5 2))) := by
  obtain ⟨hread, hiff, _, hother, hslices⟩ := decode_iff_encode
  obtain ⟨s, hs⟩ : ∃ s, ofParts 7 "init" [4, 118] = .ok s := ⟨⟨7, "init", [4, 118], by decide⟩, rfl⟩
  obtain ⟨bytes, hencode, hdecode⟩ := hread 7 "init" [4, 118] s [9] hs (by decide)
  have hbytes : s.encode = .ok [7, 7, 0, 0, 0, 4, 105, 110, 105, 116, 4, 118] := by
    cases hs
    rfl
  cases hbytes.symm.trans hencode
  have hoverrun : decode [0, 2, 0, 0, 0, 5, 97, 255] =
      .error (.invalidSection (.nameOverrun 5 2)) := rfl
  refine ⟨s, hs, hbytes, hdecode, hother _ ?_, by rw [hslices, hoverrun]⟩
  intro t front rest hfront hsplit
  have hfound := decode_of_encode hfront rest
  rw [← hsplit, hoverrun] at hfound
  cases hfound

end Section

end CallWire
