import CallWire.Section
import CallWire.Proofs.ValueSpells

namespace CallWire

namespace Section

/-- What the declared length counts: the length of the name in one byte, the name, the content. -/
def body (s : Section) : Bytes :=
  UInt8.ofNat s.name.utf8ByteSize :: Utf8.encode s.name ++ s.content

theorem length_body (s : Section) : s.body.length = s.bodySize := by
  simp only [body, bodySize, List.cons_append, List.length_cons, List.length_append,
    Utf8.length_encode]
  omega

theorem encode_eq_ok {s : Section} {bytes : Bytes} : s.encode = .ok bytes ↔
    s.bodySize ≤ maxLength ∧ s.kind :: Bytes.little 4 s.bodySize ++ s.body = bytes := by
  unfold encode length
  split
  next h => simp [h, body, bind, Except.bind, pure, Except.pure]
  next h => simp [h, bind, Except.bind]

theorem encode_of_long {s : Section} (h : maxLength < s.bodySize) :
    s.encode = .error (.invalidSection (.longBody s.bodySize)) := by
  unfold encode length
  rw [if_neg (Nat.not_le.mpr h)]
  rfl

/-- One byte holds the length of every name that a section may have. -/
theorem toNat_nameSize (s : Section) :
    (UInt8.ofNat s.name.utf8ByteSize).toNat = s.name.utf8ByteSize := by
  have hle : s.name.utf8ByteSize ≤ 255 := s.name_le
  rw [UInt8.toNat_ofNat']
  omega

theorem ofParts_self (s : Section) : ofParts s.kind s.name s.content = .ok s := dif_pos s.name_le

theorem ofBody_body (s : Section) : ofBody s.kind s.bodySize s.body = .ok s := by
  have hfits : ¬ s.bodySize < 1 + s.name.utf8ByteSize := by
    unfold bodySize
    omega
  have hname : (Utf8.encode s.name ++ s.content).take s.name.utf8ByteSize = Utf8.encode s.name :=
    List.take_left' (Utf8.length_encode s.name)
  have hcontent : (Utf8.encode s.name ++ s.content).drop s.name.utf8ByteSize = s.content :=
    List.drop_left' (Utf8.length_encode s.name)
  unfold body ofBody
  simp only [List.cons_append, toNat_nameSize, if_neg hfits, hname, hcontent, Utf8.decode_encode]
  exact ofParts_self s

/-- A section is decoded from as many bytes after its length as the length says. -/
theorem decode_framed (kind : UInt8) {body : Bytes} {n : Nat} (hb : body ≠ [])
    (h : n ≤ maxLength) : decode (kind :: Bytes.little 4 n ++ body) =
      if n = 0 ∨ body.length < n then .error (.invalidSection (.badLength n body.length))
      else (ofBody kind n (body.take n)).map (·, 5 + n) := by
  have hnumber : Bytes.number (Bytes.little 4 n) = n := by
    rw [Bytes.number_little]
    unfold maxLength at h
    omega
  obtain ⟨first, others, rfl⟩ := List.exists_cons_of_ne_nil hb
  conv_rhs => rw [← hnumber]
  rfl

/-- A section is read back from the front of its bytes, whatever follows them. -/
theorem decode_of_encode {s : Section} {bytes : Bytes} (h : s.encode = .ok bytes) (rest : Bytes) :
    decode (bytes ++ rest) = .ok (s, bytes.length) := by
  obtain ⟨hle, rfl⟩ := encode_eq_ok.mp h
  have hlength : (s.kind :: Bytes.little 4 s.bodySize ++ s.body).length = 5 + s.bodySize := by
    rw [List.length_append, List.length_cons, Bytes.little_length, length_body]
  have hfits : ¬ (s.bodySize = 0 ∨ (s.body ++ rest).length < s.bodySize) := by
    rw [List.length_append, length_body]
    unfold bodySize
    omega
  have hbody : (s.body ++ rest).take s.bodySize = s.body := List.take_left' (length_body s)
  have hne : s.body ++ rest ≠ [] := List.cons_ne_nil _ _
  rw [hlength, List.append_assoc, decode_framed s.kind hne hle, if_neg hfits, hbody, ofBody_body]
  rfl

end Section

end CallWire
