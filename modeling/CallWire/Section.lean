import CallWire.Fault

namespace CallWire

/-- A named stretch of bytes that says its own kind and length. -/
structure Section where
  kind : UInt8
  name : String
  content : Bytes
  name_le : name.utf8ByteSize ≤ maxSectionName

namespace Section

def ofParts (kind : UInt8) (name : String) (content : Bytes) : Except Fault Section :=
  if h : name.utf8ByteSize ≤ maxSectionName then .ok ⟨kind, name, content, h⟩
  else .error (.invalidSection (.longName name.utf8ByteSize))

/-- The bytes after the kind and the length itself. -/
def bodySize (s : Section) : Nat := 1 + s.name.utf8ByteSize + s.content.length

def length (s : Section) : Except Fault Nat :=
  if s.bodySize ≤ maxLength then .ok s.bodySize
  else .error (.invalidSection (.longBody s.bodySize))

/-- Kind, length in four bytes, length of the name in one, name, content. -/
def encode (s : Section) : Except Fault Bytes := do
  let length ← s.length
  return s.kind :: Bytes.little 4 length ++
    UInt8.ofNat s.name.utf8ByteSize :: Utf8.encode s.name ++ s.content

def ofBody (kind : UInt8) (declared : Nat) (body : Bytes) : Except Fault Section :=
  match body with
  | [] => .error (.invalidSection (.badLength declared 0))
  | size :: rest =>
    if declared < 1 + size.toNat then
      .error (.invalidSection (.nameOverrun size.toNat declared))
    else
      match Utf8.decode (rest.take size.toNat) with
      | .error f => .error (.invalidSection (.nameText f))
      | .ok name => ofParts kind name (rest.drop size.toNat)

def decode (bytes : Bytes) : Except Fault (Section × Nat) :=
  match bytes with
  | kind :: a :: b :: c :: d :: rest@(_ :: _) =>
    let declared := Bytes.number [a, b, c, d]
    if declared = 0 ∨ rest.length < declared then
      .error (.invalidSection (.badLength declared rest.length))
    else (ofBody kind declared (rest.take declared)).map (·, 5 + declared)
  | _ => .error (.invalidSection (.shortHeader bytes.length))

end Section

end CallWire
