import CallWire.Value

namespace CallWire

namespace Value

mutual

/-- The bytes of a value. Nothing in them says what type it has. -/
def encode : Value → Except Fault Bytes
  | bool b => .ok [if b then 1 else 0]
  | text s => do
    let length ← Varint.encodeLength s.utf8ByteSize
    return length ++ Utf8.encode s
  | word n => .ok n.encode
  | varint n => .ok (Varint.bytes n.val)
  | vector _ items => do
    let length ← Varint.encodeLength items.length
    return length ++ (← encodeAll items)
  | array _ _ items => encodeAll items
  | struct fields => encodeAll fields
  | tuple fields => encodeAll fields
  | enum _ tag payload => do
    return tag :: (← encodeAll payload)

def encodeAll : List Value → Except Fault Bytes
  | [] => .ok []
  | v :: vs => do
    let head ← encode v
    return head ++ (← encodeAll vs)

end

end Value

namespace Scan

def bool : Scan Bool := do
  match ← byte with
  | 0 => return false
  | 1 => return true
  | b => throw (.invalidBool b)

def text : Scan String := do
  let bytes ← take (← Varint.scanLength)
  match Utf8.decode bytes with
  | .ok s => return s
  | .error f => throw (.invalidUtf8 f)

/-- The length of a vector whose items take at least `size` bytes and are made of `nodes` values
each. A length that the bytes left cannot hold is refused before any item is read, and the values
that no byte pays for are charged. -/
def vectorLength (size nodes : Nat) : Scan Nat := do
  let length ← Varint.scanLength
  let needed := Count.mul length size
  let c ← get
  if !Bytes.holds needed c.rest then throw (.truncated needed c.remaining)
  charge (Count.mul length (nodes - size))
  return length

end Scan

namespace Value

mutual

/-- Reads a new value of the shape of a blank one. -/
def scan : Value → Scan Value
  | bool _ => bool <$> Scan.bool
  | text _ => text <$> Scan.text
  | word n => word <$> Word.scan n.width n.signed
  | varint n => varint <$> Varint.scan n.width
  | vector t _ => do
    let length ← Scan.vectorLength t.minSize t.nodes
    return vector t (← Scan.times (scan t) length)
  | array t n items => array t n <$> Scan.times (scan t) items.length
  | struct fields => struct <$> scanAll fields
  | tuple fields => tuple <$> scanAll fields
  | enum variants _ _ => do
    let tag ← Scan.byte
    if variants.length ≤ tag.toNat then throw (.invalidEnumTag tag.toNat variants.length)
    return enum variants tag (← scanVariant variants tag.toNat)

def scanAll : List Value → Scan (List Value)
  | [] => pure []
  | v :: vs => do
    let head ← scan v
    return head :: (← scanAll vs)

def scanVariant : List (List Value) → Nat → Scan (List Value)
  | [], _ => pure []
  | fields :: _, 0 => scanAll fields
  | _ :: variants, n + 1 => scanVariant variants n

end

end Value

/-- What decoding in place leaves behind: the value as far as it was replaced, what stopped the
decoding if anything did, and where. -/
structure Refill (α : Type) where
  value : α
  fault : Option Fault
  cursor : Cursor

namespace Value

mutual

/-- Decodes in place. Arrays, structs and tuples are replaced part by part; every other value is
read aside and replaced only as a whole. -/
def refill : Value → Cursor → Refill Value
  | array t n items, c =>
    let r := refillAll items c
    ⟨array t n r.value, r.fault, r.cursor⟩
  | struct fields, c =>
    let r := refillAll fields c
    ⟨struct r.value, r.fault, r.cursor⟩
  | tuple fields, c =>
    let r := refillAll fields c
    ⟨tuple r.value, r.fault, r.cursor⟩
  | v, c =>
    match scan v c with
    | .ok w c' => ⟨w, none, c'⟩
    | .error f c' => ⟨v, some f, c'⟩

def refillAll : List Value → Cursor → Refill (List Value)
  | [], c => ⟨[], none, c⟩
  | v :: vs, c =>
    match refill v c with
    | ⟨w, some f, c'⟩ => ⟨w :: vs, some f, c'⟩
    | ⟨w, none, c'⟩ =>
      let r := refillAll vs c'
      ⟨w :: r.value, r.fault, r.cursor⟩

end

end Value

end CallWire
