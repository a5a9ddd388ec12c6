import CallWire.Value

namespace CallWire

namespace Value

def requireEach (expected : Value) : List Value → Except Fault Unit
  | [] => .ok ()
  | v :: vs => do
    v.requireShape expected
    requireEach expected vs

def newVector (element : Value) : Value := vector element.blank []

def vectorOf (element : Value) (items : List Value) : Except Fault Value := do
  requireEach element.blank items
  return vector element.blank items

def push : Value → Value → Except Fault Value
  | vector t items, item => do
    item.requireShape t
    return vector t (items ++ [item])
  | v, _ => .error (.typeMismatch "vec" v.shape)

def newArray (element : Value) (length : Nat) : Except Fault Value :=
  if length ≤ maxArrayLength then
    .ok (array element.blank length (List.replicate length element.blank.blank))
  else .error (.limitExceeded .arrayLength length maxArrayLength)

def arrayOf (element : Value) (length : Nat) (items : List Value) : Except Fault Value := do
  if items.length ≠ length then throw (.arityMismatch .arrayElements length items.length)
  requireEach element.blank items
  return array element.blank length items

/-- Replaces one field; the new one has the shape of the old. -/
def setField (what : Counted) (fields : List Value) (index : Nat) (field : Value) :
    Except Fault (List Value) :=
  match fields[index]? with
  | none => .error (.arityMismatch what fields.length (Count.next index))
  | some old => do
    field.requireShape old
    return fields.set index field

def set : Value → Nat → Value → Except Fault Value
  | array t n items, index, item => do
    item.requireShape t
    if index < items.length then return array t n (items.set index item)
    else throw (.arityMismatch .arrayIndex n (Count.next index))
  | struct fields, index, field => struct <$> setField .structFields fields index field
  | tuple fields, index, field => tuple <$> setField .tupleFields fields index field
  | v, _, _ => .error (.typeMismatch "array, struct or tuple" v.shape)

def newEnum (variants : List (List Value)) : Except Fault Value :=
  if 0 < variants.length ∧ variants.length ≤ maxVariants then
    let blanks := variants.map blankAll
    .ok (enum blanks 0 (blanks.headD []))
  else .error (.invalidSchema (.enumVariants variants.length))

def select : Value → UInt8 → List Value → Except Fault Value
  | enum variants _ _, tag, payload =>
    match variants[tag.toNat]? with
    | none => .error (.invalidEnumTag tag.toNat variants.length)
    | some fields => do
      if payload.length ≠ fields.length then
        throw (.arityMismatch (.payload tag) fields.length payload.length)
      requireShapes payload fields
      return enum variants tag payload
  | v, _, _ => .error (.typeMismatch "enum" v.shape)

/-- The values directly inside a vector, an array, a struct or a tuple. -/
def parts : Value → List Value
  | vector _ items => items
  | array _ _ items => items
  | struct fields => fields
  | tuple fields => fields
  | _ => []

end Value

end CallWire
