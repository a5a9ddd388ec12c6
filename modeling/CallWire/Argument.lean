import CallWire.Datum
import CallWire.Numeral
import CallWire.Template

namespace CallWire

namespace Argument

def maxNatural : Nat := 2 ^ 128 - 1

def maxInteger : Nat := 2 ^ 127 - 1

/-- The fault of a numeral that cannot be read as `target`. -/
def numeralFault (width : Width) (target text : String) : NumeralFault → Fault
  | .tooLarge =>
    .outOfRange width (.overflow (String.ofList (Blank.trim text.toList)) target)
  | _ => .invalidLiteral target text

/-- Whether a text spells a negative integer. -/
def isNegative (cs : List Char) : Bool :=
  match Numeral.signed maxInteger cs with
  | .ok n => n < 0
  | .error _ => false

/-- Digits of a natural number: hexadecimal after `0x`, decimal otherwise. -/
def naturalDigits : List Char → Except NumeralFault Nat
  | '0' :: 'x' :: cs => Numeral.unsigned 16 maxNatural cs
  | '0' :: 'X' :: cs => Numeral.unsigned 16 maxNatural cs
  | cs => Numeral.unsigned 10 maxNatural cs

/-- Reads a natural number from a text with white space around it. A negative number is out of
range, while what is no number at all is no literal of the target. -/
def naturalText (width : Width) (target text : String) : Except Fault Nat :=
  let cs := Blank.trim text.toList
  match naturalDigits cs with
  | .ok n => .ok n
  | .error f =>
    if isNegative cs then .error (.outOfRange width (.negative (String.ofList cs)))
    else .error (numeralFault width target text f)

def naturalOf (width : Width) (target : String) : Datum → Except Fault Nat
  | .natural n => .ok n
  | .integer n =>
    if 0 ≤ n then .ok n.toNat else .error (.outOfRange width (.negative (toString n)))
  | .text s => naturalText width target s
  | d => .error (.typeMismatch target d.kindName)

def natural (width : Width) (target : String) (d : Datum) : Except Fault Nat := do
  let n ← naturalOf width target d
  if n ≤ width.unsignedMax then return n
  else throw (.outOfRange width (.above n width.unsignedMax))

def integer (width : Width) (target : String) : Datum → Except Fault Int
  | .integer n => .ok n
  | .natural n => if n ≤ maxInteger then .ok n else .error (.outOfRange width (.aboveSigned n))
  | .text s =>
    match Numeral.signed maxInteger (Blank.trim s.toList) with
    | .ok n => .ok n
    | .error f => .error (numeralFault width target s f)
  | d => .error (.typeMismatch target d.kindName)

def bool : Datum → Except Fault Bool
  | .bool b => .ok b
  | .text s =>
    match Blank.trim s.toList with
    | ['t', 'r', 'u', 'e'] => .ok true
    | ['f', 'a', 'l', 's', 'e'] => .ok false
    | _ => .error (.invalidLiteral "bool" s)
  | d => .error (.typeMismatch "bool" d.kindName)

def text : Datum → Except Fault String
  | .text s => .ok s
  | .natural n => .ok (toString n)
  | .integer n => .ok (toString n)
  | d => .error (.typeMismatch "str" d.kindName)

def primitive (p : Primitive) (d : Datum) : Except Fault Value :=
  match p with
  | .bool => .bool <$> bool d
  | .text => .text <$> text d
  | .word width false => do
    return .word (← Word.ofNat width (← natural width p.name d))
  | .word width true => do
    return .word (← Word.ofInt width (← integer width p.name d))
  | .varint width => do
    return .varint (← Varint.ofNat width (← natural width p.name d))

def checkArity (what : Counted) (expected found : Nat) : Except Fault Unit :=
  if found = expected then .ok () else .error (.arityMismatch what expected found)

end Argument

namespace Interface

mutual

/-- The value of a declared type that plain data stands for, `depth` references below the type
asked for. -/
def valueAt (i : Interface) (limits : Limits) (depth : Nat) (id : TypeId) (d : Datum) :
    Except Fault Value := do
  limits.checkDepth depth
  let decl ← i.resolve id
  match decl.layout, d with
  | .primitive p, d => Argument.primitive p d
  | .struct fields, .list items =>
    Argument.checkArity (.structType id) fields.length items.length
    return .struct (← fieldValues i limits (depth + 1) fields items)
  | .struct _, d => throw (.typeMismatch (Counted.structType id).name d.kindName)
  | .tuple fields, .list items =>
    Argument.checkArity (.tupleType id) fields.length items.length
    return .tuple (← fieldValues i limits (depth + 1) fields items)
  | .tuple _, d => throw (.typeMismatch (Counted.tupleType id).name d.kindName)
  | .vector element, .list items =>
    let blank ← i.templateAt limits (depth + 1) element
    Value.vectorOf blank (← itemValues i limits (depth + 1) element items)
  | .vector _, d => throw (.typeMismatch s!"vec type #{id}" d.kindName)
  | .array element length, .list items =>
    Argument.checkArity (.arrayType id) length items.length
    let blank ← i.templateAt limits (depth + 1) element
    Value.arrayOf blank length (← itemValues i limits (depth + 1) element items)
  | .array .., d => throw (.typeMismatch (Counted.arrayType id).name d.kindName)
  | .enum _, .list [] => throw (.arityMismatch (.enumType id) 1 0)
  | .enum variants, .list (tag :: items) =>
    let tag ← Argument.natural .w8 "u8" tag
    let some fields := variants[tag]? | throw (.invalidEnumTag tag variants.length)
    Argument.checkArity (.variant id tag) fields.length items.length
    let payload ← fieldValues i limits (depth + 1) fields items
    (← i.templateAt limits depth id).select (UInt8.ofNat tag) payload
  | .enum _, d => throw (.typeMismatch (Counted.enumType id).name d.kindName)
termination_by sizeOf d

def fieldValues (i : Interface) (limits : Limits) (depth : Nat) (fields : List TypeId) :
    List Datum → Except Fault (List Value)
  | [] => .ok []
  | d :: ds =>
    match fields with
    | [] => .ok []
    | field :: fields => do
      let head ← valueAt i limits depth field d
      return head :: (← fieldValues i limits depth fields ds)
termination_by items => sizeOf items

def itemValues (i : Interface) (limits : Limits) (depth : Nat) (element : TypeId) :
    List Datum → Except Fault (List Value)
  | [] => .ok []
  | d :: ds => do
    let head ← valueAt i limits depth element d
    return head :: (← itemValues i limits depth element ds)
termination_by items => sizeOf items

end

def value (i : Interface) (limits : Limits) (id : TypeId) (d : Datum) : Except Fault Value :=
  i.valueAt limits 0 id d

end Interface

end CallWire
