import CallWire.Fault
import CallWire.Numeral

namespace CallWire

inductive Primitive where
  | bool
  | text
  | word (width : Width) (signed : Bool)
  | varint (width : Width)
  deriving DecidableEq, Repr

namespace Primitive

def wordName : Width → Bool → String
  | .w8, false => "u8"
  | .w16, false => "u16"
  | .w32, false => "u32"
  | .w64, false => "u64"
  | .w128, false => "u128"
  | .w8, true => "i8"
  | .w16, true => "i16"
  | .w32, true => "i32"
  | .w64, true => "i64"
  | .w128, true => "i128"

def name : Primitive → String
  | bool => "bool"
  | text => "str"
  | word width signed => wordName width signed
  | varint .w8 => "compact<u8>"
  | varint .w16 => "compact<u16>"
  | varint .w32 => "compact<u32>"
  | varint .w64 => "compact<u64>"
  | varint .w128 => "compact<u128>"

def width? : List Char → Option Width
  | ['8'] => some .w8
  | ['1', '6'] => some .w16
  | ['3', '2'] => some .w32
  | ['6', '4'] => some .w64
  | ['1', '2', '8'] => some .w128
  | _ => none

def word? : List Char → Option (Width × Bool)
  | 'u' :: digits => (width? digits).map (·, false)
  | 'i' :: digits => (width? digits).map (·, true)
  | _ => none

def inner? : List Char → Option (List Char)
  | 'c' :: 'o' :: 'm' :: 'p' :: 'a' :: 'c' :: 't' :: '<' :: cs =>
    if cs.getLast? = some '>' then some cs.dropLast else none
  | _ => none

/-- Reads a name in lower case with nothing around it. -/
def read? (cs : List Char) : Option Primitive :=
  match inner? cs with
  | some inner =>
    match word? (Blank.trim inner) with
    | some (width, false) => some (varint width)
    | _ => none
  | none =>
    match cs with
    | ['b', 'o', 'o', 'l'] => some bool
    | ['s', 't', 'r'] => some text
    | ['s', 't', 'r', 'i', 'n', 'g'] => some text
    | _ => (word? cs).map fun (width, signed) => word width signed

/-- Reads a name in any case of its letters, with white space around it. -/
def parse (name : String) : Except Fault Primitive :=
  match read? ((Blank.trim name.toList).map Char.toLower) with
  | some p => .ok p
  | none => .error (.unsupportedType name)

end Primitive

/-- The outermost shape of a value. -/
inductive Kind where
  | primitive (p : Primitive)
  | vector | array | struct | tuple | enum
  deriving DecidableEq, Repr

namespace Kind

def name : Kind → String
  | primitive p => p.name
  | vector => "vec"
  | array => "array"
  | struct => "struct"
  | tuple => "tuple"
  | enum => "enum"

end Kind

end CallWire
