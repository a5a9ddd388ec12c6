import CallWire.Value
import CallWire.Json

namespace CallWire

/-- Plain data: what a caller hands in as an argument and what is left of a decoded value once its
types are taken away. -/
inductive Datum where
  | bool (b : Bool)
  | text (s : String)
  | natural (n : Nat)
  | integer (n : Int)
  | list (items : List Datum)

namespace Datum

def kindName : Datum → String
  | bool _ => "bool input"
  | text _ => "string input"
  | natural _ => "unsigned input"
  | integer _ => "signed input"
  | list _ => "list input"

def bool? : Datum → Option Bool
  | bool b => some b
  | _ => none

def text? : Datum → Option String
  | text s => some s
  | _ => none

def natural? : Datum → Option Nat
  | natural n => some n
  | _ => none

def integer? : Datum → Option Int
  | integer n => some n
  | _ => none

def list? : Datum → Option (List Datum)
  | list items => some items
  | _ => none

/-- A number of a document, or its digits as a text when 64 bits do not hold it. -/
def naturalJson (n : Nat) : Json :=
  if n < 2 ^ 64 then .number (.natural n) else .string (toString n)

def integerJson (n : Int) : Json :=
  if n < 0 then
    if -(2 ^ 63) ≤ n then .number (.negative n.natAbs) else .string (toString n)
  else if n < 2 ^ 63 then .number (.natural n.toNat)
  else .string (toString n)

mutual

def json : Datum → Json
  | bool b => .bool b
  | text s => .string s
  | natural n => naturalJson n
  | integer n => integerJson n
  | list items => .array (jsonItems items)

def jsonItems : List Datum → List Json
  | [] => []
  | d :: ds => json d :: jsonItems ds

end

mutual

def write : Datum → String
  | bool b => if b then "true" else "false"
  | text s => Json.quote s
  | natural n => if n < 2 ^ 64 then toString n else Json.quote (toString n)
  | integer n =>
    if -(2 ^ 63) ≤ n ∧ n < 2 ^ 63 then toString n else Json.quote (toString n)
  | list items => "[" ++ ",".intercalate (writeItems items) ++ "]"

def writeItems : List Datum → List String
  | [] => []
  | d :: ds => write d :: writeItems ds

end

mutual

/-- Reads plain data from a document; neither nulls nor objects nor other numbers than integers
of 64 bits are plain data. -/
def ofJson : Json → Except Fault Datum
  | .bool b => .ok (bool b)
  | .string s => .ok (text s)
  | .number (.natural n) => .ok (natural n)
  | .number (.negative n) => .ok (integer (-(n : Int)))
  | .number (.real minus x) =>
    .error (.invalidLiteral "integer" (JsonNumber.real minus x).text)
  | .array items => list <$> ofJsonItems items
  | .null => .error (.typeMismatch "scalar or list" "null")
  | .object _ => .error (.typeMismatch "scalar or list" "object")

def ofJsonItems : List Json → Except Fault (List Datum)
  | [] => .ok []
  | j :: js => do
    let head ← ofJson j
    return head :: (← ofJsonItems js)

end

end Datum

namespace Value

mutual

/-- What a value says once its types are taken away. An enum is its tag before its payload. -/
def datum : Value → Datum
  | bool b => .bool b
  | text s => .text s
  | word n => if n.signed then .integer n.val else .natural n.val.toNat
  | varint n => .natural n.val
  | vector _ items => .list (data items)
  | array _ _ items => .list (data items)
  | struct fields => .list (data fields)
  | tuple fields => .list (data fields)
  | enum _ tag payload => .list (.natural tag.toNat :: data payload)

def data : List Value → List Datum
  | [] => []
  | v :: vs => datum v :: data vs

end

end Value

end CallWire
