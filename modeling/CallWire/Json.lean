import CallWire.Double

namespace CallWire

/-- A number of a document: a natural number below `2 ^ 64`, the negative of a positive one up to
`2 ^ 63`, or else the nearest double. -/
inductive JsonNumber where
  | natural (n : Nat)
  | negative (n : Nat)
  | real (minus : Bool) (x : Double)
  deriving DecidableEq, Repr

namespace JsonNumber

def text : JsonNumber → String
  | natural n => toString n
  | negative n => "-" ++ toString n
  | real minus x => (if minus then "-" else "") ++ x.text

end JsonNumber

inductive Json where
  | null
  | bool (b : Bool)
  | number (n : JsonNumber)
  | string (s : String)
  | array (items : List Json)
  | object (members : List (String × Json))

namespace Json

/-- The characters that stand for one inside quotes. -/
def escape (c : Char) : List Char :=
  if c = '"' then ['\\', '"']
  else if c = '\\' then ['\\', '\\']
  else if c = '\n' then ['\\', 'n']
  else if c = '\r' then ['\\', 'r']
  else if c = '\t' then ['\\', 't']
  else if c.toNat = 8 then ['\\', 'b']
  else if c.toNat = 12 then ['\\', 'f']
  else if c.toNat < 32 then
    ['\\', 'u', '0', '0', Nat.digitChar (c.toNat / 16), Nat.digitChar (c.toNat % 16)]
  else [c]

def quote (s : String) : String := String.ofList ('"' :: s.toList.flatMap escape ++ ['"'])

mutual

/-- The shortest spelling, with no space between tokens. -/
def write : Json → String
  | null => "null"
  | bool b => if b then "true" else "false"
  | number n => n.text
  | string s => quote s
  | array items => "[" ++ ",".intercalate (writeItems items) ++ "]"
  | object members => "\x7b" ++ ",".intercalate (writeMembers members) ++ "\x7d"

def writeItems : List Json → List String
  | [] => []
  | j :: js => write j :: writeItems js

def writeMembers : List (String × Json) → List String
  | [] => []
  | (key, j) :: js => (quote key ++ ":" ++ write j) :: writeMembers js

end

end Json

end CallWire
