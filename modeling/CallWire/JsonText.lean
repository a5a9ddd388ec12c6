import CallWire.Json
import CallWire.Utf8

namespace CallWire

structure JsonNumeral where
  minus : Bool
  whole : List Nat
  fraction : Option (List Nat)
  exponent : Option Int

inductive JsonUnit where
  | byte (b : UInt8)
  | escaped (n : Nat)

abbrev JsonQuoted := List JsonUnit

/-- The spelling of a document. Numbers and quoted texts are kept as written, since a part that
nobody asks for only has to be well spelled. -/
inductive JsonText where
  | null
  | bool (b : Bool)
  | number (n : JsonNumeral)
  | quoted (q : JsonQuoted)
  | array (items : List JsonText)
  | object (members : List (JsonQuoted × JsonText))

namespace JsonText

def isSpace (b : UInt8) : Bool := b == 0x20 || b == 0x0A || b == 0x0D || b == 0x09

def skip (bs : Bytes) : Bytes := bs.dropWhile isSpace

def isDigit (b : UInt8) : Bool := 0x30 ≤ b && b ≤ 0x39

def digitValue (b : UInt8) : Nat := b.toNat - 0x30

def digits (bs : Bytes) : List Nat × Bytes :=
  ((bs.takeWhile isDigit).map digitValue, bs.dropWhile isDigit)

def fraction : Bytes → Option (Option (List Nat) × Bytes)
  | 0x2E :: bs =>
    match digits bs with
    | ([], _) => none
    | (ds, rest) => some (some ds, rest)
  | bs => some (none, bs)

def naturalOf (ds : List Nat) : Nat := ds.foldl (fun n d => 10 * n + d) 0

def exponent : Bytes → Option (Option Int × Bytes)
  | b :: bs =>
    if b = 0x65 ∨ b = 0x45 then
      let (minus, bs) :=
        match bs with
        | 0x2B :: bs => (false, bs)
        | 0x2D :: bs => (true, bs)
        | bs => (false, bs)
      match digits bs with
      | ([], _) => none
      | (ds, rest) => some (some (if minus then -(naturalOf ds : Int) else naturalOf ds), rest)
    else some (none, b :: bs)
  | [] => some (none, [])

def wholePart (bs : Bytes) : Option (List Nat × Bytes) :=
  match digits bs with
  | ([], _) => none
  | (0 :: _ :: _, _) => none
  | (ds, rest) => some (ds, rest)

def numeral (bs : Bytes) : Option (JsonNumeral × Bytes) := do
  let (minus, bs) :=
    match bs with
    | 0x2D :: bs => (true, bs)
    | bs => (false, bs)
  let (whole, bs) ← wholePart bs
  let (fraction, bs) ← fraction bs
  let (exponent, bs) ← exponent bs
  return (⟨minus, whole, fraction, exponent⟩, bs)

def hexDigit? (b : UInt8) : Option Nat :=
  if 0x30 ≤ b ∧ b ≤ 0x39 then some (b.toNat - 0x30)
  else if 0x61 ≤ b ∧ b ≤ 0x66 then some (b.toNat - 0x61 + 10)
  else if 0x41 ≤ b ∧ b ≤ 0x46 then some (b.toNat - 0x41 + 10)
  else none

def escape : Bytes → Option (JsonUnit × Bytes)
  | 0x22 :: bs => some (.byte 0x22, bs)
  | 0x5C :: bs => some (.byte 0x5C, bs)
  | 0x2F :: bs => some (.byte 0x2F, bs)
  | 0x62 :: bs => some (.byte 0x08, bs)
  | 0x66 :: bs => some (.byte 0x0C, bs)
  | 0x6E :: bs => some (.byte 0x0A, bs)
  | 0x72 :: bs => some (.byte 0x0D, bs)
  | 0x74 :: bs => some (.byte 0x09, bs)
  | 0x75 :: a :: b :: c :: d :: bs => do
    let a ← hexDigit? a
    let b ← hexDigit? b
    let c ← hexDigit? c
    let d ← hexDigit? d
    return (.escaped (((a * 16 + b) * 16 + c) * 16 + d), bs)
  | _ => none

/-- The rest of a quoted text, up to its closing quote; control characters are refused. -/
def quotedRest : Nat → Bytes → List JsonUnit → Option (JsonQuoted × Bytes)
  | 0, _, _ => none
  | _, [], _ => none
  | steps + 1, b :: bs, done =>
    if b = 0x22 then some (done.reverse, bs)
    else if b = 0x5C then do
      let (u, bs) ← escape bs
      quotedRest steps bs (u :: done)
    else if b < 0x20 then none
    else quotedRest steps bs (.byte b :: done)

def quotedText (bs : Bytes) : Option (JsonQuoted × Bytes) := quotedRest (bs.length + 1) bs []

mutual

/-- A value at the front, after white space. Every step down reads a byte, so that the bytes
bound the steps. -/
def value : Nat → Bytes → Option (JsonText × Bytes)
  | 0, _ => none
  | steps + 1, bs =>
    match skip bs with
    | 0x6E :: 0x75 :: 0x6C :: 0x6C :: rest => some (null, rest)
    | 0x74 :: 0x72 :: 0x75 :: 0x65 :: rest => some (bool true, rest)
    | 0x66 :: 0x61 :: 0x6C :: 0x73 :: 0x65 :: rest => some (bool false, rest)
    | 0x22 :: rest => (quotedText rest).map fun (q, rest) => (quoted q, rest)
    | 0x5B :: rest =>
      match skip rest with
      | 0x5D :: rest => some (array [], rest)
      | rest => (items steps rest []).map fun (js, rest) => (array js, rest)
    | 0x7B :: rest =>
      match skip rest with
      | 0x7D :: rest => some (object [], rest)
      | rest => (members steps rest []).map fun (ms, rest) => (object ms, rest)
    | rest => (numeral rest).map fun (n, rest) => (number n, rest)

def items : Nat → Bytes → List JsonText → Option (List JsonText × Bytes)
  | 0, _, _ => none
  | steps + 1, bs, done => do
    let (j, rest) ← value steps bs
    match skip rest with
    | 0x2C :: rest => items steps rest (j :: done)
    | 0x5D :: rest => some ((j :: done).reverse, rest)
    | _ => none

def members : Nat → Bytes → List (JsonQuoted × JsonText) →
    Option (List (JsonQuoted × JsonText) × Bytes)
  | 0, _, _ => none
  | steps + 1, bs, done => do
    let 0x22 :: rest := skip bs | none
    let (key, rest) ← quotedText rest
    let 0x3A :: rest := skip rest | none
    let (j, rest) ← value steps rest
    match skip rest with
    | 0x2C :: rest => members steps rest ((key, j) :: done)
    | 0x7D :: rest => some (((key, j) :: done).reverse, rest)
    | _ => none

end

def parse (bs : Bytes) : Option JsonText := do
  let (j, rest) ← value (2 * bs.length + 2) bs
  if (skip rest).isEmpty then some j else none

/-- The bytes that escaped numbers stand for; beyond the basic plane they come in pairs. -/
def unquoteBytes : JsonQuoted → Option Bytes
  | [] => some []
  | .byte b :: us => (b :: ·) <$> unquoteBytes us
  | .escaped n :: us =>
    if 0xD800 ≤ n ∧ n < 0xDC00 then
      match us with
      | .escaped m :: us =>
        if 0xDC00 ≤ m ∧ m < 0xE000 then
          let c := Char.ofNat (0x10000 + (n - 0xD800) * 0x400 + (m - 0xDC00))
          (Utf8.encode (String.singleton c) ++ ·) <$> unquoteBytes us
        else none
      | _ => none
    else if 0xDC00 ≤ n ∧ n < 0xE000 then none
    else (Utf8.encode (String.singleton (Char.ofNat n)) ++ ·) <$> unquoteBytes us

def unquote (q : JsonQuoted) : Option String := do
  (Utf8.decode (← unquoteBytes q)).toOption

end JsonText

namespace JsonNumeral

def maxWord : Nat := 2 ^ 64 - 1

/-- Appends digits as long as the number stays within 64 bits; gives the digits left over. -/
def accumulate : List Nat → Nat → Nat × List Nat
  | [], n => (n, [])
  | d :: ds, n => if 10 * n + d ≤ maxWord then accumulate ds (10 * n + d) else (n, d :: ds)

def maxTens : Nat := 308

def tens (k : Nat) : Option Double := Double.ofNat (10 ^ k)

/-- Divides by the largest power of ten, again and again until nothing is left. -/
def shrink : Nat → Double → Option Double
  | 0, x => some x
  | times + 1, x =>
    if x.mantissa = 0 then some x else ((tens maxTens).bind x.div).bind (shrink times)

/-- Scales by a power of ten in steps of doubles; none when it passes the largest. -/
def scale (x : Double) (k : Int) : Option Double :=
  if maxTens < k then if x.mantissa = 0 then some x else none
  else if 0 ≤ k then (tens k.toNat).bind x.mul
  else
    let times := ((-k).toNat - 1) / maxTens
    do (← shrink times x).div (← tens ((-k).toNat - maxTens * times))

/-- A numeral with neither fraction nor exponent is an integer if 64 bits hold it; every other
one is a double, read from its first digits that 64 bits hold. -/
def number (n : JsonNumeral) : Option JsonNumber :=
  let (whole, spare) := accumulate n.whole 0
  if spare.isEmpty ∧ n.fraction.isNone ∧ n.exponent.isNone then
    if !n.minus then some (.natural whole)
    else if 0 < whole ∧ whole ≤ 2 ^ 63 then some (.negative whole)
    else (Double.ofNat whole).map (.real true)
  else
    let fraction := n.fraction.getD []
    let (mantissa, unread) := accumulate fraction whole
    let places : Int := (spare.length : Int) - (fraction.length - unread.length : Nat)
    do
      let x ← Double.ofNat mantissa
      return .real n.minus (← scale x (places + n.exponent.getD 0))

/-- The natural number a numeral spells, below a bound; a sign, a fraction or an exponent spells
none. -/
def natural? (bound : Nat) (n : JsonNumeral) : Option Nat :=
  if n.minus ∨ n.fraction.isSome ∨ n.exponent.isSome then none
  else
    let value := JsonText.naturalOf n.whole
    if value < bound then some value else none

end JsonNumeral

namespace JsonText

mutual

/-- The tree that a document spells, if every text and number in it can be read and nothing is
nested deeper than `depth`. -/
def json? : Nat → JsonText → Option Json
  | _, null => some .null
  | _, bool b => some (.bool b)
  | _, number n => n.number.map .number
  | _, quoted q => (unquote q).map .string
  | 0, array _ => none
  | depth + 1, array items => (jsonItems? depth items).map .array
  | 0, object _ => none
  | depth + 1, object members => (jsonMembers? depth members).map .object

def jsonItems? : Nat → List JsonText → Option (List Json)
  | _, [] => some []
  | depth, j :: js => do
    let head ← json? depth j
    return head :: (← jsonItems? depth js)

def jsonMembers? : Nat → List (JsonQuoted × JsonText) → Option (List (String × Json))
  | _, [] => some []
  | depth, (key, j) :: js => do
    let key ← unquote key
    let head ← json? depth j
    return (key, head) :: (← jsonMembers? depth js)

end

end JsonText

namespace Json

/-- How deeply a document read as a tree may be nested. -/
def maxNesting : Nat := 127

def parse (text : String) : Option Json := do
  (← JsonText.parse (Utf8.encode text)).json? maxNesting

end Json

end CallWire
