import CallWire.Double

namespace CallWire

/-- A value in a settings text. Numbers with a fraction and dates are only known to be well spelled,
as no setting holds one. A table is a list of assignments to dotted keys. -/
inductive Toml where
  | string (s : String)
  | integer (n : Int)
  | bool (b : Bool)
  | real
  | moment
  | array (items : List Toml)
  | table (entries : List (List String × Toml))

inductive TomlLine where
  | table (path : List String)
  | tables (path : List String)
  | assign (path : List String) (value : Toml)

namespace Toml

abbrev Reader (α : Type) := List Char → Option (α × List Char)

def isBlank (c : Char) : Bool := c == ' ' || c == '\t'

def blanks (cs : List Char) : List Char := cs.dropWhile isBlank

def newline? : List Char → Option (List Char)
  | '\n' :: cs => some cs
  | '\r' :: '\n' :: cs => some cs
  | _ => none

/-- Printable characters and tabs; anything outside of ASCII is printable. -/
def isPrintable (c : Char) : Bool :=
  c == '\t' || (' ' ≤ c && c ≤ '~') || 0x80 ≤ c.toNat

def comment : List Char → List Char
  | '#' :: cs => cs.dropWhile isPrintable
  | cs => cs

/-- The end of a line, after blanks and a comment; the text may end there as well. -/
def lineEnd? (cs : List Char) : Option (List Char) :=
  match comment (blanks cs) with
  | [] => some []
  | cs => newline? cs

def gaps : Nat → List Char → List Char
  | 0, cs => cs
  | steps + 1, cs =>
    match newline? (comment (blanks cs)) with
    | some rest => gaps steps rest
    | none => blanks cs

def hexDigit? (c : Char) : Option Nat :=
  if '0' ≤ c ∧ c ≤ '9' then some (c.toNat - '0'.toNat)
  else if 'a' ≤ c ∧ c ≤ 'f' then some (c.toNat - 'a'.toNat + 10)
  else if 'A' ≤ c ∧ c ≤ 'F' then some (c.toNat - 'A'.toNat + 10)
  else none

def scalar (count : Nat) (cs : List Char) : Option (Char × List Char) := do
  let digits ← (cs.take count).mapM hexDigit?
  let n := digits.foldl (fun n d => 16 * n + d) 0
  if digits.length = count ∧ n.isValidChar then some (Char.ofNat n, cs.drop count) else none

def escape : Reader Char
  | 'b' :: cs => some ('\x08', cs)
  | 't' :: cs => some ('\t', cs)
  | 'n' :: cs => some ('\n', cs)
  | 'f' :: cs => some ('\x0c', cs)
  | 'r' :: cs => some ('\r', cs)
  | '"' :: cs => some ('"', cs)
  | '\\' :: cs => some ('\\', cs)
  | 'u' :: cs => scalar 4 cs
  | 'U' :: cs => scalar 8 cs
  | _ => none

/-- The rest of a text on one line, up to the quote that opened it; between double quotes a
backslash escapes. -/
def oneLine (quote : Char) : Nat → List Char → List Char → Option (String × List Char)
  | 0, _, _ => none
  | _, _, [] => none
  | steps + 1, done, c :: cs =>
    if c = quote then some (String.ofList done.reverse, cs)
    else if c = '\\' ∧ quote = '"' then do
      let (c, cs) ← escape cs
      oneLine quote steps (c :: done) cs
    else if isPrintable c then oneLine quote steps (c :: done) cs
    else none

def emptyLines : List Char → List Char
  | '\n' :: cs => emptyLines cs
  | '\r' :: '\n' :: cs => emptyLines cs
  | c :: cs => if isBlank c then emptyLines cs else c :: cs
  | [] => []

def lineJoin? (cs : List Char) : Option (List Char) := (newline? (blanks cs)).map emptyLines

/-- The rest of a text over several lines, up to three quotes; one or two more may stand before
them. -/
def manyLines (quote : Char) : Nat → List Char → List Char → Option (String × List Char)
  | 0, _, _ => none
  | _, _, [] => none
  | steps + 1, done, c :: cs =>
    if c = quote then
      let quotes := (c :: cs).takeWhile (· == quote)
      let rest := (c :: cs).dropWhile (· == quote)
      if quotes.length < 3 then manyLines quote steps (quotes ++ done) rest
      else if quotes.length < 6 then
        some (String.ofList ((quotes.drop 3) ++ done).reverse, rest)
      else none
    else if c = '\\' ∧ quote = '"' then
      match lineJoin? cs with
      | some rest => manyLines quote steps done rest
      | none => do
        let (c, cs) ← escape cs
        manyLines quote steps (c :: done) cs
    else
      match newline? (c :: cs) with
      | some rest => manyLines quote steps ('\n' :: done) rest
      | none => if isPrintable c then manyLines quote steps (c :: done) cs else none

/-- A line end right after the opening quotes is no part of the text. -/
def text (quote : Char) (cs : List Char) : Option (String × List Char) :=
  match cs with
  | a :: b :: rest =>
    if a = quote ∧ b = quote then
      manyLines quote (rest.length + 1) [] ((newline? rest).getD rest)
    else oneLine quote (cs.length + 1) [] cs
  | _ => oneLine quote (cs.length + 1) [] cs

def isDigit (c : Char) : Bool := '0' ≤ c && c ≤ '9'

/-- Digits with single underscores between them, after those already read. -/
def digitsAfter (radix : Nat) : List Nat → List Char → Option (List Nat × List Char)
  | done, '_' :: c :: cs =>
    match (hexDigit? c).filter (· < radix) with
    | some d => digitsAfter radix (d :: done) cs
    | none => none
  | done, c :: cs =>
    match (hexDigit? c).filter (· < radix) with
    | some d => digitsAfter radix (d :: done) cs
    | none => if c = '_' then none else some (done.reverse, c :: cs)
  | done, [] => some (done.reverse, [])

def digits (radix : Nat) : Reader (List Nat)
  | c :: cs => do
    let d ← (hexDigit? c).filter (· < radix)
    digitsAfter radix [d] cs
  | [] => none

def numberOf (radix : Nat) (ds : List Nat) : Nat := ds.foldl (fun n d => radix * n + d) 0

def sign : List Char → Bool × List Char
  | '+' :: cs => (false, cs)
  | '-' :: cs => (true, cs)
  | cs => (false, cs)

def decimal : Reader (List Nat)
  | '0' :: cs => some ([0], cs)
  | cs => digits 10 cs

def signed (minus : Bool) (n : Nat) : Int := if minus then -(n : Int) else n

def bounded (n : Int) : Option Toml :=
  if -(2 ^ 63) ≤ n ∧ n < 2 ^ 63 then some (integer n) else none

def integerOf : Reader Toml
  | '0' :: 'x' :: cs => do
    let (ds, cs) ← digits 16 cs
    return (← bounded (numberOf 16 ds), cs)
  | '0' :: 'o' :: cs => do
    let (ds, cs) ← digits 8 cs
    return (← bounded (numberOf 8 ds), cs)
  | '0' :: 'b' :: cs => do
    let (ds, cs) ← digits 2 cs
    return (← bounded (numberOf 2 ds), cs)
  | cs => do
    let (minus, cs) := sign cs
    let (ds, cs) ← decimal cs
    return (← bounded (signed minus (numberOf 10 ds)), cs)

def fraction? : List Char → Option (List Nat × List Char)
  | '.' :: cs => digits 10 cs
  | _ => none

def exponent? : List Char → Option (Int × List Char)
  | c :: cs => do
    if c ≠ 'e' ∧ c ≠ 'E' then none
    let (minus, cs) := sign cs
    let (ds, cs) ← digits 10 cs
    return (signed minus (numberOf 10 ds), cs)
  | [] => none

/-- Whether `n * 10 ^ k` is below the numbers that round beyond the largest double. -/
def isFinite (n : Nat) (k : Int) : Bool :=
  if n = 0 ∨ k < -400 - (Nat.log2 n : Int) then true
  else if 400 < k then false
  else (Double.ofRatio (n * 10 ^ k.toNat) (10 ^ (-k).toNat)).isSome

/-- A number with a fraction, an exponent or both; only a negative one may pass the largest
double. -/
def realOf (cs : List Char) : Option (Toml × List Char) := do
  let (minus, cs) := sign cs
  match cs with
  | 'i' :: 'n' :: 'f' :: cs => return (real, cs)
  | 'n' :: 'a' :: 'n' :: cs => return (real, cs)
  | cs =>
    let (whole, cs) ← decimal cs
    let (places, exponent, cs) ←
      match exponent? cs with
      | some (k, cs) => some ([], k, cs)
      | none => do
        let (places, cs) ← fraction? cs
        match exponent? cs with
        | some (k, cs) => some (places, k, cs)
        | none => some (places, 0, cs)
    if minus ∨ isFinite (numberOf 10 (whole ++ places)) (exponent - places.length) then
      return (real, cs)
    else none

def field (count low high : Nat) (cs : List Char) : Option (Nat × List Char) :=
  let ds := cs.take count
  let n := numberOf 10 (ds.map fun c => c.toNat - '0'.toNat)
  if ds.length = count ∧ ds.all isDigit ∧ low ≤ n ∧ n ≤ high then some (n, cs.drop count)
  else none

def mark (c : Char) : List Char → Option (List Char)
  | d :: cs => if c = d then some cs else none
  | [] => none

def daysIn (year month : Nat) : Nat :=
  if month = 2 then
    if year % 4 = 0 ∧ (year % 100 ≠ 0 ∨ year % 400 = 0) then 29 else 28
  else if month = 4 ∨ month = 6 ∨ month = 9 ∨ month = 11 then 30
  else 31

def date? (cs : List Char) : Option (List Char) := do
  let (year, cs) ← field 4 0 9999 cs
  let (month, cs) ← field 2 1 12 (← mark '-' cs)
  let (_, cs) ← field 2 1 (daysIn year month) (← mark '-' cs)
  return cs

def time? (cs : List Char) : Option (List Char) := do
  let (_, cs) ← field 2 0 23 cs
  let (_, cs) ← field 2 0 59 (← mark ':' cs)
  let (_, cs) ← field 2 0 60 (← mark ':' cs)
  match cs with
  | '.' :: c :: cs => if isDigit c then some (cs.dropWhile isDigit) else none
  | cs => some cs

def offset? : List Char → Option (List Char)
  | 'Z' :: cs => some cs
  | 'z' :: cs => some cs
  | c :: cs => do
    if c ≠ '+' ∧ c ≠ '-' then none
    let (_, cs) ← field 2 0 23 cs
    let (_, cs) ← field 2 0 59 (← mark ':' cs)
    return cs
  | [] => none

def momentOf (cs : List Char) : Option (Toml × List Char) :=
  match date? cs with
  | none => (time? cs).map (moment, ·)
  | some rest =>
    match rest with
    | c :: after =>
      if c = 'T' ∨ c = 't' ∨ c = ' ' then
        match time? after with
        | some after => some (moment, (offset? after).getD after)
        | none => some (moment, rest)
      else some (moment, rest)
    | [] => some (moment, [])

def number (cs : List Char) : Option (Toml × List Char) :=
  match momentOf cs with
  | some r => some r
  | none =>
    match realOf cs with
    | some r => some r
    | none => integerOf cs

def isBare (c : Char) : Bool :=
  isDigit c || ('a' ≤ c && c ≤ 'z') || ('A' ≤ c && c ≤ 'Z') || c == '_' || c == '-'

def simpleKey : Reader String
  | '"' :: cs => oneLine '"' (cs.length + 1) [] cs
  | '\'' :: cs => oneLine '\'' (cs.length + 1) [] cs
  | cs =>
    match cs.takeWhile isBare with
    | [] => none
    | key => some (String.ofList key, cs.dropWhile isBare)

/-- At most `count` simple keys with points between them, and blanks around each. -/
def simpleKeys : Nat → List Char → Option (List String × List Char)
  | 0, _ => none
  | count + 1, cs => do
    let (head, cs) ← simpleKey (blanks cs)
    match blanks cs with
    | '.' :: cs => do
      let (tail, cs) ← simpleKeys count cs
      return (head :: tail, cs)
    | cs => return ([head], cs)

/-- How deeply arrays and tables may be nested in a value, and how many simple keys a key may be
made of. -/
def maxNesting : Nat := 79

def key : Reader (List String) := simpleKeys maxNesting

def related (p q : List String) : Bool := p.isPrefixOf q || q.isPrefixOf p

def distinct : List (List String) → Bool
  | [] => true
  | p :: ps => ps.all (fun q => !related p q) && distinct ps

mutual

/-- A value, at most `depth` arrays and tables deep. -/
def value : Nat → Nat → List Char → Option (Toml × List Char)
  | 0, _, _ => none
  | steps + 1, depth, cs =>
    match cs with
    | '"' :: cs => (text '"' cs).map fun (s, cs) => (string s, cs)
    | '\'' :: cs => (text '\'' cs).map fun (s, cs) => (string s, cs)
    | 't' :: 'r' :: 'u' :: 'e' :: cs => some (bool true, cs)
    | 'f' :: 'a' :: 'l' :: 's' :: 'e' :: cs => some (bool false, cs)
    | '[' :: cs =>
      match depth with
      | 0 => none
      | depth + 1 => (items steps depth cs []).map fun (ts, cs) => (array ts, cs)
    | '{' :: cs =>
      match depth with
      | 0 => none
      | depth + 1 =>
        match blanks cs with
        | '}' :: cs => some (table [], cs)
        | cs =>
          match entries steps depth cs [] with
          | none => none
          | some (es, cs) => if distinct (es.map (·.1)) then some (table es, cs) else none
    | cs => number cs

def items : Nat → Nat → List Char → List Toml → Option (List Toml × List Char)
  | 0, _, _, _ => none
  | steps + 1, depth, cs, done =>
    match gaps cs.length cs with
    | ']' :: cs => some (done.reverse, cs)
    | cs => do
      let (t, cs) ← value steps depth cs
      match gaps cs.length cs with
      | ',' :: cs => items steps depth cs (t :: done)
      | ']' :: cs => some ((t :: done).reverse, cs)
      | _ => none

def entries : Nat → Nat → List Char → List (List String × Toml) →
    Option (List (List String × Toml) × List Char)
  | 0, _, _, _ => none
  | steps + 1, depth, cs, done => do
    let (path, cs) ← key cs
    let '=' :: cs := cs | none
    let (t, cs) ← value steps depth (blanks cs)
    match blanks cs with
    | ',' :: cs => entries steps depth cs ((path, t) :: done)
    | '}' :: cs => some (((path, t) :: done).reverse, cs)
    | _ => none

end

def line (cs : List Char) : Option (TomlLine × List Char) :=
  match cs with
  | '[' :: '[' :: cs => do
    let (path, cs) ← key cs
    let ']' :: ']' :: cs := cs | none
    return (.tables path, cs)
  | '[' :: cs => do
    let (path, cs) ← key cs
    let ']' :: cs := cs | none
    return (.table path, cs)
  | cs => do
    let (path, cs) ← key cs
    let '=' :: cs := cs | none
    let (t, cs) ← value (2 * cs.length + 2) maxNesting (blanks cs)
    return (.assign path t, cs)

def lines : Nat → List Char → Option (List TomlLine)
  | 0, _ => none
  | steps + 1, cs =>
    match gaps cs.length cs with
    | [] => some []
    | '#' :: cs => if (cs.dropWhile isPrintable).isEmpty then some [] else none
    | cs => do
      let (head, cs) ← line cs
      return head :: (← lines steps (← lineEnd? cs))

/-- Reads a settings text; a byte order mark may open it. -/
def parse (s : String) : Option (List TomlLine) :=
  match s.toList with
  | '\uFEFF' :: cs => lines (cs.length + 1) cs
  | cs => lines (cs.length + 1) cs

end Toml

end CallWire
