namespace CallWire

namespace Blank

/-- The white space of Unicode. -/
def isBlank (c : Char) : Bool :=
  (0x09 ≤ c.val && c.val ≤ 0x0D) || c.val == 0x20 || c.val == 0x85 || c.val == 0xA0 ||
  c.val == 0x1680 || (0x2000 ≤ c.val && c.val ≤ 0x200A) || c.val == 0x2028 || c.val == 0x2029 ||
  c.val == 0x202F || c.val == 0x205F || c.val == 0x3000

def trimStart (cs : List Char) : List Char := cs.dropWhile isBlank

/-- Drops white space at both ends. -/
def trim (cs : List Char) : List Char := (trimStart (trimStart cs).reverse).reverse

end Blank

/-- Why a text is no integer of the wanted range. -/
inductive NumeralFault where
  | empty
  | badDigit
  | tooLarge
  deriving DecidableEq, Repr

namespace Numeral

/-- Digits beyond nine are letters of either case. -/
def digit? (radix : Nat) (c : Char) : Option Nat :=
  let d := if '0' ≤ c ∧ c ≤ '9' then some (c.toNat - '0'.toNat)
    else if 'a' ≤ c ∧ c ≤ 'z' then some (c.toNat - 'a'.toNat + 10)
    else if 'A' ≤ c ∧ c ≤ 'Z' then some (c.toNat - 'A'.toNat + 10)
    else none
  d.filter (· < radix)

/-- Reads digits from the left and stops at the first that is none or passes the bound. -/
def digits (radix bound : Nat) : List Char → Nat → Except NumeralFault Nat
  | [], n => .ok n
  | c :: cs, n =>
    match digit? radix c with
    | none => .error .badDigit
    | some d =>
      if radix * n + d ≤ bound then digits radix bound cs (radix * n + d) else .error .tooLarge

def magnitude (radix bound : Nat) : List Char → Except NumeralFault Nat
  | [] => .error .badDigit
  | cs => digits radix bound cs 0

/-- Digits of a number up to `bound`, after an optional plus sign. -/
def unsigned (radix bound : Nat) : List Char → Except NumeralFault Nat
  | [] => .error .empty
  | '+' :: cs => magnitude radix bound cs
  | cs => digits radix bound cs 0

/-- Decimal digits of a number from `-bound - 1` to `bound`, after an optional sign. -/
def signed (bound : Nat) : List Char → Except NumeralFault Int
  | [] => .error .empty
  | '-' :: cs => (magnitude 10 (bound + 1) cs).map fun n => -(n : Int)
  | '+' :: cs => (magnitude 10 bound cs).map fun n => (n : Int)
  | cs => (digits 10 bound cs 0).map fun n => (n : Int)

end Numeral

end CallWire
