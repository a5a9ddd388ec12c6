import CallWire.Count

namespace CallWire

/-- A finite double without its sign, `mantissa * 2 ^ exponent`. -/
structure Double where
  mantissa : Nat
  exponent : Int
  deriving DecidableEq, Repr

namespace Double

def zero : Double := ⟨0, -1074⟩

def shift (num den : Nat) (k : Int) : Nat × Nat :=
  (num * 2 ^ k.toNat, den * 2 ^ (-k).toNat)

def nearest (num den : Nat) : Nat :=
  let q := num / den
  let twice := 2 * (num % den)
  if den < twice ∨ (twice = den ∧ q % 2 = 1) then q + 1 else q

/-- The double nearest to a fraction; none when it passes the largest. -/
def ofRatio (num den : Nat) : Option Double :=
  if num = 0 then some zero
  else
    let guess : Int := (Nat.log2 num : Int) - Nat.log2 den - 52
    let (n, d) := shift num den (-guess)
    let exponent := max (if 2 ^ 52 ≤ n / d then guess else guess - 1) (-1074)
    let (n, d) := shift num den (-exponent)
    let m := nearest n d
    let rounded : Double := if m = 2 ^ 53 then ⟨2 ^ 52, exponent + 1⟩ else ⟨m, exponent⟩
    if rounded.exponent ≤ 971 then some rounded else none

def ofNat (n : Nat) : Option Double := ofRatio n 1

def ratio (x : Double) : Nat × Nat := shift x.mantissa 1 x.exponent

def mul (x y : Double) : Option Double :=
  ofRatio (x.ratio.1 * y.ratio.1) (x.ratio.2 * y.ratio.2)

def div (x y : Double) : Option Double :=
  ofRatio (x.ratio.1 * y.ratio.2) (x.ratio.2 * y.ratio.1)

structure Decimal where
  digits : Nat
  exponent : Int
  deriving DecidableEq, Repr

/-- Of the two neighbours of a value on the grid of `10 ^ k`, the nearer of those that read back
as the double, if any does. -/
def onGrid (x : Double) (k : Int) : Option Decimal :=
  let quarter := fun (i : Nat) =>
    (shift i 1 (x.exponent - 2)).1 * 10 ^ (-k).toNat
  let unit := (shift 1 1 (x.exponent - 2)).2 * 10 ^ k.toNat
  let value := quarter (4 * x.mantissa)
  let gap := if x.mantissa = 2 ^ 52 ∧ -1074 < x.exponent then 1 else 2
  let low := quarter (4 * x.mantissa - gap)
  let high := quarter (4 * x.mantissa + 2)
  let even := x.mantissa % 2 = 0
  let readsBack := fun (c : Nat) =>
    (low < c * unit ∨ (even ∧ low = c * unit)) ∧ (c * unit < high ∨ (even ∧ high = c * unit))
  let below := value / unit
  let toBelow := value - below * unit
  let toAbove := (below + 1) * unit - value
  if readsBack below ∧ readsBack (below + 1) then
    if toBelow < toAbove ∨ (toBelow = toAbove ∧ below % 2 = 0) then some ⟨below, k⟩
    else some ⟨below + 1, k⟩
  else if readsBack below then some ⟨below, k⟩
  else if readsBack (below + 1) then some ⟨below + 1, k⟩
  else none

def firstGrid (x : Double) : Nat → Int → Decimal
  | 0, k => ⟨0, k⟩
  | steps + 1, k => (onGrid x k).getD (firstGrid x steps (k - 1))

/-- The decimal with the fewest digits that reads back as the double, and the nearest of those. -/
def shortest (x : Double) : Decimal :=
  firstGrid x 40 (((Nat.log2 x.mantissa : Int) + x.exponent) * 1233 / 4096 + 2)

def zeros (n : Nat) : String := String.ofList (List.replicate n '0')

/-- Positional from `1e-5` up to `1e16`, always with a point; otherwise with an exponent. -/
def Decimal.text (d : Decimal) : String :=
  let digits := toString d.digits
  let point := digits.length + d.exponent
  if 0 ≤ d.exponent ∧ point ≤ 16 then digits ++ zeros d.exponent.toNat ++ ".0"
  else if 0 < point ∧ point ≤ 16 then
    String.ofList (digits.toList.take point.toNat) ++ "." ++
      String.ofList (digits.toList.drop point.toNat)
  else if -5 < point ∧ point ≤ 0 then "0." ++ zeros (-point).toNat ++ digits
  else
    let exponent := toString (point - 1)
    match digits.toList with
    | [d] => String.ofList [d] ++ "e" ++ exponent
    | d :: ds => String.ofList (d :: '.' :: ds) ++ "e" ++ exponent
    | [] => "0.0"

def text (x : Double) : String := if x.mantissa = 0 then "0.0" else x.shortest.text

end Double

end CallWire
