import CallWire.Cursor

namespace CallWire

/-- A fixed-width integer. -/
structure Word where
  width : Width
  signed : Bool
  val : Int
  least_le : width.least signed ≤ val
  le_greatest : val ≤ width.greatest signed
  deriving DecidableEq

namespace Word

def zero (width : Width) (signed : Bool) : Word :=
  ⟨width, signed, 0, width.least_le_zero signed, width.zero_le_greatest signed⟩

def ofNat (width : Width) (n : Nat) : Except Fault Word :=
  if h : n ≤ width.unsignedMax then
    .ok ⟨width, false, n, by simp [Width.least], by simpa [Width.greatest] using h⟩
  else .error (.outOfRange width (.aboveUnsigned n))

def ofInt (width : Width) (n : Int) : Except Fault Word :=
  if h : width.signedMin ≤ n ∧ n ≤ width.signedMax then .ok ⟨width, true, n, h.1, h.2⟩
  else .error (.outOfRange width (.outside n width.signedMin width.signedMax))

/-- The number that `bits` bits stand for, in two's complement when signed. -/
def interpret (width : Width) (signed : Bool) (n : Nat) : Int :=
  let low := n % 2 ^ width.bits
  if signed ∧ 2 ^ (width.bits - 1) ≤ low then (low : Int) - 2 ^ width.bits else low

theorem least_le_interpret (width : Width) (signed : Bool) (n : Nat) :
    width.least signed ≤ interpret width signed n := by
  cases width <;> cases signed <;>
    simp only [interpret, Width.least, Width.signedMin, Width.bits, Bool.false_eq_true,
      false_and, true_and, ↓reduceIte] <;> (try split) <;> omega

theorem interpret_le_greatest (width : Width) (signed : Bool) (n : Nat) :
    interpret width signed n ≤ width.greatest signed := by
  cases width <;> cases signed <;>
    simp only [interpret, Width.greatest, Width.signedMax, Width.unsignedMax, Width.bits,
      Bool.false_eq_true, false_and, true_and, ↓reduceIte] <;> (try split) <;> omega

def ofBits (width : Width) (signed : Bool) (n : Nat) : Word :=
  ⟨width, signed, interpret width signed n, least_le_interpret width signed n,
    interpret_le_greatest width signed n⟩

/-- The number modulo the span of its width, least significant byte first. -/
def encode (w : Word) : Bytes :=
  Bytes.little w.width.bytes (w.val % 2 ^ w.width.bits).toNat

def scan (width : Width) (signed : Bool) : Scan Word := do
  let bytes ← Scan.take width.bytes
  return ofBits width signed (Bytes.number bytes)

/-- Whether the last byte has its high bit set, which in two's complement is the sign. -/
def isNegative (bytes : Bytes) : Bool := bytes.getLast?.any (0x80 ≤ ·)

end Word

end CallWire
