import CallWire.Count

namespace CallWire

/-- The widths an integer may have on the wire. -/
inductive Width where
  | w8 | w16 | w32 | w64 | w128
  deriving DecidableEq, Repr

namespace Width

def bits : Width → Nat
  | w8 => 8
  | w16 => 16
  | w32 => 32
  | w64 => 64
  | w128 => 128

def bytes (w : Width) : Nat := w.bits / 8

def unsignedMax (w : Width) : Nat := 2 ^ w.bits - 1

def signedMin (w : Width) : Int := -(2 ^ (w.bits - 1))

def signedMax (w : Width) : Int := 2 ^ (w.bits - 1) - 1

/-- The least number of a width, by signedness. -/
def least (w : Width) (signed : Bool) : Int := if signed then w.signedMin else 0

def greatest (w : Width) (signed : Bool) : Int :=
  if signed then w.signedMax else w.unsignedMax

def label (w : Width) : String := s!"{w.bits}-bit"

theorem bits_eq (w : Width) : w.bits = 8 * w.bytes := by cases w <;> rfl

theorem bytes_pos (w : Width) : 0 < w.bytes := by cases w <;> decide

theorem unsignedMax_lt (w : Width) : w.unsignedMax < 2 ^ w.bits := by cases w <;> decide

theorem least_le_zero (w : Width) (signed : Bool) : w.least signed ≤ 0 := by
  cases w <;> cases signed <;> decide

theorem zero_le_greatest (w : Width) (signed : Bool) : 0 ≤ w.greatest signed := by
  cases w <;> cases signed <;> decide

end Width

end CallWire
