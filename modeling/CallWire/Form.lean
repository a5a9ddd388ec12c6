import CallWire.Count

namespace CallWire

/-- The layouts of a variable-length integer, named by the two low bits of its first byte. -/
inductive Form where
  | single | double | quad | big
  deriving DecidableEq, Repr

namespace Form

/-- The shortest form that holds a number. -/
def ofNumber (n : Nat) : Form :=
  if n < 2 ^ 6 then single
  else if n < 2 ^ 14 then double
  else if n < 2 ^ 30 then quad
  else big

def ofFirst (b : UInt8) : Form :=
  if b % 4 = 0 then single
  else if b % 4 = 1 then double
  else if b % 4 = 2 then quad
  else big

/-- The least number that needs this form. -/
def least : Form → Nat
  | single => 0
  | double => 2 ^ 6
  | quad => 2 ^ 14
  | big => 2 ^ 30

def name : Form → String
  | single => "SingleByte"
  | double => "DoubleByte"
  | quad => "FourByte"
  | big => "BigInt"

end Form

end CallWire
