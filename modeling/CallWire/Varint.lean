import CallWire.Cursor

namespace CallWire

/-- A variable-length integer with the width that bounds it. -/
structure Varint where
  width : Width
  val : Nat
  le_max : val ≤ width.unsignedMax
  deriving DecidableEq

namespace Varint

def zero (width : Width) : Varint := ⟨width, 0, Nat.zero_le _⟩

def ofNat (width : Width) (n : Nat) : Except Fault Varint :=
  if h : n ≤ width.unsignedMax then .ok ⟨width, n, h⟩
  else .error (.outOfRange width (.aboveCompactMax n width.unsignedMax))

/-- The bytes after the first in the big form, at least four. -/
def bigSpan (n : Nat) : Nat := max 4 (Bytes.span n)

/-- The shortest form; its two low bits name the form. -/
def bytes (n : Nat) : Bytes :=
  match Form.ofNumber n with
  | .single => Bytes.little 1 (4 * n)
  | .double => Bytes.little 2 (4 * n + 1)
  | .quad => Bytes.little 4 (4 * n + 2)
  | .big => UInt8.ofNat (4 * (bigSpan n - 4) + 3) :: Bytes.little (bigSpan n) n

def size (n : Nat) : Nat :=
  match Form.ofNumber n with
  | .single => 1
  | .double => 2
  | .quad => 4
  | .big => 1 + bigSpan n

def encode (width : Width) (n : Nat) : Except Fault Bytes :=
  if n ≤ width.unsignedMax then .ok (bytes n)
  else .error (.outOfRange width (.aboveCompact n width.unsignedMax))

def shortest (width : Width) (form : Form) (n : Nat) : Scan Nat :=
  if form.least ≤ n then pure n else throw (.outOfRange width (.notShortest n form))

def body (width : Width) (first : UInt8) : Scan Nat :=
  match Form.ofFirst first with
  | .single => pure (first.toNat / 4)
  | .double => do
    let tail ← Scan.take 1
    shortest width .double (Bytes.number (first :: tail) / 4)
  | .quad => do
    let tail ← Scan.take 3
    shortest width .quad (Bytes.number (first :: tail) / 4)
  | .big => do
    let span := first.toNat / 4 + 4
    if width.bytes < span then throw (.outOfRange width (.longBig span))
    let tail ← Scan.take span
    if tail.getLast? = some 0 then throw (.outOfRange width (.zeroHighByte span))
    shortest width .big (Bytes.number tail)

/-- Reads a number of at most the given width, and only in its shortest form. -/
def number (width : Width) : Scan Nat := do
  let n ← body width (← Scan.byte)
  if n ≤ width.unsignedMax then return n
  else throw (.outOfRange width (.decodedAbove n width.unsignedMax))

def scan (width : Width) : Scan Varint := do
  let n ← number width
  if h : n ≤ width.unsignedMax then return ⟨width, n, h⟩
  else throw (.outOfRange width (.decodedWide n))

/-- A length prefix; a length is a 32-bit number. -/
def encodeLength (length : Nat) : Except Fault Bytes :=
  if length ≤ maxLength then .ok (bytes length)
  else .error (.outOfRange .w32 (.longLength length))

def scanLength : Scan Nat := do
  let length ← number .w32
  Scan.ofExcept ((← get).limits.checkCollection length)
  return length

end Varint

end CallWire
