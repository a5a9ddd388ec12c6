import CallWire.Count
import CallWire.Limits

namespace CallWire

/-- A place in the bytes being decoded, with the nodes charged so far that no byte pays for. -/
structure Cursor where
  rest : Bytes
  position : Nat
  expansion : Nat
  limits : Limits

/-- A decoding step; a failed one still says where it stopped. -/
abbrev Scan := EStateM Fault Cursor

namespace Cursor

def start (bytes : Bytes) (limits : Limits) : Cursor := ⟨bytes, 0, 0, limits⟩

def start? (bytes : Bytes) (limits : Limits) : Except Fault Cursor :=
  (limits.checkFrame bytes.length).map fun _ => start bytes limits

def remaining (c : Cursor) : Nat := c.rest.length

def isEmpty (c : Cursor) : Bool := c.rest.isEmpty

def advance (c : Cursor) (n : Nat) : Cursor :=
  { c with rest := c.rest.drop n, position := c.position + n }

end Cursor

namespace Scan

def ofExcept (e : Except Fault α) : Scan α := fun c =>
  match e with
  | .ok a => .ok a c
  | .error f => .error f c

/-- The next `n` bytes; when fewer are left, the cursor stays. -/
def take (n : Nat) : Scan Bytes := fun c =>
  if Bytes.holds n c.rest then .ok (c.rest.take n) (c.advance n)
  else .error (.truncated n c.remaining) c

def byte : Scan UInt8 := fun c =>
  match c.rest with
  | [] => .error (.truncated 1 0) c
  | b :: _ => .ok b (c.advance 1)

/-- Charges nodes that no byte pays for; a refused charge is not kept. -/
def charge (nodes : Nat) : Scan Unit := fun c =>
  let total := Count.add c.expansion nodes
  match c.limits.checkExpansion total with
  | .ok () => .ok () { c with expansion := total }
  | .error f => .error f c

def finish : Scan Unit := fun c =>
  if c.isEmpty then .ok () c else .error (.trailingBytes c.remaining) c

/-- Runs a step `n` times after the results already found, which are held last first. -/
def timesAfter (step : Scan α) : Nat → List α → Scan (List α)
  | 0, done => fun c => .ok done.reverse c
  | n + 1, done => fun c =>
    match step c with
    | .ok a c' => timesAfter step n (a :: done) c'
    | .error f c' => .error f c'

def times (step : Scan α) (n : Nat) : Scan (List α) := timesAfter step n []

end Scan

end CallWire
