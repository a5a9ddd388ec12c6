import CallWire.Fault

namespace CallWire

/-- What a decoder or converter may be asked to take on; an absent bound is none. -/
structure Limits where
  frame : Option Nat := none
  collection : Option Nat := none
  depth : Option Nat := some 64
  expansion : Option Nat := some (2 ^ 18)
  deriving DecidableEq, Repr

namespace Limits

def unbounded : Limits := ⟨none, none, none, none⟩

def within (bound : Bound) (max : Option Nat) (value : Nat) : Except Fault Unit :=
  match max with
  | none => .ok ()
  | some max => if value ≤ max then .ok () else .error (.limitExceeded bound value max)

def checkFrame (l : Limits) (bytes : Nat) : Except Fault Unit := within .frame l.frame bytes

def checkCollection (l : Limits) (length : Nat) : Except Fault Unit :=
  within .collection l.collection length

def checkDepth (l : Limits) (depth : Nat) : Except Fault Unit := within .depth l.depth depth

def checkExpansion (l : Limits) (nodes : Nat) : Except Fault Unit :=
  within .expansion l.expansion nodes

theorem within_eq_ok_iff {bound : Bound} {max : Option Nat} {value : Nat} :
    within bound max value = .ok () ↔ ∀ m ∈ max, value ≤ m := by
  cases max with
  | none => simp [within]
  | some m => by_cases h : value ≤ m <;> simp [within, h]

end Limits

end CallWire
