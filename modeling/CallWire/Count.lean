namespace CallWire

-- Powers are those of the core library, whatever other libraries a module imports.
@[default_instance high]
instance (priority := high) power {α : Type} [NatPow α] : Pow α Nat := instPowNat

def maxArrayLength : Nat := 2 ^ 20

/-- The most variants of an enum; a tag is one byte. -/
def maxVariants : Nat := 256

def maxTypeNodes : Nat := 2 ^ 20

/-- The longest section name in bytes; its length is one byte. -/
def maxSectionName : Nat := 255

/-- The longest length a length prefix or a section header can state. -/
def maxLength : Nat := 2 ^ 32 - 1

namespace Count

/-- The largest count; sums and products of counts stop there. -/
def max : Nat := 2 ^ 64 - 1

def add (a b : Nat) : Nat := min (a + b) max

def mul (a b : Nat) : Nat := min (a * b) max

/-- The number after `n` on a machine word, which starts over after the largest. -/
def next (n : Nat) : Nat := (n + 1) % 2 ^ 64

theorem add_le_max (a b : Nat) : add a b ≤ max := Nat.min_le_right _ _

theorem next_of_lt {n : Nat} (h : n < max) : next n = n + 1 := by
  unfold max at h
  exact Nat.mod_eq_of_lt (by omega)

theorem next_max : next max = 0 := rfl

end Count

end CallWire
