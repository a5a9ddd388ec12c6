import CallWire.Argument
import CallWire.Proofs.BlankTrim
import CallWire.Proofs.Outcome

namespace CallWire

theorem Blank.isBlank_of_isDigit {c : Char} (h : c.isDigit = true) : isBlank c = false := by
  have hrange : 48 ≤ c.toNat ∧ c.toNat ≤ 57 := by
    simpa [Char.isDigit, UInt32.le_iff_toNat_le] using h
  simp [isBlank, UInt32.le_iff_toNat_le, ← UInt32.toNat_inj]
  omega

namespace Numeral

variable {bound n : Nat} {cs : List Char}

theorem digit?_digitChar {d : Nat} (h : d < 10) : digit? 10 d.digitChar = some d := by
  have hall : ∀ d < 10, digit? 10 (Nat.digitChar d) = some d := by decide
  exact hall d h

theorem digits_append (radix bound : Nat) (xs ys : List Char) (n : Nat) :
    digits radix bound (xs ++ ys) n = digits radix bound xs n >>= digits radix bound ys := by
  induction xs generalizing n with
  | nil => rfl
  | cons c xs ih =>
    rw [List.cons_append, digits, digits]
    split
    next => rfl
    next d _ =>
      split
      next => exact ih _
      next => rfl

theorem digits_digitChar {d : Nat} (hd : d < 10) (h : 10 * n + d ≤ bound) :
    digits 10 bound [d.digitChar] n = .ok (10 * n + d) := by
  rw [digits, digit?_digitChar hd]
  exact if_pos h

/-- The digits that a number is written with are read as that number. -/
theorem digits_toDigits (h : n ≤ bound) : digits 10 bound (Nat.toDigits 10 n) 0 = .ok n := by
  induction n using Nat.strongRecOn with
  | _ n ih =>
    rw [Nat.toDigits_eq_if (by decide)]
    split
    next hn => simpa using digits_digitChar (n := 0) hn (by omega)
    next hn =>
      rw [digits_append, ih (n / 10) (by omega) (by omega)]
      have hlast : digits 10 bound [(n % 10).digitChar] (n / 10) =
          .ok (10 * (n / 10) + n % 10) :=
        digits_digitChar (Nat.mod_lt n (by decide)) (by omega)
      rw [Nat.div_add_mod] at hlast
      exact hlast

theorem isDigit_toDigits {c : Char} (h : c ∈ Nat.toDigits 10 n) : c.isDigit = true :=
  Nat.isDigit_of_mem_toDigits (by decide) (by decide) h

theorem unsigned_of_isDigit {radix : Nat} (hne : cs ≠ []) (h : ∀ c ∈ cs, c.isDigit = true) :
    unsigned radix bound cs = digits radix bound cs 0 := by
  unfold unsigned
  split
  next => exact absurd rfl hne
  next => exact absurd (h '+' List.mem_cons_self) (by decide)
  next => rfl

theorem magnitude_toDigits (h : n ≤ bound) :
    magnitude 10 bound (Nat.toDigits 10 n) = .ok n := by
  unfold magnitude
  split
  next he => exact absurd he Nat.toDigits_ne_nil
  next => exact digits_toDigits h

theorem signed_toDigits (h : n ≤ bound) : signed bound (Nat.toDigits 10 n) = .ok (n : Int) := by
  have hdigit : ∀ c ∈ Nat.toDigits 10 n, c.isDigit = true := fun c => isDigit_toDigits
  unfold signed
  split
  next he => exact absurd he Nat.toDigits_ne_nil
  next he =>
    rw [he] at hdigit
    exact absurd (hdigit '-' List.mem_cons_self) (by decide)
  next he =>
    rw [he] at hdigit
    exact absurd (hdigit '+' List.mem_cons_self) (by decide)
  next => rw [digits_toDigits h]; rfl

theorem signed_toString {n : Int} (hlo : -(bound : Int) - 1 ≤ n) (hhi : n ≤ bound) :
    signed bound (toString n).toList = .ok n := by
  rw [Int.toString_eq_repr, Int.repr_eq_if]
  split
  next hn =>
    rw [Nat.toList_repr, signed_toDigits (by omega), Int.toNat_of_nonneg hn]
  next hn =>
    have hminus : ("-" ++ (-n).toNat.repr).toList = '-' :: Nat.toDigits 10 (-n).toNat := by
      rw [String.toList_append, Nat.toList_repr]
      rfl
    rw [hminus, signed, magnitude_toDigits (by omega)]
    have hneg : -((-n).toNat : Int) = n := by omega
    exact congrArg Except.ok hneg

end Numeral

namespace Argument

variable {n : Nat}

theorem trim_toDigits (n : Nat) : Blank.trim (Nat.toDigits 10 n) = Nat.toDigits 10 n :=
  Blank.trim_eq_self fun _ hc => Blank.isBlank_of_isDigit (Numeral.isDigit_toDigits hc)

theorem trim_toString (n : Int) : Blank.trim (toString n).toList = (toString n).toList := by
  apply Blank.trim_eq_self
  rw [Int.toString_eq_repr, Int.repr_eq_if]
  have hdigits : ∀ m : Nat, ∀ c ∈ m.repr.toList, Blank.isBlank c = false := by
    intro m c hc
    rw [Nat.toList_repr] at hc
    exact Blank.isBlank_of_isDigit (Numeral.isDigit_toDigits hc)
  split
  next => exact hdigits _
  next =>
    have hminus : "-".toList = ['-'] := rfl
    rw [String.toList_append, hminus, List.forall_mem_append]
    exact ⟨List.forall_mem_singleton.mpr (by decide), hdigits _⟩

/-- No decimal spelling starts like a hexadecimal one. -/
theorem naturalDigits_toDigits (h : n ≤ maxNatural) :
    naturalDigits (Nat.toDigits 10 n) = .ok n := by
  have hdigit : ∀ c ∈ Nat.toDigits 10 n, c.isDigit = true := fun c => Numeral.isDigit_toDigits
  unfold naturalDigits
  split
  next he =>
    rw [he] at hdigit
    exact absurd (hdigit 'x' (by simp)) (by decide)
  next he =>
    rw [he] at hdigit
    exact absurd (hdigit 'X' (by simp)) (by decide)
  next =>
    rw [Numeral.unsigned_of_isDigit Nat.toDigits_ne_nil hdigit]
    exact Numeral.digits_toDigits h

theorem naturalText_toString (width : Width) (target : String) (h : n ≤ maxNatural) :
    naturalText width target (toString n) = .ok n := by
  have hdigits : naturalDigits (Blank.trim (toString n).toList) = .ok n := by
    rw [Nat.toString_eq_repr, Nat.toList_repr, trim_toDigits, naturalDigits_toDigits h]
  simp only [naturalText, hdigits]

end Argument

end CallWire
