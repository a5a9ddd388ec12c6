import CallWire.Count

namespace CallWire

abbrev Bytes := List UInt8

namespace Bytes

/-- The low `k` bytes of a number, least significant first. -/
def little : Nat → Nat → Bytes
  | 0, _ => []
  | k + 1, n => UInt8.ofNat n :: little k (n / 256)

/-- The number whose bytes these are, least significant first. -/
def number : Bytes → Nat
  | [] => 0
  | b :: bs => b.toNat + 256 * number bs

/-- How many bytes a number needs; zero needs none. -/
def span (n : Nat) : Nat := if n = 0 then 0 else 1 + span (n / 256)
termination_by n
decreasing_by omega

/-- Whether at least `n` bytes are there, without counting past them. -/
def holds : Nat → Bytes → Bool
  | 0, _ => true
  | _ + 1, [] => false
  | n + 1, _ :: bs => holds n bs

theorem holds_eq_decide (n : Nat) (bs : Bytes) : holds n bs = decide (n ≤ bs.length) := by
  induction bs generalizing n with
  | nil => cases n <;> simp [holds]
  | cons _ _ ih => cases n <;> simp [holds, ih]

theorem little_length (k n : Nat) : (little k n).length = k := by
  induction k generalizing n with
  | zero => rfl
  | succ k ih => simp [little, ih]

theorem number_lt (bs : Bytes) : number bs < 256 ^ bs.length := by
  induction bs with
  | nil => simp [number]
  | cons b bs ih =>
    have hb := b.toNat_lt
    simp only [number, List.length_cons, Nat.pow_succ]
    omega

theorem number_little (k n : Nat) : number (little k n) = n % 256 ^ k := by
  induction k generalizing n with
  | zero => simp [little, number, Nat.mod_one]
  | succ k ih =>
    have hk : 256 ^ (k + 1) = 256 * 256 ^ k := by rw [Nat.pow_succ, Nat.mul_comm]
    have hb : (2 : Nat) ^ 8 = 256 := rfl
    simp only [little, number, ih, UInt8.toNat_ofNat', hk, hb, Nat.mod_mul]

theorem little_number (bs : Bytes) : little bs.length (number bs) = bs := by
  induction bs with
  | nil => rfl
  | cons b bs ih =>
    have hb := b.toNat_lt
    have hq : (b.toNat + 256 * number bs) / 256 = number bs := by omega
    have hr : UInt8.ofNat (b.toNat + 256 * number bs) = b := by
      apply UInt8.toNat_inj.mp
      simp only [UInt8.toNat_ofNat']
      omega
    simp only [List.length_cons, little, number, hq, hr, ih]

end Bytes

end CallWire
