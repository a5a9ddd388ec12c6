import CallWire.Proofs.NumeralText
import Mathlib.Data.Nat.Digits.Defs

namespace CallWire

namespace Numeral

variable {radix bound n m d : Nat} {c : Char} {cs ds : List Char}

/-- A character stands for a digit below the radix, as a letter in either case. -/
def Digit (radix : Nat) (c : Char) (d : Nat) : Prop :=
  d < radix ∧ (c = d.digitChar ∨ c = d.digitChar.toUpper)

theorem lt_of_digit? (h : digit? radix c = some d) : c.toNat < 128 ∧ d < radix := by
  simp only [digit?, Option.filter_eq_some_iff, decide_eq_true_eq] at h
  obtain ⟨hrange, hd⟩ := h
  refine ⟨?_, hd⟩
  by_contra hc
  have hnot : ∀ last : Char, last.toNat < 128 → ¬ c ≤ last := by
    intro last hlast hle
    have := UInt32.le_iff_toNat_le.mp (Char.le_def.mp hle)
    exact hc (Nat.lt_of_le_of_lt this hlast)
  simp [hnot] at hrange

theorem digit?_sixteen : ∀ k < 128, ∀ d < 16, digit? 16 (Char.ofNat k) = some d →
    Char.ofNat k = d.digitChar ∨ Char.ofNat k = d.digitChar.toUpper := by
  decide +kernel

theorem digit?_eq_some (hr : radix ≤ 16) : digit? radix c = some d ↔ Digit radix c d := by
  have hwider : digit? radix c = some d ↔ digit? 16 c = some d ∧ d < radix := by
    simp only [digit?, Option.filter_eq_some_iff, decide_eq_true_eq]
    exact ⟨fun h => ⟨⟨h.1, Nat.lt_of_lt_of_le h.2 hr⟩, h.2⟩, fun h => ⟨h.1.1, h.2⟩⟩
  rw [hwider]
  constructor
  · intro h
    obtain ⟨hc, hd⟩ := lt_of_digit? h.1
    have hchar := digit?_sixteen c.toNat hc d hd
    rw [Char.ofNat_toNat] at hchar
    exact ⟨h.2, hchar h.1⟩
  · intro h
    obtain ⟨hd, hc⟩ := h
    have hall : ∀ d < 16, digit? 16 d.digitChar = some d ∧
        digit? 16 d.digitChar.toUpper = some d := by decide
    obtain ⟨hlower, hupper⟩ := hall d (Nat.lt_of_lt_of_le hd hr)
    refine ⟨?_, hd⟩
    rcases hc with rfl | rfl
    · exact hlower
    · exact hupper

theorem Digit.unique {e : Nat} (hr : radix ≤ 16) (h : Digit radix c d) (h' : Digit radix c e) :
    d = e := by
  have hd := (digit?_eq_some hr).mpr h
  exact Option.some.inj (hd.symm.trans ((digit?_eq_some hr).mpr h'))

/-- What holds of the characters of all digits. -/
theorem Digit.forall {p : Char → Prop} (hr : radix ≤ 16)
    (hp : ∀ d < 16, p d.digitChar ∧ p d.digitChar.toUpper) (h : Digit radix c d) : p c := by
  obtain ⟨hd, hc⟩ := h
  obtain ⟨hlower, hupper⟩ := hp d (Nat.lt_of_lt_of_le hd hr)
  rcases hc with rfl | rfl
  · exact hlower
  · exact hupper

/-- One digit or more, the first counting most, that stand for a number. -/
def Positional (radix : Nat) (cs : List Char) (n : Nat) : Prop :=
  cs ≠ [] ∧ ∃ ds, List.Forall₂ (Digit radix) cs ds ∧ Nat.ofDigits radix ds.reverse = n

/-- Digits read on from a number. -/
def onward (radix : Nat) (ds : List Nat) (m : Nat) : Nat := ds.foldl (fun m d => radix * m + d) m

theorem onward_zero (radix : Nat) (ds : List Nat) :
    onward radix ds 0 = Nat.ofDigits radix ds.reverse := by
  rw [Nat.ofDigits_eq_foldr, List.foldr_reverse, onward]
  congr 1
  funext m d
  exact Nat.add_comm _ _

theorem le_onward (h : 0 < radix) (ds : List Nat) (m : Nat) : m ≤ onward radix ds m := by
  induction ds generalizing m with
  | nil => exact Nat.le_refl m
  | cons d ds ih =>
    have hstep : m ≤ radix * m + d := Nat.le_add_right_of_le (Nat.le_mul_of_pos_left m h)
    exact Nat.le_trans hstep (ih _)

theorem digits_eq_ok (hpos : 0 < radix) (hr : radix ≤ 16) (hm : m ≤ bound) :
    digits radix bound cs m = .ok n ↔
      (∃ ds, List.Forall₂ (Digit radix) cs ds ∧ onward radix ds m = n) ∧ n ≤ bound := by
  induction cs generalizing m with
  | nil =>
    rw [digits, Except.ok.injEq]
    constructor
    · rintro rfl
      exact ⟨⟨[], .nil, rfl⟩, hm⟩
    · rintro ⟨⟨ds, hds, hn⟩, _⟩
      cases hds
      exact hn
  | cons c cs ih =>
    rw [digits]
    constructor
    · intro h
      split at h
      next => cases h
      next d hd =>
        split at h
        next hle =>
          obtain ⟨⟨ds, hds, hn⟩, hbound⟩ := (ih hle).mp h
          exact ⟨⟨d :: ds, .cons ((digit?_eq_some hr).mp hd) hds, hn⟩, hbound⟩
        next => cases h
    · rintro ⟨⟨_, hds, hn⟩, hbound⟩
      cases hds with
      | @cons _ d _ ds hd hds =>
        have hle : radix * m + d ≤ bound :=
          (le_onward hpos ds _).trans (hn.trans_le hbound)
        rw [(digit?_eq_some hr).mpr hd]
        exact (if_pos hle).trans ((ih hle).mpr ⟨⟨ds, hds, hn⟩, hbound⟩)

/-- Digits are too large just when the first of them pass the bound, whatever follows those. -/
theorem digits_tooLarge (hr : radix ≤ 16) (hm : m ≤ bound) :
    digits radix bound cs m = .error .tooLarge ↔ ∃ head ds, head <+: cs ∧
      List.Forall₂ (Digit radix) head ds ∧ bound < onward radix ds m := by
  induction cs generalizing m with
  | nil =>
    constructor
    · nofun
    · rintro ⟨head, ds, hhead, hds, hover⟩
      cases List.prefix_nil.mp hhead
      cases hds
      exact absurd hm (Nat.not_le.mpr hover)
  | cons c cs ih =>
    rw [digits]
    constructor
    · intro h
      split at h
      next => cases h
      next d hd =>
        have hdigit := (digit?_eq_some hr).mp hd
        split at h
        next hle =>
          obtain ⟨head, ds, hhead, hds, hover⟩ := (ih hle).mp h
          have hlonger : c :: head <+: c :: cs := List.cons_prefix_cons.mpr ⟨rfl, hhead⟩
          exact ⟨c :: head, d :: ds, hlonger, .cons hdigit hds, hover⟩
        next hlt =>
          have hone : [c] <+: c :: cs := List.cons_prefix_cons.mpr ⟨rfl, List.nil_prefix⟩
          exact ⟨[c], [d], hone, .cons hdigit .nil, Nat.not_le.mp hlt⟩
    · rintro ⟨head, ds, hhead, hds, hover⟩
      cases hds with
      | nil => exact absurd hm (Nat.not_le.mpr hover)
      | @cons _ d head ds hd hds =>
        obtain ⟨rfl, hrest⟩ := List.cons_prefix_cons.mp hhead
        rw [(digit?_eq_some hr).mpr hd]
        by_cases hle : radix * m + d ≤ bound
        · exact (if_pos hle).trans ((ih hle).mpr ⟨head, ds, hrest, hds, hover⟩)
        · exact if_neg hle

theorem positional_iff : Positional radix cs n ↔
    cs ≠ [] ∧ ∃ ds, List.Forall₂ (Digit radix) cs ds ∧ onward radix ds 0 = n := by
  simp only [Positional, onward_zero]

theorem Positional.unique (hr : radix ≤ 16) (hn : Positional radix cs n)
    (hm : Positional radix cs m) : n = m := by
  obtain ⟨_, ds, hds, rfl⟩ := hn
  obtain ⟨_, es, hes, rfl⟩ := hm
  have hdigit : Relator.RightUnique (Digit radix) := fun _ _ _ => Digit.unique hr
  rw [hdigit.forall₂ hds hes]

theorem Positional.forall {p : Char → Prop} (hr : radix ≤ 16)
    (hp : ∀ d < 16, p d.digitChar ∧ p d.digitChar.toUpper) (h : Positional radix cs n) :
    ∀ c ∈ cs, p c := by
  obtain ⟨hne, ds, hds, hn⟩ := h
  clear hne hn
  induction hds with
  | nil => nofun
  | cons hd _ ih => exact List.forall_mem_cons.mpr ⟨hd.forall hr hp, ih⟩

/-- What is said of a text is right by a grammar and a range. It is a number just when the text is
a numeral of it and it is in range, and it is that the text is too large just when some start of
the text is a numeral out of range. -/
structure Judged {α : Type} (answer : Except NumeralFault α) (numeral : List Char → α → Prop)
    (fits : α → Prop) (cs : List Char) : Prop where
  ok : ∀ n, answer = .ok n ↔ numeral cs n ∧ fits n
  tooLarge : answer = .error .tooLarge ↔ ∃ head n, head <+: cs ∧ numeral head n ∧ ¬ fits n

namespace Judged

variable {α β : Type} {answer : Except NumeralFault α} {numeral : List Char → α → Prop}
  {fits : α → Prop}

theorem map {f : α → β} {fits' : β → Prop} (h : Judged answer numeral fits cs)
    (hf : ∀ n, fits' (f n) ↔ fits n) :
    Judged (answer.map f) (fun cs k => ∃ n, numeral cs n ∧ f n = k) fits' cs := by
  constructor
  · intro k
    have hmap : answer.map f = .ok k ↔ ∃ n, answer = .ok n ∧ f n = k := map_eq_ok
    rw [hmap]
    constructor
    · rintro ⟨n, hn, rfl⟩
      obtain ⟨hnum, hfits⟩ := (h.ok n).mp hn
      exact ⟨⟨n, hnum, rfl⟩, (hf n).mpr hfits⟩
    · rintro ⟨⟨n, hnum, rfl⟩, hfits⟩
      exact ⟨n, (h.ok n).mpr ⟨hnum, (hf n).mp hfits⟩, rfl⟩
  · have hmap : answer.map f = .error .tooLarge ↔ answer = .error .tooLarge := map_eq_error
    rw [hmap, h.tooLarge]
    constructor
    · rintro ⟨head, n, hhead, hnum, hfits⟩
      exact ⟨head, f n, hhead, ⟨n, hnum, rfl⟩, fun hk => hfits ((hf n).mp hk)⟩
    · rintro ⟨head, _, hhead, ⟨n, hnum, rfl⟩, hfits⟩
      exact ⟨head, n, hhead, hnum, fun hk => hfits ((hf n).mpr hk)⟩

theorem congr {whole : List Char → α → Prop} (h : Judged answer numeral fits cs)
    (hsame : ∀ head n, head <+: cs → (numeral head n ↔ whole head n)) :
    Judged answer whole fits cs := by
  constructor
  · intro n
    rw [h.ok, hsame cs n (List.prefix_refl cs)]
  · rw [h.tooLarge]
    constructor
    · rintro ⟨head, n, hhead, hnum, hfits⟩
      exact ⟨head, n, hhead, (hsame head n hhead).mp hnum, hfits⟩
    · rintro ⟨head, n, hhead, hnum, hfits⟩
      exact ⟨head, n, hhead, (hsame head n hhead).mpr hnum, hfits⟩

theorem fits_congr {fits' : α → Prop} (h : Judged answer numeral fits cs)
    (hsame : ∀ n, fits n ↔ fits' n) : Judged answer numeral fits' cs := by
  have heq : fits = fits' := funext fun n => propext (hsame n)
  exact heq ▸ h

/-- A text is judged by what follows its first character, if nothing is out of range that is
spelled without one. -/
theorem cons {whole : List Char → α → Prop} (h : Judged answer numeral fits cs)
    (hnil : ∀ n, whole [] n → fits n)
    (hcons : ∀ rest n, whole (c :: rest) n ↔ numeral rest n) :
    Judged answer whole fits (c :: cs) := by
  constructor
  · intro n
    rw [h.ok, hcons]
  · rw [h.tooLarge]
    constructor
    · rintro ⟨head, n, hhead, hnum, hfits⟩
      exact ⟨c :: head, n, List.cons_prefix_cons.mpr ⟨rfl, hhead⟩, (hcons head n).mpr hnum, hfits⟩
    · rintro ⟨head, n, hhead, hnum, hfits⟩
      rcases List.prefix_cons_iff.mp hhead with rfl | ⟨rest, rfl, hrest⟩
      · exact absurd (hnil n hnum) hfits
      · exact ⟨rest, n, hrest, (hcons rest n).mp hnum, hfits⟩

theorem nil {f : NumeralFault} (hf : f ≠ .tooLarge) (hnil : ∀ n, ¬ numeral [] n) :
    Judged (.error f) numeral fits [] := by
  refine ⟨fun n => ⟨nofun, fun h => absurd h.1 (hnil n)⟩, ?_⟩
  constructor
  · exact fun h => absurd (Except.error.inj h) hf
  · rintro ⟨head, n, hhead, hnum, _⟩
    cases List.prefix_nil.mp hhead
    exact absurd hnum (hnil n)

end Judged

theorem magnitude_judged (hpos : 0 < radix) (hr : radix ≤ 16) :
    Judged (magnitude radix bound cs) (Positional radix) (· ≤ bound) cs := by
  cases cs with
  | nil => exact .nil nofun fun n h => h.1 rfl
  | cons c cs =>
    constructor
    · intro n
      rw [positional_iff, and_iff_right (List.cons_ne_nil c cs)]
      exact digits_eq_ok hpos hr (Nat.zero_le bound)
    · refine (digits_tooLarge hr (Nat.zero_le bound)).trans ?_
      constructor
      · rintro ⟨head, ds, hhead, hds, hover⟩
        refine ⟨head, _, hhead, positional_iff.mpr ⟨?_, ds, hds, rfl⟩, Nat.not_le.mpr hover⟩
        rintro rfl
        cases hds
        exact absurd hover (Nat.not_lt_zero bound)
      · rintro ⟨head, n, hhead, hnum, hover⟩
        obtain ⟨_, ds, hds, rfl⟩ := positional_iff.mp hnum
        exact ⟨head, ds, hhead, hds, Nat.not_le.mp hover⟩

theorem positional_of_magnitude (hpos : 0 < radix) (hr : radix ≤ 16)
    (h : magnitude radix bound cs = .ok n) : Positional radix cs n :=
  (((magnitude_judged hpos hr).ok n).mp h).1

/-- A numeral that has no sign but plus. -/
inductive Signless (radix : Nat) : List Char → Nat → Prop
  | bare {cs : List Char} {n : Nat} (magnitude : Positional radix cs n) : Signless radix cs n
  | plus {cs : List Char} {n : Nat} (magnitude : Positional radix cs n) :
      Signless radix ('+' :: cs) n

/-- An integer in decimal digits, its sign left out or not. -/
inductive Decimal : List Char → Int → Prop
  | natural {cs : List Char} {n : Nat} (numeral : Signless 10 cs n) : Decimal cs n
  | minus {cs : List Char} {n : Nat} (magnitude : Positional 10 cs n) : Decimal ('-' :: cs) (-n)

theorem Positional.plus_not_head (hr : radix ≤ 16) : ¬ Positional radix ('+' :: cs) n :=
  fun h => absurd rfl (h.forall (p := (· ≠ '+')) hr (by decide) '+' List.mem_cons_self)

theorem Positional.minus_not_head (hr : radix ≤ 16) : ¬ Positional radix ('-' :: cs) n :=
  fun h => absurd rfl (h.forall (p := (· ≠ '-')) hr (by decide) '-' List.mem_cons_self)

theorem Signless.minus_not_head (hr : radix ≤ 16) : ¬ Signless radix ('-' :: cs) n := by
  intro h
  cases h with
  | bare h => exact h.minus_not_head hr

theorem Signless.ne_nil (h : Signless radix cs n) : cs ≠ [] := by
  cases h with
  | bare h => exact h.1
  | plus h => exact List.cons_ne_nil _ _

theorem signless_plus_iff (hr : radix ≤ 16) :
    Signless radix ('+' :: cs) n ↔ Positional radix cs n := by
  constructor
  · intro h
    cases h with
    | bare h => exact absurd h (Positional.plus_not_head hr)
    | plus h => exact h
  · exact .plus

theorem decimal_minus_iff {k : Int} :
    Decimal ('-' :: cs) k ↔ ∃ n, Positional 10 cs n ∧ -(n : Int) = k := by
  constructor
  · intro h
    cases h with
    | natural h => exact absurd h (Signless.minus_not_head (by decide))
    | @minus _ n h => exact ⟨n, h, rfl⟩
  · rintro ⟨n, h, rfl⟩
    exact .minus h

theorem decimal_iff {k : Int} (hminus : ∀ rest, cs ≠ '-' :: rest) :
    Decimal cs k ↔ ∃ n, Signless 10 cs n ∧ (n : Int) = k := by
  constructor
  · intro h
    cases h with
    | @natural _ n h => exact ⟨n, h, rfl⟩
    | minus h => exact absurd rfl (hminus _)
  · rintro ⟨n, h, rfl⟩
    exact .natural h

theorem Signless.unique (hr : radix ≤ 16) (hn : Signless radix cs n) (hm : Signless radix cs m) :
    n = m := by
  cases hn with
  | bare hn =>
    cases hm with
    | bare hm => exact hn.unique hr hm
    | plus hm => exact absurd hn (Positional.plus_not_head hr)
  | plus hn => exact hn.unique hr ((signless_plus_iff hr).mp hm)

theorem Decimal.unique {j k : Int} (hj : Decimal cs j) (hk : Decimal cs k) : j = k := by
  cases hj with
  | natural hj =>
    cases hk with
    | natural hk => rw [hj.unique (by decide) hk]
    | minus hk => exact absurd hj (Signless.minus_not_head (by decide))
  | minus hj =>
    obtain ⟨m, hm, rfl⟩ := decimal_minus_iff.mp hk
    rw [hj.unique (by decide) hm]

theorem unsigned_judged (hpos : 0 < radix) (hr : radix ≤ 16) :
    Judged (unsigned radix bound cs) (Signless radix) (· ≤ bound) cs := by
  have hnil : ∀ n, ¬ Signless radix [] n := fun n h => h.ne_nil rfl
  cases cs with
  | nil => exact .nil nofun hnil
  | cons c cs =>
    by_cases hc : c = '+'
    · subst hc
      refine (magnitude_judged hpos hr).cons (fun n h => absurd h (hnil n)) fun rest n => ?_
      exact signless_plus_iff hr
    · have hbare : unsigned radix bound (c :: cs) = magnitude radix bound (c :: cs) := by
        unfold unsigned
        split
        next h => cases h
        next h => exact absurd (List.cons.inj h).1 hc
        next => rfl
      rw [hbare]
      refine (magnitude_judged hpos hr).congr fun head n hhead => ⟨.bare, fun h => ?_⟩
      cases h with
      | bare h => exact h
      | plus h => exact absurd (List.cons_prefix_cons.mp hhead).1.symm hc

theorem signed_minus (bound : Nat) (cs : List Char) :
    signed bound ('-' :: cs) = (magnitude 10 (bound + 1) cs).map fun n : Nat => -(n : Int) := by
  rw [signed]
  cases magnitude 10 (bound + 1) cs <;> rfl

theorem signed_plain (hc : c ≠ '-') (bound : Nat) (cs : List Char) :
    signed bound (c :: cs) = (unsigned 10 bound (c :: cs)).map fun n : Nat => (n : Int) := by
  unfold signed
  split
  next h => cases h
  next h => exact absurd (List.cons.inj h).1 hc
  next rest h =>
    rw [h, unsigned]
    cases magnitude 10 bound rest <;> rfl
  next hplus =>
    have hdigits : unsigned 10 bound (c :: cs) = digits 10 bound (c :: cs) 0 := by
      unfold unsigned
      split
      next h => cases h
      next h => exact absurd h (hplus _)
      next => rfl
    rw [hdigits]
    cases digits 10 bound (c :: cs) 0 <;> rfl

theorem signed_judged :
    Judged (signed bound cs) Decimal (fun k => -(bound : Int) - 1 ≤ k ∧ k ≤ bound) cs := by
  have hnil : ∀ k, ¬ Decimal [] k := by
    intro k h
    cases h with
    | natural h => exact h.ne_nil rfl
  cases cs with
  | nil => exact .nil nofun hnil
  | cons c cs =>
    by_cases hc : c = '-'
    · subst hc
      have hmagnitude : Judged (magnitude 10 (bound + 1) cs) (Positional 10) (· ≤ bound + 1) cs :=
        magnitude_judged (by decide) (by decide)
      have hneg : Judged ((magnitude 10 (bound + 1) cs).map fun n : Nat => -(n : Int)) _
          (fun k => -(bound : Int) - 1 ≤ k ∧ k ≤ bound) cs := hmagnitude.map fun n => by omega
      rw [signed_minus]
      exact hneg.cons (fun k h => absurd h (hnil k)) fun rest k => decimal_minus_iff
    · have hunsigned : Judged (unsigned 10 bound (c :: cs)) (Signless 10) (· ≤ bound) (c :: cs) :=
        unsigned_judged (by decide) (by decide)
      have hnat : Judged ((unsigned 10 bound (c :: cs)).map fun n : Nat => (n : Int)) _
          (fun k => -(bound : Int) - 1 ≤ k ∧ k ≤ bound) (c :: cs) :=
        hunsigned.map fun n => by omega
      rw [signed_plain hc]
      refine hnat.congr fun head k hhead => (decimal_iff fun rest he => ?_).symm
      rw [he] at hhead
      exact hc (List.cons_prefix_cons.mp hhead).1.symm

end Numeral

namespace Argument

open Numeral (Positional Signless Decimal Judged)

variable {n : Nat} {x : Char} {cs : List Char}

/-- What is read as a natural number, a plus sign after the mark of hexadecimal digits included. -/
inductive Natural : List Char → Nat → Prop
  | decimal {cs : List Char} {n : Nat} (numeral : Signless 10 cs n) : Natural cs n
  | hexadecimal {x : Char} {cs : List Char} {n : Nat} (mark : x = 'x' ∨ x = 'X')
      (numeral : Signless 16 cs n) : Natural ('0' :: x :: cs) n

theorem not_decimal_of_mark (hx : x = 'x' ∨ x = 'X') : ¬ Signless 10 ('0' :: x :: cs) n := by
  intro h
  have hdigits : ∀ c ∈ '0' :: x :: cs, c ≠ 'x' ∧ c ≠ 'X' := by
    cases h with
    | bare h => exact h.forall (by decide) (by decide)
  obtain ⟨hlower, hupper⟩ := hdigits x (List.mem_cons_of_mem _ List.mem_cons_self)
  rcases hx with hx | hx
  · exact hlower hx
  · exact hupper hx

theorem natural_mark_iff (hx : x = 'x' ∨ x = 'X') :
    Natural ('0' :: x :: cs) n ↔ Signless 16 cs n := by
  constructor
  · intro h
    cases h with
    | decimal h => exact absurd h (not_decimal_of_mark hx)
    | hexadecimal _ h => exact h
  · exact .hexadecimal hx

theorem natural_zero (h : Natural ['0'] n) : n = 0 := by
  cases h with
  | decimal h =>
    have hzero : Positional 10 ['0'] 0 :=
      ⟨List.cons_ne_nil _ _, [0], .cons ⟨by decide, .inl rfl⟩ .nil, rfl⟩
    exact h.unique (by decide) (.bare hzero)

theorem naturalDigits_mark (hx : x = 'x' ∨ x = 'X') :
    naturalDigits ('0' :: x :: cs) = Numeral.unsigned 16 maxNatural cs := by
  rcases hx with rfl | rfl <;> rfl

theorem naturalDigits_judged : Judged (naturalDigits cs) Natural (· ≤ maxNatural) cs := by
  by_cases hmark : ∃ x rest, (x = 'x' ∨ x = 'X') ∧ cs = '0' :: x :: rest
  · obtain ⟨x, rest, hx, rfl⟩ := hmark
    rw [naturalDigits_mark hx]
    have hhex : Judged (Numeral.unsigned 16 maxNatural rest) (Signless 16) (· ≤ maxNatural) rest :=
      Numeral.unsigned_judged (by decide) (by decide)
    have hmarked : Judged (Numeral.unsigned 16 maxNatural rest) (fun cs n => Natural ('0' :: cs) n)
        (· ≤ maxNatural) (x :: rest) :=
      hhex.cons (fun n h => (natural_zero h).trans_le (Nat.zero_le _))
        fun rest n => natural_mark_iff hx
    refine hmarked.cons (fun n h => ?_) fun rest n => Iff.rfl
    cases h with
    | decimal h => exact absurd rfl h.ne_nil
  · have hplain : naturalDigits cs = Numeral.unsigned 10 maxNatural cs := by
      unfold naturalDigits
      split
      next rest => exact absurd ⟨'x', rest, .inl rfl, rfl⟩ hmark
      next rest => exact absurd ⟨'X', rest, .inr rfl, rfl⟩ hmark
      next => rfl
    have hdecimal : Judged (Numeral.unsigned 10 maxNatural cs) (Signless 10) (· ≤ maxNatural) cs :=
      Numeral.unsigned_judged (by decide) (by decide)
    rw [hplain]
    refine hdecimal.congr fun head n hhead => ⟨.decimal, fun h => ?_⟩
    cases h with
    | decimal h => exact h
    | @hexadecimal x rest _ hx h =>
      obtain ⟨more, rfl⟩ := hhead
      exact absurd ⟨x, rest ++ more, hx, rfl⟩ hmark

end Argument

end CallWire
