import CallWire.Proofs.ArgumentNumbers

namespace CallWire

namespace Argument

open Numeral (Positional Signless Decimal)

variable {width : Width} {signed : Bool} {p : Primitive} {cs : List Char} {s : String} {f : Fault}
  {n : Int}

/-- A text is taken to be out of range: it reads as a number that the width does not hold, some
start of it reads as one that no width holds, or it is a negative number where there are none. -/
inductive Outlying (width : Width) : Bool → List Char → Prop
  | value {signed : Bool} {cs : List Char} {n : Int} (reading : Reading signed cs n)
      (outside : ¬ width.Holds signed n) : Outlying width signed cs
  | head {signed : Bool} {cs head : List Char} {n : Int} (start : head <+: cs)
      (reading : Reading signed head n) (outside : ¬ Width.w128.Holds signed n) :
      Outlying width signed cs
  | negative {cs : List Char} {n : Int} (numeral : Decimal cs n)
      (lower : Width.w128.signedMin ≤ n) (below : n < 0) : Outlying width false cs

theorem not_outlying_of_read {g : NumeralFault} (hread : read signed cs = .error g)
    (hg : g ≠ .tooLarge) (hneg : ¬ (signed = false ∧ isNegative cs = true)) :
    ¬ Outlying width signed cs := by
  have hfits : ∀ head n, head <+: cs → Reading signed head n → Width.w128.Holds signed n := by
    intro head n hhead hreading
    by_contra hn
    have htoo := read_judged.tooLarge.mpr ⟨head, n, hhead, hreading, hn⟩
    exact hg (Except.error.inj (hread.symm.trans htoo))
  intro hout
  cases hout with
  | @value _ _ n hreading hn =>
    have hwidest := hfits cs n (List.prefix_refl cs) hreading
    cases hread.symm.trans ((read_judged.ok n).mpr ⟨hreading, hwidest⟩)
  | head hhead hreading hn => exact hn (hfits _ _ hhead hreading)
  | negative hdecimal hlo hbelow =>
    exact hneg ⟨rfl, isNegative_iff.mpr ⟨_, hdecimal, hlo, hbelow⟩⟩

theorem textFault_cases {g : NumeralFault} (hread : read signed (Blank.trim s.toList) = .error g)
    (target : String) :
    (∃ cause, textFault width signed target s g = .outOfRange width cause) ∧
        Outlying width signed (Blank.trim s.toList) ∨
      textFault width signed target s g = .invalidLiteral target s ∧
        ¬ Outlying width signed (Blank.trim s.toList) := by
  by_cases hneg : signed = false ∧ isNegative (Blank.trim s.toList) = true
  · obtain ⟨rfl, hnegative⟩ := hneg
    obtain ⟨n, hdecimal, hlo, hbelow⟩ := isNegative_iff.mp hnegative
    exact .inl ⟨⟨_, if_pos ⟨rfl, hnegative⟩⟩, .negative hdecimal hlo hbelow⟩
  · have hfault : textFault width signed target s g = numeralFault width target s g := if_neg hneg
    rw [hfault]
    cases g with
    | tooLarge =>
      obtain ⟨head, n, hhead, hreading, hn⟩ := read_judged.tooLarge.mp hread
      exact .inl ⟨⟨_, rfl⟩, .head hhead hreading hn⟩
    | empty | badDigit => exact .inr ⟨rfl, not_outlying_of_read hread nofun hneg⟩

/-- A text that does not convert is out of range or no literal. -/
theorem primitive_text_fault (hp : p.number? = some (width, signed))
    (h : primitive p (.text s) = .error f) :
    (∃ cause, f = .outOfRange width cause) ∧ Outlying width signed (Blank.trim s.toList) ∨
      f = .invalidLiteral p.name s ∧ ¬ Outlying width signed (Blank.trim s.toList) := by
  have hnumber := numberOf_text width signed p.name s
  cases hread : read signed (Blank.trim s.toList) with
  | ok n =>
    rw [hread] at hnumber
    obtain ⟨hreading, _⟩ := (read_judged.ok n).mp hread
    by_cases hn : width.Holds signed n
    · obtain ⟨v, _, _, hv⟩ := primitive_of_holds hp hn
      cases (hv _ hnumber).symm.trans h
    · obtain ⟨cause, hcause⟩ := primitive_of_not_holds hp hnumber hn
      cases hcause.symm.trans h
      exact .inl ⟨⟨cause, rfl⟩, .value hreading hn⟩
  | error g =>
    rw [hread] at hnumber
    cases (primitive_of_numberOf_error hp hnumber).symm.trans h
    exact textFault_cases hread p.name

/-- A fault says of a text what it is: out of range if it is a numeral of a number that the width
does not hold, and no literal if it is no numeral. -/
def Classified (width : Width) (signed : Bool) (target s : String) (f : Fault) : Prop :=
  (∀ n, Spelling signed (Blank.trim s.toList) n → ¬ width.Holds signed n →
    ∃ cause, f = .outOfRange width cause) ∧
  ((∀ n, ¬ Spelling signed (Blank.trim s.toList) n) → f = .invalidLiteral target s)

/-- The texts whose fault says something else: negative numerals below the signed numbers where
no number is negative, texts that are too large before it shows that they are no numerals, and
large hexadecimal numbers with a plus sign. -/
inductive Misjudged (width : Width) : Bool → List Char → Prop
  | low {cs : List Char} {n : Int} (numeral : Decimal cs n) (below : n < Width.w128.signedMin) :
      Misjudged width false cs
  | cut {signed : Bool} {cs head : List Char} {n : Int} (none : ∀ k, ¬ Spelling signed cs k)
      (start : head <+: cs) (reading : Reading signed head n)
      (outside : ¬ Width.w128.Holds signed n) : Misjudged width signed cs
  | plus {x : Char} {cs : List Char} {n : Nat} (mark : x = 'x' ∨ x = 'X')
      (magnitude : Positional 16 cs n) (above : width.unsignedMax < n) :
      Misjudged width false ('0' :: x :: '+' :: cs)

theorem Reading.ne_nil (h : Reading signed cs n) : cs ≠ [] := by
  rintro rfl
  cases h with
  | signed h =>
    cases h with
    | natural h => exact h.ne_nil rfl
  | unsigned h =>
    cases h with
    | decimal h => exact h.ne_nil rfl

theorem not_outlying_of_low (h : Decimal cs n) (hn : n < Width.w128.signedMin) :
    ¬ Outlying width false cs := by
  obtain ⟨rest, rfl⟩ := exists_minus_of_neg h (hn.trans (by decide))
  intro hout
  cases hout with
  | value hreading => exact reading_minus_not_unsigned hreading
  | head hhead hreading =>
    rcases List.prefix_cons_iff.mp hhead with rfl | ⟨more, rfl, _⟩
    · exact hreading.ne_nil rfl
    · exact reading_minus_not_unsigned hreading
  | negative h' hlo =>
    rw [h'.unique h] at hlo
    exact absurd hn (Int.not_lt.mpr hlo)

theorem not_spelling_plus {x : Char} (hx : x = 'x' ∨ x = 'X') :
    ¬ Spelling false ('0' :: x :: '+' :: cs) n := by
  intro h
  cases h with
  | decimal h =>
    cases h with
    | natural h => exact not_decimal_of_mark hx h
  | hexadecimal _ h => exact h.plus_not_head (by decide)

/-- What is read is a numeral, unless a plus sign follows the mark of hexadecimal digits. -/
theorem Reading.cases_spelling (h : Reading signed cs n) : Spelling signed cs n ∨
    signed = false ∧ ∃ x rest m, (x = 'x' ∨ x = 'X') ∧ cs = '0' :: x :: '+' :: rest ∧
      Positional 16 rest m ∧ (m : Int) = n := by
  cases h with
  | signed h => exact .inl (.decimal h)
  | @unsigned _ m h =>
    cases h with
    | decimal h => exact .inl (.decimal (.natural h))
    | hexadecimal hx h =>
      cases h with
      | bare h => exact .inl (.hexadecimal hx h)
      | plus h => exact .inr ⟨rfl, _, _, m, hx, rfl, h, rfl⟩

theorem Spelling.nonpos_of_minus (h : Spelling signed ('-' :: cs) n) : n ≤ 0 := by
  cases h with
  | decimal h =>
    obtain ⟨m, _, rfl⟩ := Numeral.decimal_minus_iff.mp h
    exact Int.neg_nonpos_of_nonneg (Int.natCast_nonneg m)

theorem misjudged_of_outlying (h : Outlying width signed cs) (hnone : ∀ n, ¬ Spelling signed cs n) :
    Misjudged width signed cs := by
  cases h with
  | value hreading hn =>
    rcases hreading.cases_spelling with h | ⟨rfl, x, rest, m, hx, rfl, hmagnitude, rfl⟩
    · exact absurd h (hnone _)
    · exact .plus hx hmagnitude (Nat.not_le.mp fun hle => hn (Width.holds_natural.mpr hle))
  | head hhead hreading hn => exact .cut hnone hhead hreading hn
  | negative hdecimal => exact absurd (.decimal hdecimal) (hnone _)

theorem misjudged_of_spelling (h : Spelling signed cs n) (hn : ¬ width.Holds signed n)
    (hnot : ¬ Outlying width signed cs) : Misjudged width signed cs := by
  cases signed with
  | true => exact absurd (.value (h.reading (.inl rfl)) hn) hnot
  | false =>
    by_cases hneg : n < 0
    · have hdecimal := h.decimal_of_neg hneg
      exact .low hdecimal (Int.not_le.mp fun hlo => hnot (.negative hdecimal hlo hneg))
    · have hsign : ∀ rest, cs ≠ '-' :: rest := by
        rintro rest rfl
        have hzero : n = 0 := Int.le_antisymm h.nonpos_of_minus (Int.not_lt.mp hneg)
        rw [hzero] at hn
        exact hn ⟨Width.least_le_zero _ _, Width.zero_le_greatest _ _⟩
      exact absurd (.value (h.reading (.inr hsign)) hn) hnot

/-- A text is misjudged if it is no numeral and yet out of range, or the other way round. -/
theorem misjudged_iff : Misjudged width signed cs ↔
    (∀ n, ¬ Spelling signed cs n) ∧ Outlying width signed cs ∨
      (∃ n, Spelling signed cs n ∧ ¬ width.Holds signed n) ∧ ¬ Outlying width signed cs := by
  constructor
  · intro h
    cases h with
    | @low _ n hdecimal hbelow =>
      have hn : ¬ width.Holds false n := fun hn =>
        absurd (Width.holds_unsigned.mp hn).1 (Int.not_le.mpr (hbelow.trans (by decide)))
      exact .inr ⟨⟨n, .decimal hdecimal, hn⟩, not_outlying_of_low hdecimal hbelow⟩
    | cut hnone hhead hreading hn => exact .inl ⟨hnone, .head hhead hreading hn⟩
    | @plus _ _ n hx hmagnitude habove =>
      have hn : ¬ width.Holds false n := fun hn =>
        Nat.not_le.mpr habove (Width.holds_natural.mp hn)
      refine .inl ⟨fun k => not_spelling_plus hx, ?_⟩
      exact .value (.unsigned (.hexadecimal hx (.plus hmagnitude))) hn
  · rintro (⟨hnone, hout⟩ | ⟨⟨n, hs, hn⟩, hnot⟩)
    · exact misjudged_of_outlying hout hnone
    · exact misjudged_of_spelling hs hn hnot

theorem classified_iff (hp : p.number? = some (width, signed))
    (h : primitive p (.text s) = .error f) :
    Classified width signed p.name s f ↔ ¬ Misjudged width signed (Blank.trim s.toList) := by
  rw [misjudged_iff]
  rcases primitive_text_fault hp h with ⟨⟨cause, rfl⟩, hout⟩ | ⟨rfl, hnot⟩
  · constructor
    · rintro hc (⟨hnone, _⟩ | ⟨_, hnot⟩)
      · cases hc.2 hnone
      · exact hnot hout
    · intro hm
      exact ⟨fun _ _ _ => ⟨cause, rfl⟩, fun hnone => absurd (.inl ⟨hnone, hout⟩) hm⟩
  · constructor
    · rintro hc (⟨_, hout⟩ | ⟨⟨n, hs, hn⟩, _⟩)
      · exact hnot hout
      · obtain ⟨cause, hcause⟩ := hc.1 n hs hn
        cases hcause
    · intro hm
      exact ⟨fun n hs hn => absurd (.inr ⟨⟨n, hs, hn⟩, hnot⟩) hm, fun _ => rfl⟩

end Argument

namespace Interface

open Argument (Classified Misjudged Spelling)
open Numeral (Positional Decimal)

variable {i : Interface} {id : TypeId} {decl : TypeDecl} {p : Primitive} {width : Width}
  {signed : Bool} {s : String} {f : Fault}

/-- A text that does not convert to a number is out of range or no literal, and it is told which
of them it is unless it is one of the misjudged texts. -/
theorem value_text_fault (l : Limits) (hr : i.resolve id = .ok decl)
    (hl : decl.layout = .primitive p) (hp : p.number? = some (width, signed))
    (h : i.value l id (.text s) = .error f) :
    ((∃ cause, f = .outOfRange width cause) ∨ f = .invalidLiteral p.name s) ∧
      (Classified width signed p.name s f ↔ ¬ Misjudged width signed (Blank.trim s.toList)) := by
  rw [value_of_primitive l hr hl] at h
  refine ⟨?_, Argument.classified_iff hp h⟩
  rcases Argument.primitive_text_fault hp h with ⟨hcause, _⟩ | ⟨hliteral, _⟩
  · exact .inl hcause
  · exact .inr hliteral

/-- A number beyond the range of a byte is told as such, and a text that is no numeral is not if
it has a plus sign among its digits. -/
theorem value_text_fault_scalars : ofParts scalarTypes [] none = .ok scalarInterface ∧
    (∃ f, scalarInterface.value {} 0 (.text " 256") = .error f ∧
      Classified .w8 false "u8" " 256" f) ∧
    ∃ f, scalarInterface.value {} 0 (.text "0x+100") = .error f ∧
      ¬ Classified .w8 false "u8" "0x+100" f := by
  have hbyte : scalarInterface.resolve 0 = .ok ⟨0, .primitive (.word .w8 false)⟩ := rfl
  have hover : ∃ f, scalarInterface.value {} 0 (.text " 256") = .error f := ⟨_, by cbv⟩
  have hplus : ∃ f, scalarInterface.value {} 0 (.text "0x+100") = .error f := ⟨_, by cbv⟩
  obtain ⟨f, hf⟩ := hover
  obtain ⟨g, hg⟩ := hplus
  obtain ⟨_, hiff⟩ := value_text_fault {} hbyte rfl rfl hf
  obtain ⟨_, hiff'⟩ := value_text_fault {} hbyte rfl rfl hg
  have hdecimal : Decimal ['2', '5', '6'] (256 : Nat) :=
    .natural (.bare (Numeral.positional_of_magnitude (by decide) (by decide)
      (rfl : Numeral.magnitude 10 256 ['2', '5', '6'] = .ok 256)))
  have hmagnitude : Positional 16 ['1', '0', '0'] 256 :=
    Numeral.positional_of_magnitude (by decide) (by decide)
      (rfl : Numeral.magnitude 16 256 ['1', '0', '0'] = .ok 256)
  have hjudged : ¬ Misjudged .w8 false ['2', '5', '6'] := by
    intro hm
    cases hm with
    | low h hbelow =>
      rw [h.unique hdecimal] at hbelow
      exact absurd hbelow (by decide)
    | cut hnone => exact hnone _ (.decimal hdecimal)
  exact ⟨ofParts_scalar, ⟨f, hf, hiff.mpr hjudged⟩,
    ⟨g, hg, fun hc => hiff'.mp hc (.plus (.inl rfl) hmagnitude (by decide))⟩⟩

/-- One less than the least signed number. -/
def lowText : String := "-170141183460469231731687303715884105729"

def lowDigits : List Char := "170141183460469231731687303715884105729".toList

theorem trim_lowText : Blank.trim lowText.toList = '-' :: lowDigits := by cbv

theorem value_lowText :
    scalarInterface.value {} 0 (.text lowText) = .error (.invalidLiteral "u8" lowText) := by
  have hbyte : scalarInterface.resolve 0 = .ok ⟨0, .primitive (.word .w8 false)⟩ := rfl
  have hread : Argument.read false ('-' :: lowDigits) = .error .badDigit := rfl
  have hnegative : Argument.isNegative ('-' :: lowDigits) = false := by cbv
  rw [value_of_primitive {} hbyte rfl]
  apply Argument.primitive_of_numberOf_error rfl
  rw [Argument.numberOf_text, trim_lowText, hread]
  have hfault : Argument.textFault .w8 false "u8" lowText .badDigit =
      .invalidLiteral "u8" lowText := by
    simp only [Argument.textFault, trim_lowText, hnegative]
    rfl
  exact congrArg Except.error hfault

/-- A negative numeral is said to be none where no number is negative. -/
theorem value_text_fault_low : ofParts scalarTypes [] none = .ok scalarInterface ∧
    ∃ f, scalarInterface.value {} 0 (.text lowText) = .error f ∧
      ¬ Classified .w8 false "u8" lowText f := by
  refine ⟨ofParts_scalar, _, value_lowText, fun hc => ?_⟩
  have hmagnitude : Positional 10 lowDigits (2 ^ 127 + 1) :=
    Numeral.positional_of_magnitude (by decide) (by decide)
      (by cbv : Numeral.magnitude 10 (2 ^ 128) lowDigits = .ok (2 ^ 127 + 1))
  have hspelling : Spelling false (Blank.trim lowText.toList) (-((2 ^ 127 + 1 : Nat) : Int)) := by
    rw [trim_lowText]
    exact .decimal (.minus hmagnitude)
  obtain ⟨cause, hcause⟩ := hc.1 _ hspelling fun hn => absurd hn.1 (by decide)
  cases hcause

end Interface

end CallWire
