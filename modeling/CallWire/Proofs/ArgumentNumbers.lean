import CallWire.Proofs.ArgumentJson
import CallWire.Proofs.InterfaceAccepted
import CallWire.Proofs.NumeralGrammar

namespace CallWire

/-- The width and the signedness of a number. -/
def Primitive.number? : Primitive → Option (Width × Bool)
  | .word width signed => some (width, signed)
  | .varint width => some (width, false)
  | _ => none

def Value.number? : Value → Option Int
  | .word n => some n.val
  | .varint n => some n.val
  | _ => none

/-- The numbers that a width holds. -/
def Width.Holds (width : Width) (signed : Bool) (n : Int) : Prop :=
  width.least signed ≤ n ∧ n ≤ width.greatest signed

theorem Width.Holds.widest {width : Width} {signed : Bool} {n : Int} (h : width.Holds signed n) :
    Width.w128.Holds signed n := by
  obtain ⟨hlo, hhi⟩ := h
  have hleast : Width.w128.least signed ≤ width.least signed := by
    cases width <;> cases signed <;> decide
  have hgreatest : width.greatest signed ≤ Width.w128.greatest signed := by
    cases width <;> cases signed <;> decide
  exact ⟨hleast.trans hlo, hhi.trans hgreatest⟩

theorem Width.holds_signed {width : Width} {n : Int} :
    width.Holds true n ↔ width.signedMin ≤ n ∧ n ≤ width.signedMax :=
  Iff.rfl

theorem Width.holds_unsigned {width : Width} {n : Int} :
    width.Holds false n ↔ 0 ≤ n ∧ n ≤ width.unsignedMax := by
  simp [Holds, least, greatest]

theorem Width.holds_natural {width : Width} {m : Nat} :
    width.Holds false m ↔ m ≤ width.unsignedMax := by
  rw [holds_unsigned, and_iff_right (Int.natCast_nonneg m)]
  exact Int.ofNat_le

namespace Argument

open Numeral (Positional Signless Decimal Judged)

variable {signed : Bool} {width : Width} {target : String} {p : Primitive} {n : Int}
  {cs : List Char} {d : Datum} {f : Fault}

/-- The number that plain data stands for, before it is held against a width. -/
def numberOf (width : Width) (signed : Bool) (target : String) (d : Datum) : Except Fault Int :=
  if signed then integer width target d
  else (naturalOf width target d).map fun n : Nat => (n : Int)

theorem numberOf_unsigned_eq_ok : numberOf width false target d = .ok n ↔
    ∃ m : Nat, naturalOf width target d = .ok m ∧ (m : Int) = n :=
  map_eq_ok

theorem primitive_of_holds (hp : p.number? = some (width, signed)) (hn : width.Holds signed n) :
    ∃ v : Value, v.kind = .primitive p ∧ v.number? = some n ∧
      ∀ d, numberOf width signed p.name d = .ok n → primitive p d = .ok v := by
  cases p with
  | bool | text => cases hp
  | word =>
    cases hp
    refine ⟨.word ⟨width, signed, n, hn.1, hn.2⟩, rfl, rfl, fun d hd => ?_⟩
    cases signed with
    | false =>
      obtain ⟨m, hm, rfl⟩ := numberOf_unsigned_eq_ok.mp hd
      refine bind_eq_ok.mpr ⟨m, natural_eq_ok.mpr ⟨hm, Width.holds_natural.mp hn⟩, ?_⟩
      exact bind_eq_ok.mpr ⟨_, Word.ofNat_eq_ok.mpr ⟨rfl, rfl, rfl⟩, rfl⟩
    | true =>
      refine bind_eq_ok.mpr ⟨n, hd, ?_⟩
      exact bind_eq_ok.mpr ⟨_, Word.ofInt_eq_ok.mpr ⟨rfl, rfl, rfl⟩, rfl⟩
  | varint =>
    cases hp
    obtain ⟨m, rfl⟩ := Int.eq_ofNat_of_zero_le (Width.holds_unsigned.mp hn).1
    have hle : m ≤ width.unsignedMax := Width.holds_natural.mp hn
    refine ⟨.varint ⟨width, m, hle⟩, rfl, rfl, fun d hd => ?_⟩
    obtain ⟨k, hk, hkm⟩ := numberOf_unsigned_eq_ok.mp hd
    cases Int.ofNat_inj.mp hkm
    refine bind_eq_ok.mpr ⟨m, natural_eq_ok.mpr ⟨hk, hle⟩, ?_⟩
    exact bind_eq_ok.mpr ⟨_, Varint.ofNat_eq_ok.mpr ⟨rfl, rfl⟩, rfl⟩

theorem natural_of_not_holds (hd : numberOf width false target d = .ok n)
    (hn : ¬ width.Holds false n) :
    ∃ cause, natural width target d = .error (.outOfRange width cause) := by
  obtain ⟨m, hm, rfl⟩ := numberOf_unsigned_eq_ok.mp hd
  have hover : ¬ m ≤ width.unsignedMax := fun hle => hn (Width.holds_natural.mpr hle)
  exact ⟨_, bind_eq_error.mpr (.inr ⟨m, hm, if_neg hover⟩)⟩

theorem primitive_of_natural_error (hp : p.number? = some (width, false))
    (h : natural width p.name d = .error f) : primitive p d = .error f := by
  cases p with
  | bool | text => cases hp
  | word | varint =>
    cases hp
    exact bind_eq_error.mpr (.inl h)

theorem primitive_of_not_holds (hp : p.number? = some (width, signed))
    (hd : numberOf width signed p.name d = .ok n) (hn : ¬ width.Holds signed n) :
    ∃ cause, primitive p d = .error (.outOfRange width cause) := by
  cases signed with
  | false =>
    obtain ⟨cause, h⟩ := natural_of_not_holds hd hn
    exact ⟨cause, primitive_of_natural_error hp h⟩
  | true =>
    cases p with
    | bool | text | varint => cases hp
    | word =>
      cases hp
      have hword : ∃ cause, Word.ofInt width n = .error (.outOfRange width cause) :=
        ⟨_, dif_neg hn⟩
      obtain ⟨cause, h⟩ := hword
      exact ⟨cause, bind_eq_error.mpr (.inr ⟨n, hd, bind_eq_error.mpr (.inl h)⟩)⟩

theorem primitive_of_numberOf_error (hp : p.number? = some (width, signed))
    (hd : numberOf width signed p.name d = .error f) : primitive p d = .error f := by
  cases signed with
  | false =>
    have hnatural : naturalOf width p.name d = .error f := map_eq_error.mp hd
    exact primitive_of_natural_error hp (bind_eq_error.mpr (.inl hnatural))
  | true =>
    cases p with
    | bool | text | varint => cases hp
    | word =>
      cases hp
      exact bind_eq_error.mpr (.inl hd)

/-- What the readers of signed and of other numbers take for a numeral. -/
inductive Reading : Bool → List Char → Int → Prop
  | signed {cs : List Char} {n : Int} (numeral : Decimal cs n) : Reading true cs n
  | unsigned {cs : List Char} {n : Nat} (numeral : Natural cs n) : Reading false cs n

/-- The number that a text without white space around it is read as. -/
def read (signed : Bool) (cs : List Char) : Except NumeralFault Int :=
  if signed then Numeral.signed maxInteger cs
  else (naturalDigits cs).map fun n : Nat => (n : Int)

theorem holds_widest_signed : Width.w128.Holds true n ↔
    -(maxInteger : Int) - 1 ≤ n ∧ n ≤ maxInteger := by
  have hmin : Width.w128.signedMin = -(maxInteger : Int) - 1 := by decide
  have hmax : Width.w128.signedMax = maxInteger := by decide
  rw [Width.holds_signed, hmin, hmax]

theorem read_judged : Judged (read signed cs) (Reading signed) (Width.w128.Holds signed) cs := by
  cases signed with
  | true =>
    have hsigned : Judged (Numeral.signed maxInteger cs) Decimal (Width.w128.Holds true) cs :=
      Numeral.signed_judged.fits_congr fun n => holds_widest_signed.symm
    refine hsigned.congr fun head n _ => ⟨.signed, fun h => ?_⟩
    cases h with
    | signed h => exact h
  | false =>
    have hrange : ∀ n : Nat, Width.w128.Holds false n ↔ n ≤ maxNatural :=
      fun n => Width.holds_natural
    have hnatural : Judged ((naturalDigits cs).map fun n : Nat => (n : Int)) _
        (Width.w128.Holds false) cs := naturalDigits_judged.map hrange
    refine hnatural.congr fun head n _ => ?_
    constructor
    · rintro ⟨m, hm, rfl⟩
      exact .unsigned hm
    · intro h
      cases h with
      | @unsigned _ m h => exact ⟨m, h, rfl⟩

theorem isNegative_iff : isNegative cs = true ↔
    ∃ n, Decimal cs n ∧ Width.w128.signedMin ≤ n ∧ n < 0 := by
  have hread : ∀ n, Numeral.signed maxInteger cs = .ok n ↔
      Decimal cs n ∧ -(maxInteger : Int) - 1 ≤ n ∧ n ≤ maxInteger :=
    Numeral.signed_judged.ok
  unfold isNegative
  constructor
  · intro h
    split at h
    next n hn =>
      obtain ⟨hdecimal, hfits⟩ := (hread n).mp hn
      have hholds := Width.holds_signed.mp (holds_widest_signed.mpr hfits)
      exact ⟨n, hdecimal, hholds.1, of_decide_eq_true h⟩
    next => cases h
  · rintro ⟨n, hdecimal, hlo, hneg⟩
    have hmax : n ≤ Width.w128.signedMax := hneg.le.trans (Width.w128.zero_le_greatest true)
    have hfits := holds_widest_signed.mp (Width.holds_signed.mpr ⟨hlo, hmax⟩)
    rw [(hread n).mpr ⟨hdecimal, hfits⟩]
    exact decide_eq_true hneg

/-- The fault of a text that is not read as a number. -/
def textFault (width : Width) (signed : Bool) (target s : String) (f : NumeralFault) : Fault :=
  let cs := Blank.trim s.toList
  if signed = false ∧ isNegative cs = true then .outOfRange width (.negative (String.ofList cs))
  else numeralFault width target s f

theorem numberOf_text (width : Width) (signed : Bool) (target s : String) :
    numberOf width signed target (.text s) =
      (read signed (Blank.trim s.toList)).mapError (textFault width signed target s) := by
  cases signed with
  | true =>
    change integer width target (.text s) =
      (Numeral.signed maxInteger (Blank.trim s.toList)).mapError (textFault width true target s)
    rw [integer]
    cases Numeral.signed maxInteger (Blank.trim s.toList) <;> rfl
  | false =>
    change (naturalText width target s).map (fun n : Nat => (n : Int)) =
      ((naturalDigits (Blank.trim s.toList)).map fun n : Nat => (n : Int)).mapError
        (textFault width false target s)
    rw [naturalText]
    cases naturalDigits (Blank.trim s.toList) with
    | ok n => rfl
    | error f =>
      simp only [Except.map, Except.mapError, textFault, true_and]
      by_cases hneg : isNegative (Blank.trim s.toList) = true
      · rw [if_pos hneg, if_pos hneg]
      · rw [if_neg hneg, if_neg hneg]

/-- A numeral of an integer: decimal digits after a sign or none, or hexadecimal digits after their
mark where no number is negative. -/
inductive Spelling : Bool → List Char → Int → Prop
  | decimal {signed : Bool} {cs : List Char} {n : Int} (numeral : Decimal cs n) :
      Spelling signed cs n
  | hexadecimal {x : Char} {cs : List Char} {n : Nat} (mark : x = 'x' ∨ x = 'X')
      (magnitude : Positional 16 cs n) : Spelling false ('0' :: x :: cs) n

/-- Plain data that stands for an integer. A text may have white space around the numeral, which
has a minus sign just if the integer is negative. -/
inductive Means (signed : Bool) (n : Int) : Datum → Prop
  | natural {m : Nat} (value : (m : Int) = n) : Means signed n (.natural m)
  | integer (holds : Width.w128.Holds true n) : Means signed n (.integer n)
  | text {s : String} {lead cs trail : List Char} (parts : s.toList = lead ++ cs ++ trail)
      (lead_blank : ∀ c ∈ lead, Blank.isBlank c = true)
      (trail_blank : ∀ c ∈ trail, Blank.isBlank c = true) (numeral : Spelling signed cs n)
      (sign : 0 ≤ n → ∀ rest, cs ≠ '-' :: rest) : Means signed n (.text s)

theorem positional_not_blank {radix m : Nat} (hr : radix ≤ 16) (h : Positional radix cs m) :
    ∀ c ∈ cs, Blank.isBlank c = false :=
  h.forall hr (by decide)

theorem Spelling.not_blank (h : Spelling signed cs n) : ∀ c ∈ cs, Blank.isBlank c = false := by
  have hsign : ∀ {c : Char} {rest : List Char} {radix m : Nat}, Blank.isBlank c = false →
      radix ≤ 16 → Positional radix rest m → ∀ b ∈ c :: rest, Blank.isBlank b = false :=
    fun hc hr h => List.forall_mem_cons.mpr ⟨hc, positional_not_blank hr h⟩
  cases h with
  | decimal h =>
    cases h with
    | natural h =>
      cases h with
      | bare h => exact positional_not_blank (by decide) h
      | plus h => exact hsign (by decide) (by decide) h
    | minus h => exact hsign (by decide) (by decide) h
  | hexadecimal hx h =>
    have hmark : ∀ x : Char, x = 'x' ∨ x = 'X' → Blank.isBlank x = false := by
      rintro x (rfl | rfl) <;> decide
    exact List.forall_mem_cons.mpr ⟨by decide, hsign (hmark _ hx) (by decide) h⟩

theorem Spelling.trim_eq {lead trail : List Char} (h : Spelling signed cs n)
    (hlead : ∀ c ∈ lead, Blank.isBlank c = true) (htrail : ∀ c ∈ trail, Blank.isBlank c = true) :
    Blank.trim (lead ++ cs ++ trail) = cs :=
  Blank.trim_append hlead htrail h.not_blank

theorem Spelling.reading (h : Spelling signed cs n)
    (hsign : signed = true ∨ ∀ rest, cs ≠ '-' :: rest) : Reading signed cs n := by
  cases h with
  | decimal h =>
    cases signed with
    | true => exact .signed h
    | false =>
      obtain ⟨m, hm, rfl⟩ := (Numeral.decimal_iff (hsign.resolve_left nofun)).mp h
      exact .unsigned (.decimal hm)
  | hexadecimal hx h => exact .unsigned (.hexadecimal hx (.bare h))

theorem exists_minus_of_neg (h : Decimal cs n) (hn : n < 0) : ∃ rest, cs = '-' :: rest := by
  cases h with
  | @natural _ m _ => exact absurd (Int.natCast_nonneg m) (Int.not_le.mpr hn)
  | minus => exact ⟨_, rfl⟩

theorem Spelling.decimal_of_neg (h : Spelling signed cs n) (hn : n < 0) : Decimal cs n := by
  cases h with
  | decimal h => exact h
  | @hexadecimal _ _ m _ _ => exact absurd (Int.natCast_nonneg m) (Int.not_le.mpr hn)

theorem reading_minus_not_unsigned : ¬ Reading false ('-' :: cs) n := by
  intro h
  cases h with
  | unsigned h =>
    cases h with
    | decimal h => exact Signless.minus_not_head (by decide) h

/-- What can be read and is in the range of the widest numbers is read. -/
theorem numberOf_text_of_reading {s : String} (h : Reading signed (Blank.trim s.toList) n)
    (hn : Width.w128.Holds signed n) : numberOf width signed target (.text s) = .ok n := by
  rw [numberOf_text, (read_judged.ok n).mpr ⟨h, hn⟩]
  rfl

/-- A start of a text that can be read and is not in that range puts the text out of range. -/
theorem numberOf_text_of_head {s : String} {head : List Char}
    (hhead : head <+: Blank.trim s.toList) (h : Reading signed head n)
    (hn : ¬ Width.w128.Holds signed n) :
    ∃ cause, numberOf width signed target (.text s) = .error (.outOfRange width cause) := by
  rw [numberOf_text, read_judged.tooLarge.mpr ⟨head, n, hhead, h, hn⟩]
  by_cases hneg : signed = false ∧ isNegative (Blank.trim s.toList) = true
  · exact ⟨_, congrArg Except.error (if_pos hneg)⟩
  · exact ⟨_, congrArg Except.error (if_neg hneg)⟩

theorem numberOf_text_of_negative {s : String} (h : Decimal (Blank.trim s.toList) n)
    (hlo : Width.w128.signedMin ≤ n) (hneg : n < 0) :
    ∃ cause, numberOf width false target (.text s) = .error (.outOfRange width cause) := by
  have hnegative : isNegative (Blank.trim s.toList) = true := isNegative_iff.mpr ⟨n, h, hlo, hneg⟩
  have hread : ∃ f, read false (Blank.trim s.toList) = .error f := by
    cases hr : read false (Blank.trim s.toList) with
    | error f => exact ⟨f, rfl⟩
    | ok k =>
      obtain ⟨rest, hrest⟩ := exists_minus_of_neg h hneg
      have hreading := ((read_judged.ok k).mp hr).1
      rw [hrest] at hreading
      exact absurd hreading reading_minus_not_unsigned
  obtain ⟨f, hf⟩ := hread
  rw [numberOf_text, hf]
  exact ⟨_, congrArg Except.error (if_pos ⟨rfl, hnegative⟩)⟩

theorem numberOf_of_holds (h : Means signed n d) (hn : Width.w128.Holds signed n) :
    numberOf width signed target d = .ok n := by
  cases h with
  | @natural m hm =>
    subst hm
    cases signed with
    | true => exact if_pos (Int.ofNat_le.mp (holds_widest_signed.mp hn).2)
    | false => rfl
  | integer _ =>
    cases signed with
    | true => rfl
    | false =>
      obtain ⟨hge, _⟩ := Width.holds_unsigned.mp hn
      refine numberOf_unsigned_eq_ok.mpr ⟨n.toNat, if_pos hge, Int.toNat_of_nonneg hge⟩
  | @text s lead cs trail hparts hlead htrail hnum hsign =>
    have htrim : Blank.trim s.toList = cs := by rw [hparts, hnum.trim_eq hlead htrail]
    apply numberOf_text_of_reading _ hn
    rw [htrim]
    cases signed with
    | true => exact hnum.reading (.inl rfl)
    | false => exact hnum.reading (.inr (hsign (Width.holds_unsigned.mp hn).1))

theorem numberOf_of_not_holds (h : Means signed n d) (hlo : Width.w128.signedMin ≤ n)
    (hhi : n ≤ Width.w128.unsignedMax) (hn : ¬ Width.w128.Holds signed n) :
    ∃ cause, numberOf width signed target d = .error (.outOfRange width cause) := by
  have hneg : signed = false → n < 0 := by
    rintro rfl
    by_contra hge
    exact hn (Width.holds_unsigned.mpr ⟨Int.not_lt.mp hge, hhi⟩)
  cases h with
  | @natural m hm =>
    subst hm
    cases signed with
    | true =>
      have hover : ¬ m ≤ maxInteger := by
        intro hle
        exact hn (holds_widest_signed.mpr ⟨by omega, Int.ofNat_le.mpr hle⟩)
      exact ⟨_, if_neg hover⟩
    | false => exact absurd (Int.natCast_nonneg m) (Int.not_le.mpr (hneg rfl))
  | integer hholds =>
    cases signed with
    | true => exact absurd hholds hn
    | false =>
      have hof : naturalOf width target (.integer n) =
          .error (.outOfRange width (.negative (toString n))) := if_neg (Int.not_le.mpr (hneg rfl))
      exact ⟨_, map_eq_error.mpr hof⟩
  | @text s lead cs trail hparts hlead htrail hnum hsign =>
    have htrim : Blank.trim s.toList = cs := by rw [hparts, hnum.trim_eq hlead htrail]
    cases signed with
    | true =>
      have hreading := hnum.reading (.inl rfl)
      rw [← htrim] at hreading
      exact numberOf_text_of_head (List.prefix_refl _) hreading hn
    | false =>
      have hdecimal := hnum.decimal_of_neg (hneg rfl)
      rw [← htrim] at hdecimal
      exact numberOf_text_of_negative hdecimal hlo (hneg rfl)

end Argument

namespace Interface

open Argument (Means)
open Numeral (Positional)

variable {i : Interface} {id : TypeId} {decl : TypeDecl} {p : Primitive} {width : Width}
  {signed : Bool} {n : Int}

theorem value_of_primitive {d : Datum} (l : Limits) (hr : i.resolve id = .ok decl)
    (hl : decl.layout = .primitive p) : i.value l id d = Argument.primitive p d := by
  have htop : l.checkDepth 0 = .ok () := Limits.within_eq_ok_iff.mpr fun max _ => Nat.zero_le max
  obtain ⟨declId, layout⟩ := decl
  cases hl
  rw [value, valueAt, htop, hr]
  rfl

/-- Whatever plain data an integer is given as, a number of its type stands for it if the type
holds it, and it is out of the range of the type otherwise. -/
theorem value_of_means (l : Limits) (hr : i.resolve id = .ok decl)
    (hl : decl.layout = .primitive p) (hp : p.number? = some (width, signed))
    (hlo : Width.w128.signedMin ≤ n) (hhi : n ≤ Width.w128.unsignedMax) :
    (width.Holds signed n → ∃ v : Value, v.kind = .primitive p ∧ v.number? = some n ∧
      ∀ d, Means signed n d → i.value l id d = .ok v) ∧
    (¬ width.Holds signed n → ∀ d, Means signed n d →
      ∃ cause, i.value l id d = .error (.outOfRange width cause)) := by
  constructor
  · intro hn
    obtain ⟨v, hkind, hnumber, hmade⟩ := Argument.primitive_of_holds hp hn
    refine ⟨v, hkind, hnumber, fun d hd => ?_⟩
    rw [value_of_primitive l hr hl]
    exact hmade d (Argument.numberOf_of_holds hd hn.widest)
  · intro hn d hd
    rw [value_of_primitive l hr hl]
    by_cases hwidest : Width.w128.Holds signed n
    · exact Argument.primitive_of_not_holds hp (Argument.numberOf_of_holds hd hwidest) hn
    · obtain ⟨cause, h⟩ := Argument.numberOf_of_not_holds hd hlo hhi hwidest
      exact ⟨cause, Argument.primitive_of_numberOf_error hp h⟩

def scalarTypes : List TypeDecl :=
  [⟨0, .primitive (.word .w8 false)⟩, ⟨1, .primitive (.word .w16 true)⟩,
    ⟨2, .primitive (.varint .w32)⟩]

def scalarMarks : Array Mark := #[.done 1, .done 1, .done 1]

theorem survey_scalarTypes : Walk.survey scalarTypes.toArray = .ok scalarMarks := by cbv

/-- A number of each kind. -/
def scalarInterface : Interface :=
  ⟨none, scalarTypes.toArray, [], none, Walk.wellFounded_of_survey survey_scalarTypes⟩

theorem ofParts_scalar : ofParts scalarTypes [] none = .ok scalarInterface := by
  have horder : inOrder scalarTypes = scalarTypes := by cbv
  exact ofParts_of_survey horder rfl rfl survey_scalarTypes rfl rfl

/-- Hexadecimal digits in both cases, decimal ones after zeros, and both kinds of integers. -/
theorem value_of_means_scalars : ofParts scalarTypes [] none = .ok scalarInterface ∧
    (∃ v : Value, v.number? = some 255 ∧ scalarInterface.value {} 0 (.integer 255) = .ok v ∧
      scalarInterface.value {} 0 (.text " 0XfF\n") = .ok v ∧
      scalarInterface.value {} 0 (.text "+0255") = .ok v) ∧
    ∃ cause, scalarInterface.value {} 2 (.text "-1") = .error (.outOfRange .w32 cause) := by
  have hbyte : scalarInterface.resolve 0 = .ok ⟨0, .primitive (.word .w8 false)⟩ := rfl
  have hcompact : scalarInterface.resolve 2 = .ok ⟨2, .primitive (.varint .w32)⟩ := rfl
  obtain ⟨hin, _⟩ := value_of_means (n := 255) {} hbyte rfl rfl (by decide) (by decide)
  obtain ⟨_, hout⟩ := value_of_means (n := -1) {} hcompact rfl rfl (by decide) (by decide)
  have hhex : Positional 16 ['f', 'F'] 255 :=
    Numeral.positional_of_magnitude (by decide) (by decide)
      (rfl : Numeral.magnitude 16 255 ['f', 'F'] = .ok 255)
  have hdecimal : Positional 10 ['0', '2', '5', '5'] 255 :=
    Numeral.positional_of_magnitude (by decide) (by decide)
      (rfl : Numeral.magnitude 10 255 ['0', '2', '5', '5'] = .ok 255)
  have hone : Positional 10 ['1'] 1 :=
    Numeral.positional_of_magnitude (by decide) (by decide)
      (rfl : Numeral.magnitude 10 1 ['1'] = .ok 1)
  have hspaced : Means false 255 (.text " 0XfF\n") :=
    .text (rfl : " 0XfF\n".toList = [' '] ++ ['0', 'X', 'f', 'F'] ++ ['\n'])
      (List.forall_mem_singleton.mpr rfl) (List.forall_mem_singleton.mpr rfl)
      (.hexadecimal (.inr rfl) hhex) nofun
  have hplus : Means false 255 (.text "+0255") :=
    .text (rfl : "+0255".toList = [] ++ ['+', '0', '2', '5', '5'] ++ []) (List.forall_mem_nil _)
      (List.forall_mem_nil _) (.decimal (.natural (.plus hdecimal))) nofun
  have hminus : Means false (-1) (.text "-1") :=
    .text (rfl : "-1".toList = [] ++ ['-', '1'] ++ []) (List.forall_mem_nil _)
      (List.forall_mem_nil _) (.decimal (.minus hone)) (fun h => absurd h (by decide))
  obtain ⟨v, _, hnumber, hall⟩ := hin ⟨by decide, by decide⟩
  have hinteger : Means false 255 (.integer 255) := .integer ⟨by decide, by decide⟩
  refine ⟨ofParts_scalar, ⟨v, hnumber, hall _ hinteger, hall _ hspaced, hall _ hplus⟩, ?_⟩
  exact hout (fun h => absurd h.1 (by decide)) _ hminus

end Interface

end CallWire
