import CallWire.Primitive
import CallWire.Utf8
import CallWire.Proofs.BlankTrim

namespace CallWire

namespace Utf8

/-- The text from a byte on, with no answer when that byte lies inside a character. -/
def rest? (s : String) (start : Nat) : Option String :=
  if h : String.Pos.Raw.IsValid s ⟨start⟩ then some (s.sliceFrom (s.pos ⟨start⟩ h)).copy else none

example : rest? "é" 1 = none := by decide

theorem rest?_append (s t : String) : rest? (s ++ t) s.utf8ByteSize = some t := by
  have hvalid : String.Pos.Raw.IsValid (s ++ t) ⟨s.utf8ByteSize⟩ :=
    String.Pos.Raw.isValid_iff_exists_append.mpr ⟨s, t, rfl, rfl⟩
  rw [rest?, dif_pos hvalid, Option.some.injEq, String.copy_sliceFrom_eq_iff_exists_splits]
  exact ⟨s, rfl, rfl⟩

theorem encode_ofList (cs : List Char) :
    encode (String.ofList cs) = cs.flatMap String.utf8EncodeChar := by
  rw [encode, String.toUTF8_eq_toByteArray, String.toByteArray_ofList]
  simp [List.utf8Encode]

/-- The first byte of a character is the character itself if that is ASCII, and no ASCII code
otherwise. -/
theorem head_utf8EncodeChar (c : Char) : ∃ b bs, String.utf8EncodeChar c = b :: bs ∧
    (b.toNat = c.toNat ∨ 127 < c.toNat ∧ 127 < b.toNat) := by
  unfold String.utf8EncodeChar
  dsimp only
  split
  next h =>
    refine ⟨_, _, rfl, .inl ?_⟩
    rw [UInt8.toNat_ofNat']
    change c.val.toNat ≤ 127 at h
    change c.val.toNat % 2 ^ 8 = c.val.toNat
    omega
  next h =>
    have hc : 127 < c.toNat := Nat.lt_of_not_le h
    have hlead : ∀ n, 192 ≤ n → n < 256 → 127 < (UInt8.ofNat n).toNat := by
      intro n hlow hhigh
      rw [UInt8.toNat_ofNat']
      omega
    split
    next => exact ⟨_, _, rfl, .inr ⟨hc, hlead _ (by omega) (by omega)⟩⟩
    next =>
      split
      next => exact ⟨_, _, rfl, .inr ⟨hc, hlead _ (by omega) (by omega)⟩⟩
      next => exact ⟨_, _, rfl, .inr ⟨hc, hlead _ (by omega) (by omega)⟩⟩

theorem head?_encode_ofList {letter c : Char} (cs : List Char) (hl : letter.toNat ≤ 127) :
    (encode (String.ofList (c :: cs))).head? = some letter.toUInt8 ↔ c = letter := by
  obtain ⟨b, bs, hbytes, hb⟩ := head_utf8EncodeChar c
  have hletter : letter.toUInt8.toNat = letter.toNat := by
    change letter.val.toNat % 2 ^ 8 = letter.val.toNat
    have hval : letter.val.toNat ≤ 127 := hl
    omega
  rw [encode_ofList, List.flatMap_cons, hbytes, List.cons_append, List.head?_cons,
    Option.some.injEq, ← UInt8.toNat_inj, hletter]
  constructor
  · intro h
    apply Char.ext
    apply UInt32.toNat_inj.mp
    change c.toNat = letter.toNat
    omega
  · rintro rfl
    omega

end Utf8

namespace Primitive

variable {cs inner : List Char} {w : Width} {p : Primitive}

/-- A width in decimal digits. -/
def digits (w : Width) : List Char := Nat.toDigits 10 w.bits

/-- The names, in lower case with nothing around them. -/
inductive BareName : List Char → Primitive → Prop
  | bool : BareName "bool".toList bool
  | str : BareName "str".toList text
  | string : BareName "string".toList text
  | unsigned (w : Width) : BareName ('u' :: digits w) (word w false)
  | signed (w : Width) : BareName ('i' :: digits w) (word w true)
  | varint {inner : List Char} (w : Width) (h : Blank.Trims inner ('u' :: digits w)) :
    BareName ("compact<".toList ++ inner ++ ">".toList) (varint w)

theorem width?_eq_some : width? cs = some w ↔ cs = digits w := by
  constructor
  · intro h
    unfold width? at h
    split at h <;> cases h <;> rfl
  · rintro rfl
    cases w <;> rfl

theorem word?_eq_some {signed : Bool} :
    word? cs = some (w, signed) ↔ cs = (if signed then 'i' else 'u') :: digits w := by
  unfold word?
  split
  next bits => cases signed <;> simp [width?_eq_some]
  next bits => cases signed <;> simp [width?_eq_some]
  next hu hi =>
    refine ⟨nofun, ?_⟩
    rintro rfl
    cases signed
    · exact absurd rfl (hu _)
    · exact absurd rfl (hi _)

theorem inner?_eq_some :
    inner? cs = some inner ↔ cs = "compact<".toList ++ inner ++ ">".toList := by
  constructor
  · intro h
    unfold inner? at h
    split at h
    next rest =>
      split at h
      next hlast =>
        obtain ⟨front, rfl⟩ := List.getLast?_eq_some_iff.mp hlast
        rw [List.dropLast_concat] at h
        cases h
        rfl
      next => cases h
    next => cases h
  · rintro rfl
    have hlast : (inner ++ ['>']).getLast? = some '>' := List.getLast?_concat
    have hdrop : (inner ++ ['>']).dropLast = inner := List.dropLast_concat
    exact (if_pos hlast).trans (congrArg some hdrop)

theorem read?_eq_some : read? cs = some p ↔ BareName cs p := by
  unfold read?
  cases hinner : inner? cs with
  | some inner =>
    obtain rfl := inner?_eq_some.mp hinner
    dsimp only
    constructor
    · intro h
      split at h
      next w hword =>
        cases h
        have hcore : Blank.trim inner = 'u' :: digits w := word?_eq_some.mp hword
        exact .varint w (Blank.trim_eq_iff.mp hcore)
      next => cases h
    · intro h
      -- No other name ends in a bracket, and what stands in this one is settled by the text.
      generalize htext : "compact<".toList ++ inner ++ ">".toList = text at h
      cases h with
      | bool => cases htext
      | str => cases htext
      | string => cases htext
      | unsigned w => cases htext
      | signed w => cases htext
      | @varint other w hcore =>
        have hsame : inner = other := by simpa using htext
        subst hsame
        have hword : word? (Blank.trim inner) = some (w, false) := word?_eq_some.mpr hcore.trim_eq
        rw [hword]
  | none =>
    dsimp only
    constructor
    · intro h
      split at h
      next => cases h; exact .bool
      next => cases h; exact .str
      next => cases h; exact .string
      next =>
        obtain ⟨⟨w, signed⟩, hword, rfl⟩ := Option.map_eq_some_iff.mp h
        rw [word?_eq_some.mp hword]
        cases signed
        · exact .unsigned w
        · exact .signed w
    · intro h
      cases h with
      | bool => rfl
      | str => rfl
      | string => rfl
      | unsigned w => cases w <;> rfl
      | signed w => cases w <;> rfl
      | varint w hcore =>
        cases hinner.symm.trans (inner?_eq_some.mpr rfl)

/-- A text that stands for a primitive type: white space around a name in any case. -/
def Named (name : String) (p : Primitive) : Prop :=
  ∃ core, Blank.Trims name.toList core ∧ BareName (core.map Char.toLower) p

theorem parse_eq_ok {name : String} : parse name = .ok p ↔ Named name p := by
  have hread : Named name p ↔ read? ((Blank.trim name.toList).map Char.toLower) = some p := by
    constructor
    · rintro ⟨core, hcore, hnamed⟩
      rw [hcore.trim_eq]
      exact read?_eq_some.mpr hnamed
    · intro h
      exact ⟨_, Blank.trims_trim _, read?_eq_some.mp h⟩
  rw [hread, parse]
  split
  next q hq => rw [hq, Except.ok.injEq, Option.some.injEq]
  next hq =>
    rw [hq]
    exact ⟨nofun, nofun⟩

theorem parse_error {name : String} {f : Fault} (h : parse name = .error f) :
    f = .unsupportedType name := by
  unfold parse at h
  split at h
  next => cases h
  next => exact (Except.error.inj h).symm

/-- Reads the name of an integer by its bytes: the first, and the text from the second on. -/
def wordSlices (name : String) : Option (Option (Width × Bool)) :=
  if (Utf8.encode name).head? = some 'u'.toUInt8 then
    (Utf8.rest? name 1).map fun bits => (width? bits.toList).map (·, false)
  else if (Utf8.encode name).head? = some 'i'.toUInt8 then
    (Utf8.rest? name 1).map fun bits => (width? bits.toList).map (·, true)
  else some none

/-- No character is ever split, whatever the text. -/
theorem wordSlices_eq (name : String) : wordSlices name = some (word? name.toList) := by
  obtain ⟨cs, rfl⟩ : ∃ cs, name = String.ofList cs := ⟨_, String.ofList_toList.symm⟩
  rw [String.toList_ofList]
  cases cs with
  | nil => rfl
  | cons c cs =>
    have hfirst : ∀ letter : Char, letter.toNat ≤ 127 →
        ((Utf8.encode (String.ofList (c :: cs))).head? = some letter.toUInt8 ↔ c = letter) :=
      fun letter hl => Utf8.head?_encode_ofList cs hl
    have hrest : ∀ letter : Char, letter.utf8Size = 1 →
        Utf8.rest? (String.ofList (letter :: cs)) 1 = some (String.ofList cs) := by
      intro letter hsize
      have h := Utf8.rest?_append (String.singleton letter) (String.ofList cs)
      rw [String.utf8ByteSize_singleton, hsize] at h
      rw [← h]
      congr 1
      apply String.toList_injective
      simp
    unfold wordSlices
    by_cases hu : c = 'u'
    · subst hu
      rw [if_pos ((hfirst 'u' (by decide)).mpr rfl), hrest 'u' (by decide)]
      simp [word?]
    · rw [if_neg (mt (hfirst 'u' (by decide)).mp hu)]
      by_cases hi : c = 'i'
      · subst hi
        rw [if_pos ((hfirst 'i' (by decide)).mpr rfl), hrest 'i' (by decide)]
        simp [word?]
      · rw [if_neg (mt (hfirst 'i' (by decide)).mp hi)]
        simp [word?, hu, hi]

/-- A name is read as a primitive type just when it is one of its names; any other text is refused
as it stands. The reader of integer names takes texts apart at bytes, but never inside a
character. -/
theorem parse_iff_named (name : String) :
    (∀ p, parse name = .ok p ↔ Named name p) ∧
    (∀ f, parse name = .error f ↔ f = .unsupportedType name ∧ ∀ p, ¬ Named name p) ∧
    ∀ text : String, wordSlices text = some (word? text.toList) := by
  refine ⟨fun p => parse_eq_ok, fun f => ?_, wordSlices_eq⟩
  constructor
  · intro h
    refine ⟨parse_error h, ?_⟩
    intro p hp
    cases h.symm.trans (parse_eq_ok.mpr hp)
  · rintro ⟨rfl, hnone⟩
    cases h : parse name with
    | ok p => exact absurd (parse_eq_ok.mp h) (hnone p)
    | error f => rw [parse_error h]

example : parse "\t Compact< U64 > " = .ok (.varint .w64) := by rfl

example : parse "compact<i32>" = .error (.unsupportedType "compact<i32>") := by rfl

end Primitive

end CallWire
