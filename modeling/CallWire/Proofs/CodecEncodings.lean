import CallWire.Proofs.CodecNarrows
import CallWire.Proofs.CodecTyped
import CallWire.Proofs.TemplateArrays

namespace CallWire

namespace Codec

variable {c : Codec} {ids : List TypeId} {args : List Datum} {values : List Value} {bytes : Bytes}

theorem Typed.arraysWithin (h : c.Typed ids values) :
    ∀ id ∈ ids, c.interface.ArraysWithin c.limits id := by
  unfold Typed at h
  induction h with
  | nil => exact nofun
  | cons ht _ ih =>
    obtain ⟨t, ht, _⟩ := ht
    exact List.forall_mem_cons.mpr ⟨Interface.arraysWithin_of_templateAt ht, ih⟩

theorem encodeValues_eq_encodeTyped (hn : ids.length = values.length) :
    c.encodeValues ids values = c.encodeTyped ids values := by
  have hcheck : Argument.checkArity .values ids.length values.length = .ok () :=
    Argument.checkArity_eq_ok.mpr hn.symm
  unfold encodeValues
  rw [hcheck]
  rfl

/-- Values that fit their types are encoded under them, unless an array of the types is too
long. -/
theorem encodeValues_of_fits
    (hf : List.Forall₂ (Interface.Fits c.interface c.limits 0) ids values)
    (he : Value.encodeAll values = .ok bytes) :
    ((∀ id ∈ ids, c.interface.ArraysWithin c.limits id) →
      c.encodeValues ids values = .ok bytes) ∧
    ((¬ ∀ id ∈ ids, c.interface.ArraysWithin c.limits id) →
      ∃ f, c.encodeValues ids values = .error f ∧ Interface.OverCollection c.limits f) := by
  have htyped : (c.under c.limits.uncollected).Typed ids values :=
    typed_of_blanks (hf.imp fun _ _ h => h.2)
  have hlax := (encodeTyped_eq_ok hf.length_eq).mpr ⟨htyped, he⟩
  rw [encodeValues_eq_encodeTyped hf.length_eq]
  constructor
  · intro harrays
    have hsame : c.encodeTyped ids values = (c.under c.limits.uncollected).encodeTyped ids values :=
      (encodeTyped_narrows c (fun id hm =>
        Interface.templateAt_narrows_of_arraysWithin (harrays id hm)) values).eq_of_never
    exact hsame.trans hlax
  · intro harrays
    rcases encodeTyped_narrows c (fun id _ =>
      Interface.templateAt_narrows_uncollected c.interface c.limits 0 id) values with hsame | hover
    · have hok := (encodeTyped_eq_ok hf.length_eq).mp (hsame.trans hlax)
      exact absurd hok.1.arraysWithin harrays
    · exact hover

/-- What a codec encodes as arguments it encodes as values, as long as no array that the types
are made of is longer than collections may be; for such an array arguments are not refused, while
values are. -/
theorem encodeValues_of_encode (hc : c.interface.Accepted) {name : String}
    (h : c.encode name args = .ok bytes) :
    ∃ m values, c.interface.methodOrConstructor name = .ok m ∧
      c.convert m.inputs args = .ok values ∧ values.length = args.length ∧
      ((∀ id ∈ m.inputs, c.interface.ArraysWithin c.limits id) →
        c.encodeValues m.inputs values = .ok bytes) ∧
      ((¬ ∀ id ∈ m.inputs, c.interface.ArraysWithin c.limits id) →
        ∃ length, ∃ max ∈ c.limits.collection,
          c.encodeValues m.inputs values = .error (.limitExceeded .collection length max)) := by
  obtain ⟨m, hm, hn, values, hvalues, hall⟩ := encode_eq_ok.mp h
  have hfits := convert_fits hc.shortArrays hn hvalues
  obtain ⟨hwithin, hover⟩ := encodeValues_of_fits hfits hall
  refine ⟨m, values, hm, hvalues, hfits.length_eq.symm.trans hn, hwithin, fun harrays => ?_⟩
  obtain ⟨_, hf, length, max, hmax, rfl⟩ := hover harrays
  exact ⟨length, max, hmax, hf⟩

def pairTypes : List TypeDecl := [⟨0, .primitive .bool⟩, ⟨1, .array 0 2⟩]

def pairMarks : Array Mark := #[.done 1, .done 4]

theorem survey_pairTypes : Walk.survey pairTypes.toArray = .ok pairMarks := by cbv

def pairInterface : Interface :=
  ⟨none, pairTypes.toArray, [⟨"pair", [1], []⟩], none,
    Walk.wellFounded_of_survey survey_pairTypes⟩

theorem accepted_pairInterface : pairInterface.Accepted := by
  have horder : Interface.inOrder pairTypes = pairTypes := by cbv
  exact ⟨pairTypes, [⟨"pair", [1], []⟩], none,
    Interface.ofParts_of_survey horder rfl rfl survey_pairTypes (by cbv) rfl⟩

/-- A method that takes two flags, under a limit on collections. -/
def pairCodec (max : Nat) : Codec :=
  ⟨pairInterface, { limits := { collection := some max } }, Settings.fits_default⟩

theorem not_arraysWithin_pair :
    ¬ ∀ id ∈ [1], pairInterface.ArraysWithin (pairCodec 1).limits id := by
  intro h
  have hle : 2 ≤ 1 := h 1 (List.mem_singleton_self 1) 1 .refl ⟨1, .array 0 2⟩ rfl 0 2 rfl 1 rfl
  exact absurd hle (by decide)

def pairArguments : List Datum := [.list [.bool true, .bool false]]

def pair : List Value := [.array (.bool false) 2 [.bool true, .bool false]]

theorem encode_pair (max : Nat) : (pairCodec max).encode "pair" pairArguments = .ok [1, 0] := by
  cbv

theorem convert_pair (max : Nat) : (pairCodec max).convert [1] pairArguments = .ok pair := by cbv

theorem encodeValues_of_encode_pair :
    (pairCodec 2).encodeValues [1] pair = .ok [1, 0] ∧
      ∃ length, ∃ max ∈ (pairCodec 1).limits.collection,
        (pairCodec 1).encodeValues [1] pair = .error (.limitExceeded .collection length max) := by
  constructor
  · have htemplate : pairInterface.templateAt (pairCodec 2).limits 0 1 =
        .ok (.array (.bool false) 2 [.bool false, .bool false]) := by cbv
    have hwithin := Interface.arraysWithin_of_templateAt htemplate
    obtain ⟨_, values, hm, hvalues, _, hok, _⟩ :=
      encodeValues_of_encode accepted_pairInterface (encode_pair 2)
    cases hm
    cases hvalues.symm.trans (convert_pair 2)
    exact hok fun id hid => by cases List.mem_singleton.mp hid; exact hwithin
  · obtain ⟨_, values, hm, hvalues, _, _, hover⟩ :=
      encodeValues_of_encode accepted_pairInterface (encode_pair 1)
    cases hm
    cases hvalues.symm.trans (convert_pair 1)
    exact hover not_arraysWithin_pair

/-- The limit on collections refuses a pair of flags as a value and takes it as an argument. -/
theorem encodeValues_refuses_pair : ¬ ∀ (c : Codec) (name : String) (args : List Datum)
    (bytes : Bytes), c.interface.Accepted → c.encode name args = .ok bytes →
      ∃ m values, c.interface.methodOrConstructor name = .ok m ∧
        c.convert m.inputs args = .ok values ∧ c.encodeValues m.inputs values = .ok bytes := by
  intro h
  obtain ⟨_, values, hm, hvalues, hok⟩ := h _ _ _ _ accepted_pairInterface (encode_pair 1)
  cases hm
  cases hvalues.symm.trans (convert_pair 1)
  have hrefused : (pairCodec 1).encodeValues [1] pair =
      .error (.limitExceeded .collection 2 1) := by cbv
  cases hok.symm.trans hrefused

end Codec

end CallWire
