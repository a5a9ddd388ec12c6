import CallWire.Proofs.CodecRoundTrip
import CallWire.Proofs.SectionWire

namespace CallWire

namespace Codec

variable {c : Codec} {args : List Datum} {bytes : Bytes}

/-- The section that a codec deploys encoded arguments in. -/
def sectionOf (c : Codec) (content : Bytes) : Section :=
  ⟨c.settings.header.kind, c.settings.header.name, content, c.fits⟩

/-- Its name is never too long, as the settings of a codec have been checked. -/
theorem ofParts_header (c : Codec) (content : Bytes) :
    Section.ofParts c.settings.header.kind c.settings.header.name content =
      .ok (c.sectionOf content) :=
  Section.ofParts_self (c.sectionOf content)

theorem encodeConstructor_eq (c : Codec) (args : List Datum) :
    c.encodeConstructor args = c.encode "" args >>= fun content => (c.sectionOf content).encode := by
  have hlookup : c.interface.methodOrConstructor "" = c.interface.constructor := rfl
  unfold encodeConstructor constructorSection encode
  simp only [hlookup, bind_assoc, ofParts_header]
  rfl

theorem encodeDeployment_eq (c : Codec) (code : Bytes) (args : List Datum) :
    c.encodeDeployment code args = (code ++ ·) <$> c.encodeConstructor args := by
  unfold encodeDeployment encodeConstructor
  simp only [map_bind]
  rfl

theorem encodeConstructor_eq_ok : c.encodeConstructor args = .ok bytes ↔
    ∃ content, c.encode "" args = .ok content ∧ (c.sectionOf content).encode = .ok bytes := by
  rw [encodeConstructor_eq, bind_eq_ok]

/-- The constructor's arguments are deployed after the code, in a section that has the kind and
name of the settings, that is found whatever follows it, and that nothing but its length can
prevent. -/
theorem deployment_framing (c : Codec) (args : List Datum) :
    (∀ code, c.encodeDeployment code args = (code ++ ·) <$> c.encodeConstructor args) ∧
    (∀ bytes, c.encodeConstructor args = .ok bytes →
      ∃ s : Section, s.kind = c.settings.header.kind ∧ s.name = c.settings.header.name ∧
        c.encode "" args = .ok s.content ∧
        ∀ rest, Section.decode (bytes ++ rest) = .ok (s, bytes.length)) ∧
    ∀ content size, c.encode "" args = .ok content →
      size = 1 + c.settings.header.name.utf8ByteSize + content.length →
      (size ≤ maxLength → ∃ bytes, c.encodeConstructor args = .ok bytes) ∧
      (maxLength < size → c.encodeConstructor args = .error (.invalidSection (.longBody size))) := by
  refine ⟨fun code => encodeDeployment_eq c code args, fun bytes h => ?_, ?_⟩
  · obtain ⟨content, hcontent, hencode⟩ := encodeConstructor_eq_ok.mp h
    exact ⟨c.sectionOf content, rfl, rfl, hcontent, Section.decode_of_encode hencode⟩
  · rintro content size hcontent rfl
    rw [encodeConstructor_eq, hcontent]
    refine ⟨fun hle => ?_, fun hlong => Section.encode_of_long (s := c.sectionOf content) hlong⟩
    exact ⟨_, Section.encode_eq_ok.mpr ⟨hle, rfl⟩⟩

def kvTable : TypeTable := #[⟨0, .primitive .text⟩]

theorem survey_kvTable : Walk.survey kvTable = .ok #[.done 1] := by cbv

/-- A constructor that takes a text, deployed under a name of its own. -/
def kvCodec : Codec :=
  ⟨⟨some ⟨"kv", some [0]⟩, kvTable, [], some ⟨"", [0], []⟩,
    Walk.wellFounded_of_survey survey_kvTable⟩, { header := ⟨7, "init"⟩ }, by decide⟩

theorem deployment_framing_kv :
    kvCodec.encodeDeployment [1, 2] [.text "v"] =
        .ok [1, 2, 7, 7, 0, 0, 0, 4, 105, 110, 105, 116, 4, 118] ∧
      ∃ s : Section, s.kind = 7 ∧ s.name = "init" ∧ s.content = [4, 118] ∧
        Section.decode ([7, 7, 0, 0, 0, 4, 105, 110, 105, 116, 4, 118] ++ [9]) = .ok (s, 12) := by
  have hconstructor : kvCodec.encodeConstructor [.text "v"] =
      .ok [7, 7, 0, 0, 0, 4, 105, 110, 105, 116, 4, 118] := by cbv
  obtain ⟨hdeployment, hsection, _⟩ := deployment_framing kvCodec [.text "v"]
  obtain ⟨s, hkind, hname, hcontent, hdecode⟩ := hsection _ hconstructor
  refine ⟨by rw [hdeployment, hconstructor]; rfl, s, hkind, hname, ?_, hdecode [9]⟩
  have hencode : kvCodec.encode "" [.text "v"] = .ok [4, 118] := by cbv
  exact (Except.ok.inj (hcontent.symm.trans hencode))

end Codec

end CallWire
