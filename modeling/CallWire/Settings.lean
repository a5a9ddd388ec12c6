import CallWire.Limits

namespace CallWire

/-- What names the section that constructor arguments are deployed in. -/
structure SectionHeader where
  kind : UInt8 := 0
  name : String := "constructor"
  deriving DecidableEq, Repr

/-- What a codec may be told. -/
structure Settings where
  limits : Limits := {}
  allowTrailing : Bool := false
  header : SectionHeader := {}
  deriving DecidableEq, Repr

namespace Settings

/-- A section can carry the name. -/
def Fits (s : Settings) : Prop := s.header.name.utf8ByteSize ≤ maxSectionName

instance (s : Settings) : Decidable s.Fits := inferInstanceAs (Decidable (_ ≤ _))

def validate (s : Settings) : Except Fault Unit :=
  if s.Fits then .ok ()
  else .error (.invalidSettings (.longSectionName s.header.name.utf8ByteSize))

theorem fits_of_validate {s : Settings} (h : s.validate = .ok ()) : s.Fits := by
  unfold validate at h
  split at h
  next hs => exact hs
  next => simp at h

theorem fits_default : Fits {} := by decide

end Settings

end CallWire
