import CallWire.Proofs.CodecInvocation
import CallWire.Proofs.ValueLimits

namespace CallWire

namespace Interface

variable {i : Interface} {l : Limits} {depth : Nat} {id : TypeId} {t : Value}

/-- A layer keeps to the limits when what it refers to does, a level further down. -/
theorem templateOf_heeds {build : TypeId → Except Fault Value} {layout : Layout}
    (hdepth : l.checkDepth depth = .ok ())
    (hb : ∀ child ∈ layout.references, ∀ t, build child = .ok t → t.Heeds l (depth + 1))
    (h : templateOf build l layout = .ok t) : t.Heeds l depth := by
  have hle : ∀ max ∈ l.depth, depth ≤ max := Limits.within_eq_ok_iff.mp hdepth
  cases layout with
  | primitive p =>
    cases h
    cases p with
    | text => exact Value.heeds_leaf rfl hle fun max _ => Nat.zero_le max
    | _ => exact Value.heeds_leaf rfl hle fun _ _ => trivial
  | struct fields | tuple fields =>
    obtain ⟨ts, hts, h⟩ := bind_eq_ok.mp h
    cases pure_eq_ok.mp h
    exact Value.heeds_iff.mpr ⟨hle, fun _ _ => trivial, mapM_forall hts hb⟩
  | vector element =>
    obtain ⟨u, hu, h⟩ := bind_eq_ok.mp h
    cases pure_eq_ok.mp h
    exact (hb element (List.mem_singleton_self _) u hu).newVector hle
  | array element length =>
    obtain ⟨_, hlength, h⟩ := bind_eq_ok.mp h
    obtain ⟨u, hu, h⟩ := bind_eq_ok.mp h
    have helement := hb element (List.mem_singleton_self _) u hu
    exact helement.newArray hle (Limits.within_eq_ok_iff.mp hlength) h
  | enum variants =>
    obtain ⟨tss, htss, h⟩ := bind_eq_ok.mp h
    refine Value.Heeds.newEnum hle (mapM_forall htss ?_) h
    intro fields hf ts hts
    exact mapM_forall hts fun child hc => hb child (List.mem_flatten.mpr ⟨fields, hf, hc⟩)

theorem templateAt_heeds (h : i.templateAt l depth id = .ok t) : t.Heeds l depth := by
  induction id using i.types_induction generalizing depth t with
  | _ id ih =>
    obtain ⟨hdepth, decl, hd, ht⟩ := templateAt_eq_ok.mp h
    exact templateOf_heeds hdepth (fun child hc u hu => ih decl hd child hc hu) ht

end Interface

namespace Codec

variable {c : Codec} {ids : List TypeId} {values : List Value} {bytes : Bytes}

theorem scanType_heeds (c : Codec) (id : TypeId) :
    (c.scanType id).Gives c.limits fun v => v.Heeds c.limits 0 :=
  (Scan.Gives.ofExcept _).bind fun _ ht => (Interface.templateAt_heeds ht).scan

theorem scanTypes_heeds (c : Codec) (ids : List TypeId) :
    (c.scanTypes ids).Gives c.limits fun vs => ∀ v ∈ vs, v.Heeds c.limits 0 := by
  induction ids with
  | nil => exact .pure nofun
  | cons id ids ih =>
    rw [scanTypes]
    refine (scanType_heeds c id).bind fun v hv => ih.bind fun vs hvs => .pure ?_
    exact List.forall_mem_cons.mpr ⟨hv, hvs⟩

/-- The bytes that values come from, and the values with all that they are made of, keep to the
limits. -/
structure Heeded (c : Codec) (bytes : Bytes) (values : List Value) : Prop where
  frame : ∀ max ∈ c.limits.frame, bytes.length ≤ max
  nodes : ∀ v ∈ values, v.Heeds c.limits 0

theorem heeded_of_decodeTypes (h : c.decodeTypes ids bytes = .ok values) :
    c.Heeded bytes values := by
  obtain ⟨rest, ⟨hframe, cursor, hscan, _⟩, _⟩ := decodeTypes_eq_ok.mp h
  exact ⟨Limits.within_eq_ok_iff.mp hframe, (scanTypes_heeds c ids _ _ _ rfl hscan).2⟩

/-- Whatever is decoded keeps to the limits of the codec, and so do the bytes it comes from. -/
theorem decoded_heeds (c : Codec) (bytes : Bytes) :
    (∀ name values, c.decode name bytes = .ok values → c.Heeded bytes values) ∧
    (∀ name values, c.decodeInputs name bytes = .ok values → c.Heeded bytes values) ∧
    (∀ name values, c.decodeInvocation bytes = .ok (name, values) →
      c.Heeded bytes values ∧ ∀ max ∈ c.limits.collection, name.utf8ByteSize ≤ max) ∧
    ∀ id v used, c.decodeType id bytes = .ok (v, used) → c.Heeded bytes [v] := by
  refine ⟨fun name values h => ?_, fun name values h => ?_, fun name values h => ?_,
    fun id v used h => ?_⟩
  · obtain ⟨m, _, h⟩ := bind_eq_ok.mp h
    exact heeded_of_decodeTypes h
  · obtain ⟨m, _, h⟩ := bind_eq_ok.mp h
    exact heeded_of_decodeTypes h
  · obtain ⟨cursor, m, hname, _, hvalues⟩ := decodeInvocation_eq_ok.mp h
    obtain ⟨hframe, hscan⟩ := run_eq_ok.mp hname
    obtain ⟨_, hlength⟩ := Scan.text_gives _ _ _ rfl hscan
    exact ⟨⟨Limits.within_eq_ok_iff.mp hframe, (heeded_of_decodeTypes hvalues).nodes⟩, hlength⟩
  · obtain ⟨⟨_, cursor⟩, hrun, h⟩ := bind_eq_ok.mp h
    cases pure_eq_ok.mp h
    obtain ⟨hframe, hscan⟩ := run_eq_ok.mp hrun
    obtain ⟨_, hv⟩ := scanType_heeds c id _ _ _ rfl hscan
    exact ⟨Limits.within_eq_ok_iff.mp hframe, List.forall_mem_singleton.mpr hv⟩

def notesTypes : List TypeDecl :=
  [⟨0, .primitive .text⟩, ⟨1, .enum [[], [0]]⟩, ⟨2, .array 1 2⟩, ⟨3, .vector 2⟩]

def notesMarks : Array Mark := #[.done 1, .done 2, .done 7, .done 8]

theorem survey_notesTypes : Walk.survey notesTypes.toArray = .ok notesMarks := by cbv

def notesInterface : Interface :=
  ⟨none, notesTypes.toArray, [⟨"put", [3], [3]⟩], none,
    Walk.wellFounded_of_survey survey_notesTypes⟩

/-- A method that takes pairs of optional texts, under limits that leave no room. -/
def notesCodec : Codec :=
  ⟨notesInterface, { limits := { frame := some 10, collection := some 3, depth := some 3 } },
    Settings.fits_default⟩

def blankNote : Value := .enum [[], [.text ""]] 0 []

/-- One pair, in which the second text is there. -/
def notes : Value :=
  .vector (.array blankNote 2 [blankNote, blankNote])
    [.array blankNote 2 [blankNote, .enum [[], [.text ""]] 1 [.text "ab"]]]

theorem decoded_heeds_notes :
    notesCodec.Heeded [12, 112, 117, 116, 4, 0, 1, 8, 97, 98] [notes] ∧
      "put".utf8ByteSize ≤ 3 ∧ notesCodec.Heeded [4, 0, 1, 8, 97, 98] [notes] := by
  obtain ⟨_, _, hinvocation, _⟩ :=
    decoded_heeds notesCodec [12, 112, 117, 116, 4, 0, 1, 8, 97, 98]
  obtain ⟨hframed, hname⟩ := hinvocation "put" [notes] (by cbv)
  obtain ⟨_, hinputs, _, _⟩ := decoded_heeds notesCodec [4, 0, 1, 8, 97, 98]
  exact ⟨hframed, hname 3 rfl, hinputs "put" [notes] (by cbv)⟩

end Codec

end CallWire
