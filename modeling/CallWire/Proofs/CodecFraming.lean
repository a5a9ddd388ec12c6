import CallWire.Proofs.CodecRoundTrip
import CallWire.Proofs.ValueFrames

namespace CallWire

namespace Codec

variable {c : Codec} {ids : List TypeId} {values : List Value} {bytes start rest : Bytes}

theorem scanType_framed (c : Codec) (id : TypeId) : (c.scanType id).Framed := by
  unfold scanType Interface.template
  cases ht : c.interface.templateAt c.limits 0 id with
  | ok t =>
    change (pure t >>= Value.scan : Scan Value).Framed
    rw [pure_bind]
    exact Value.scan_framed (Interface.templateAt_plain ht).1
  | error f => exact .error f

theorem scanTypes_framed (c : Codec) (ids : List TypeId) : (c.scanTypes ids).Framed := by
  induction ids with
  | nil => exact .pure []
  | cons id ids ih =>
    rw [scanTypes]
    exact (scanType_framed c id).bind fun v => ih.bind fun vs => .pure (v :: vs)

/-- The same codec, told whether bytes may be left over. -/
def withTrailing (c : Codec) (allow : Bool) : Codec :=
  ⟨c.interface, { c.settings with allowTrailing := allow }, c.fits⟩

theorem scanTypes_withTrailing (c : Codec) (allow : Bool) (ids : List TypeId) :
    (c.withTrailing allow).scanTypes ids = c.scanTypes ids := by
  induction ids with
  | nil => rfl
  | cons id ids ih =>
    rw [scanTypes, scanTypes, ih]
    rfl

/-- The values at the front of the bytes, one for each type, with the bytes that they leave. -/
def Finds (c : Codec) (ids : List TypeId) (bytes : Bytes) (values : List Value) (rest : Bytes) :
    Prop :=
  c.limits.checkFrame bytes.length = .ok () ∧ ∃ cursor,
    c.scanTypes ids (Cursor.start bytes c.limits) = .ok values cursor ∧ cursor.rest = rest

theorem scanWhole_of_left {cursor cursor' : Cursor}
    (h : c.scanTypes ids cursor = .ok values cursor') (ha : c.settings.allowTrailing = false)
    (hr : cursor'.rest ≠ []) :
    c.scanWhole ids cursor = .error (.trailingBytes cursor'.remaining) cursor' := by
  have hfinish : Scan.finish cursor' = .error (.trailingBytes cursor'.remaining) cursor' :=
    if_neg fun he => hr (List.isEmpty_iff.mp he)
  unfold scanWhole
  rw [Scan.bind_of_ok h, ha]
  exact Scan.bind_of_error hfinish

theorem decodeTypes_of_finds (h : c.Finds ids bytes values rest) :
    c.decodeTypes ids bytes =
      if c.settings.allowTrailing = true ∨ rest = [] then .ok values
      else .error (.trailingBytes rest.length) := by
  obtain ⟨hframe, cursor, hscan, rfl⟩ := h
  rw [decodeTypes_of_frame hframe]
  by_cases hend : c.settings.allowTrailing = true ∨ cursor.rest = []
  · rw [scanWhole_eq_ok.mpr ⟨hscan, hend⟩, if_pos hend]
  · obtain ⟨hallow, hrest⟩ := not_or.mp hend
    rw [scanWhole_of_left hscan (Bool.eq_false_of_not_eq_true hallow) hrest, if_neg hend]
    rfl

theorem decodeTypes_eq_ok : c.decodeTypes ids bytes = .ok values ↔
    ∃ rest, c.Finds ids bytes values rest ∧ (c.settings.allowTrailing = true ∨ rest = []) := by
  constructor
  · intro h
    rcases Limits.within_cases .frame c.limits.frame bytes.length with hok | ⟨_, f, hf, _⟩
    · rw [decodeTypes_of_frame hok] at h
      split at h
      next vs cursor hscan =>
        cases h
        obtain ⟨hvs, hend⟩ := scanWhole_eq_ok.mp hscan
        exact ⟨cursor.rest, ⟨hok, cursor, hvs, rfl⟩, hend⟩
      next => cases h
    · rw [decodeTypes_of_overframe hf] at h
      cases h
  · intro h
    obtain ⟨rest, hfinds, hend⟩ := h
    rw [decodeTypes_of_finds hfinds, if_pos hend]

theorem checkFrame_of_le {m n : Nat} (h : c.limits.checkFrame n = .ok ()) (hm : m ≤ n) :
    c.limits.checkFrame m = .ok () :=
  Limits.within_eq_ok_iff.mpr fun max hmax => hm.trans (Limits.within_eq_ok_iff.mp h max hmax)

/-- What is found takes up bytes in which it is found whatever follows them, and any proper start
of which is reported as truncated. -/
theorem Finds.framed (h : c.Finds ids bytes values rest) : ∃ xs, bytes = xs ++ rest ∧
    (∀ ys, c.limits.checkFrame (xs ++ ys).length = .ok () → c.Finds ids (xs ++ ys) values ys) ∧
    ∀ start tail, start ++ tail = xs → tail ≠ [] →
      ∃ needed remaining, c.decodeTypes ids start = .error (.truncated needed remaining) := by
  obtain ⟨hframe, cursor, hscan, rfl⟩ := h
  obtain ⟨xs, hr, hread, hstarve⟩ := scanTypes_framed c ids _ _ _ hscan
  refine ⟨xs, hr, fun ys hok => ⟨hok, _, hread ys, rfl⟩, ?_⟩
  intro start tail hsplit hne
  obtain ⟨_, cursor', hf, needed, remaining, rfl⟩ := hstarve start tail hsplit hne
  have hstart : c.limits.checkFrame start.length = .ok () := by
    refine checkFrame_of_le hframe ?_
    rw [show bytes = xs ++ cursor.rest from hr, ← hsplit, List.length_append, List.length_append]
    omega
  have hwhole : c.scanWhole ids (Cursor.start start c.limits) =
      .error (.truncated needed remaining) cursor' := Scan.bind_of_error hf
  rw [decodeTypes_of_frame hstart, hwhole]
  exact ⟨needed, remaining, rfl⟩

theorem Finds.unique {others : List Value} {rest' : Bytes} (h : c.Finds ids bytes values rest)
    (h' : c.Finds ids bytes others rest') : values = others ∧ rest = rest' := by
  obtain ⟨_, cursor, hscan, rfl⟩ := h
  obtain ⟨_, cursor', hscan', rfl⟩ := h'
  rw [hscan] at hscan'
  cases hscan'
  exact ⟨rfl, rfl⟩

theorem finds_withTrailing (allow : Bool) :
    (c.withTrailing allow).Finds ids bytes values rest ↔ c.Finds ids bytes values rest := by
  unfold Finds
  rw [scanTypes_withTrailing]
  rfl

theorem decode_eq {name : String} {m : Method}
    (hm : c.interface.methodOrConstructor name = .ok m) :
    c.decode name bytes = c.decodeTypes m.outputs bytes := by
  unfold decode
  rw [hm]
  rfl

theorem decode_eq_ok {name : String} : c.decode name bytes = .ok values ↔
    ∃ m, c.interface.methodOrConstructor name = .ok m ∧
      c.decodeTypes m.outputs bytes = .ok values :=
  bind_eq_ok

/-- Decoding the results of a method comes to these values with no byte left unread. -/
def DecodesWhole (c : Codec) (name : String) (bytes : Bytes) (values : List Value) : Prop :=
  ∃ m cursor, c.interface.methodOrConstructor name = .ok m ∧
    c.run (c.scanWhole m.outputs) bytes = .ok (values, cursor) ∧ cursor.rest = []

theorem run_eq_ok {scan : Scan α} {a : α} {cursor : Cursor} :
    c.run scan bytes = .ok (a, cursor) ↔ c.limits.checkFrame bytes.length = .ok () ∧
      scan (Cursor.start bytes c.limits) = .ok a cursor := by
  cases hf : c.limits.checkFrame bytes.length with
  | error f => simp [run_of_overframe hf]
  | ok u =>
    rw [run_of_frame hf]
    cases scan (Cursor.start bytes c.limits) with
    | ok b d => simp
    | error f d => simp

theorem decodesWhole_iff {name : String} : c.DecodesWhole name bytes values ↔
    ∃ m, c.interface.methodOrConstructor name = .ok m ∧ c.Finds m.outputs bytes values [] := by
  unfold DecodesWhole Finds
  constructor
  · rintro ⟨m, cursor, hm, hrun, hrest⟩
    obtain ⟨hframe, hscan⟩ := run_eq_ok.mp hrun
    exact ⟨m, hm, hframe, cursor, (scanWhole_eq_ok.mp hscan).1, hrest⟩
  · rintro ⟨m, hm, hframe, cursor, hscan, hrest⟩
    exact ⟨m, cursor, hm, run_eq_ok.mpr ⟨hframe, scanWhole_of_ok hscan hrest⟩, hrest⟩

theorem decode_strict_iff {name : String} {m : Method}
    (hm : c.interface.methodOrConstructor name = .ok m) :
    (c.withTrailing false).decode name bytes = .ok values ↔ c.Finds m.outputs bytes values [] := by
  rw [decode_eq (c := c.withTrailing false) hm, decodeTypes_eq_ok]
  simp only [finds_withTrailing]
  constructor
  · rintro ⟨_, hfinds, hallow | rfl⟩
    · cases hallow
    · exact hfinds
  · intro hfinds
    exact ⟨[], hfinds, .inr rfl⟩

/-- Only one start of the bytes is all that its types take up. -/
theorem Finds.start_unique {others : List Value} (h : c.Finds ids (start ++ rest) values rest)
    {other : Bytes} (hp : other <+: start ++ rest) (ho : c.Finds ids other others []) :
    other = start := by
  obtain ⟨tail, htail⟩ := hp
  obtain ⟨xs, hxs, hmore, _⟩ := ho.framed
  rw [List.append_nil] at hxs
  subst hxs
  have hwhole := hmore tail (by rw [htail]; exact h.1)
  rw [htail] at hwhole
  obtain ⟨_, rfl⟩ := h.unique hwhole
  exact List.append_cancel_right htail

/-- Results decoded to the last byte are the same before other bytes, which are refused or passed
over as the codec is told, and are truncated by any cut; and what a lenient codec decodes lies in
one start of the bytes alone that a strict codec decodes, to the same values. -/
theorem decode_framing (c : Codec) (name : String) :
    (∀ bytes values, c.DecodesWhole name bytes values →
      c.decode name bytes = .ok values ∧
      (∀ start tail, start ++ tail = bytes → tail ≠ [] →
        ∃ needed remaining, c.decode name start = .error (.truncated needed remaining)) ∧
      ∀ more, more ≠ [] → (∀ max ∈ c.limits.frame, (bytes ++ more).length ≤ max) →
        c.decode name (bytes ++ more) =
          if c.settings.allowTrailing then .ok values else .error (.trailingBytes more.length)) ∧
    ∀ bytes values, (c.withTrailing true).decode name bytes = .ok values →
      ∃ start, start <+: bytes ∧ (c.withTrailing false).decode name start = .ok values ∧
        ∀ other others, other <+: bytes → (c.withTrailing false).decode name other = .ok others →
          other = start := by
  constructor
  · intro bytes values h
    obtain ⟨m, hm, hfinds⟩ := decodesWhole_iff.mp h
    obtain ⟨xs, hxs, hmore, hcut⟩ := hfinds.framed
    rw [List.append_nil] at hxs
    subst hxs
    simp only [decode_eq hm]
    refine ⟨decodeTypes_eq_ok.mpr ⟨[], hfinds, .inr rfl⟩, hcut, ?_⟩
    intro more hne hframe
    rw [decodeTypes_of_finds (hmore more (Limits.within_eq_ok_iff.mpr hframe))]
    simp [hne]
  · intro bytes values h
    obtain ⟨m, hm, hdecode⟩ := decode_eq_ok.mp h
    obtain ⟨rest, hfinds, _⟩ := decodeTypes_eq_ok.mp hdecode
    rw [finds_withTrailing] at hfinds
    obtain ⟨xs, rfl, hmore, _⟩ := hfinds.framed
    have hshort : c.limits.checkFrame (xs ++ []).length = .ok () :=
      checkFrame_of_le hfinds.1 (by simp)
    have hstart := hmore [] hshort
    rw [List.append_nil] at hstart
    refine ⟨xs, List.prefix_append xs rest, (decode_strict_iff (c := c) hm).mpr hstart, ?_⟩
    intro other others hp ho
    exact hfinds.start_unique hp ((decode_strict_iff (c := c) hm).mp ho)

def loadTable : TypeTable := #[⟨0, .primitive .bool⟩, ⟨1, .enum [[], [0]]⟩, ⟨2, .vector 1⟩]

theorem survey_loadTable : Walk.survey loadTable = .ok #[.done 1, .done 2, .done 3] := by cbv

/-- A method that gives a list of optional flags and one more flag. -/
def loadCodec : Codec :=
  ⟨⟨none, loadTable, [⟨"load", [], [2, 0]⟩], none,
    Walk.wellFounded_of_survey survey_loadTable⟩, {}, Settings.fits_default⟩

def loadedValues : List Value :=
  [.vector (.enum [[], [.bool false]] 0 [])
    [.enum [[], [.bool false]] 0 [], .enum [[], [.bool false]] 1 [.bool true]], .bool false]

theorem decode_framing_load :
    loadCodec.decode "load" [8, 0, 1, 1, 0] = .ok loadedValues ∧
      (∃ needed remaining, loadCodec.decode "load" [8, 0] = .error (.truncated needed remaining)) ∧
      loadCodec.decode "load" [8, 0, 1, 1, 0, 7] = .error (.trailingBytes 1) := by
  have hwhole : loadCodec.DecodesWhole "load" [8, 0, 1, 1, 0] loadedValues :=
    ⟨⟨"load", [], [2, 0]⟩, ⟨[], 5, 2, {}⟩, rfl, by cbv, rfl⟩
  obtain ⟨hok, hcut, hmore⟩ := (decode_framing loadCodec "load").1 _ _ hwhole
  refine ⟨hok, hcut [8, 0] [1, 1, 0] rfl (by simp), ?_⟩
  exact hmore [7] (by simp) (by simp [loadCodec, limits])

end Codec

end CallWire
