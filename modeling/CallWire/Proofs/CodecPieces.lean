import CallWire.Proofs.CodecCharge
import CallWire.Proofs.CodecFraming
import CallWire.Proofs.ScanRestarts

namespace CallWire

namespace Codec

variable {c : Codec} {ids : List TypeId} {values : List Value} {bytes : Bytes} {cursor : Cursor}

/-- Decodes each type alone, at the front of what the types before it left, to a value and the
number of bytes it takes. -/
def decodeEach (c : Codec) : List TypeId → Bytes → Except Fault (List (Value × Nat))
  | [], _ => .ok []
  | id :: ids, bytes => do
    let head ← c.decodeType id bytes
    return head :: (← decodeEach c ids (bytes.drop head.2))

def taken (found : List (Value × Nat)) : Nat := (found.map Prod.snd).sum

/-- The values found in the bytes, unless bytes are left over that the settings do not allow. -/
def settle (c : Codec) (bytes : Bytes) (found : List (Value × Nat)) : Except Fault (List Value) :=
  if c.settings.allowTrailing = true ∨ taken found = bytes.length then .ok (found.map Prod.fst)
  else .error (.trailingBytes (bytes.length - taken found))

theorem taken_cons (head : Value × Nat) (found : List (Value × Nat)) :
    taken (head :: found) = head.2 + taken found := List.sum_cons

/-- A type read after others gives what it gives alone, unless the nodes charged before it make
the difference. -/
theorem scanType_apart (id : TypeId) (hl : cursor.limits = c.limits)
    (hf : c.limits.checkFrame cursor.rest.length = .ok ()) :
    (∃ v used cursor', c.scanType id cursor = .ok v cursor' ∧
      c.decodeType id cursor.rest = .ok (v, used) ∧ cursor'.limits = c.limits ∧
      cursor'.rest = cursor.rest.drop used ∧ cursor.rest.length = used + cursor'.rest.length ∧
      cursor'.position = cursor.position + used) ∨
    (∃ f cursor', c.scanType id cursor = .error f cursor' ∧
      c.decodeType id cursor.rest = .error f) ∨
    ∃ f cursor', c.scanType id cursor = .error f cursor' ∧ c.limits.OverExpansion f := by
  have hstart : (Cursor.start cursor.rest c.limits).Lighter cursor :=
    ⟨rfl, hl.symm, Nat.zero_le _⟩
  rcases (scanType_assembled c id).restarts cursor _ hstart with
    ⟨v, cursor', d, hscan, halone, hlimits, hlighter⟩ | ⟨f, cursor', d, hscan, halone⟩ |
      ⟨f, cursor', hscan, hover⟩
  · obtain ⟨xs, _, hxs, hposition⟩ := scanType_spells c id _ _ _ hscan
    obtain ⟨ys, _, hys, hused⟩ := scanType_spells c id _ _ _ halone
    -- Both leave the same bytes, and so have taken the same.
    have hsame : ys = xs := by
      rw [hlighter.rest] at hys
      exact List.append_cancel_right (hys.symm.trans hxs)
    have hd : d.position = xs.length := by rw [hused, hsame]; exact Nat.zero_add _
    have hdecode : c.decodeType id cursor.rest = .ok (v, xs.length) := by
      rw [decodeType, run_of_ok hf halone, ← hd]
      rfl
    refine .inl ⟨v, xs.length, cursor', hscan, hdecode, hlimits.trans hl, ?_, ?_, hposition⟩
    · rw [hxs, List.drop_left]
    · rw [hxs, List.length_append]
  · refine .inr (.inl ⟨f, cursor', hscan, ?_⟩)
    rw [decodeType, run_of_error hf halone]
    rfl
  · exact .inr (.inr ⟨f, cursor', hscan, hl ▸ hover⟩)

theorem scanTypes_apart (ids : List TypeId) (cursor : Cursor) (hl : cursor.limits = c.limits)
    (hf : c.limits.checkFrame cursor.rest.length = .ok ()) :
    (∃ found cursor', c.scanTypes ids cursor = .ok (found.map Prod.fst) cursor' ∧
      c.decodeEach ids cursor.rest = .ok found ∧
      cursor.rest.length = taken found + cursor'.rest.length ∧
      cursor'.position = cursor.position + taken found) ∨
    (∃ f cursor', c.scanTypes ids cursor = .error f cursor' ∧
      c.decodeEach ids cursor.rest = .error f) ∨
    ∃ f cursor', c.scanTypes ids cursor = .error f cursor' ∧ c.limits.OverExpansion f := by
  induction ids generalizing cursor with
  | nil => exact .inl ⟨[], cursor, rfl, rfl, (Nat.zero_add _).symm, rfl⟩
  | cons id ids ih =>
    rw [scanTypes, decodeEach]
    rcases scanType_apart id hl hf with
      ⟨v, used, next, hscan, halone, hlimits, hdrop, hlength, hposition⟩ |
        ⟨f, next, hscan, halone⟩ | ⟨f, next, hscan, hover⟩
    · rw [Scan.bind_of_ok hscan, halone]
      have hshort : c.limits.checkFrame next.rest.length = .ok () :=
        checkFrame_of_le hf (by omega)
      rcases ih next hlimits hshort with
        ⟨found, last, hrest, heach, hlength', hposition'⟩ | ⟨f, last, hrest, heach⟩ |
          ⟨f, last, hrest, hover⟩
      · refine .inl ⟨(v, used) :: found, last, Scan.bind_of_ok hrest, ?_, ?_, ?_⟩
        · exact bind_eq_ok.mpr ⟨(v, used), rfl, bind_eq_ok.mpr ⟨found, hdrop ▸ heach, rfl⟩⟩
        · rw [taken_cons, hlength, hlength', Nat.add_assoc]
        · rw [taken_cons, hposition', hposition, Nat.add_assoc]
      · refine .inr (.inl ⟨f, last, Scan.bind_of_error hrest, ?_⟩)
        exact bind_eq_error.mpr (.inr ⟨(v, used), rfl, bind_eq_error.mpr (.inl (hdrop ▸ heach))⟩)
      · exact .inr (.inr ⟨f, last, Scan.bind_of_error hrest, hover⟩)
    · rw [halone]
      exact .inr (.inl ⟨f, next, Scan.bind_of_error hscan, rfl⟩)
    · exact .inr (.inr ⟨f, next, Scan.bind_of_error hscan, hover⟩)

/-- Several types are decoded as they are one at a time. Only the limit on charged nodes, which
holds for all of them together, can tell the difference. -/
structure Apart (c : Codec) (ids : List TypeId) (bytes : Bytes)
    (outcome : Except Fault (List Value)) : Prop where
  of_ok : ∀ values, outcome = .ok values → ∃ found cursor,
    c.decodeEach ids bytes = .ok found ∧ found.map Prod.fst = values ∧
    c.run (c.scanWhole ids) bytes = .ok (values, cursor) ∧ cursor.position = taken found ∧
    bytes.length = taken found + cursor.rest.length
  eq_of_uncharged : c.limits.expansion = none →
    outcome = c.decodeEach ids bytes >>= c.settle bytes
  narrows : Narrows c.limits.OverExpansion outcome (c.decodeEach ids bytes >>= c.settle bytes)

theorem decodeTypes_of_error {f : Fault} (hframe : c.limits.checkFrame bytes.length = .ok ())
    (h : c.scanTypes ids (Cursor.start bytes c.limits) = .error f cursor) :
    c.decodeTypes ids bytes = .error f := by
  have hwhole : c.scanWhole ids (Cursor.start bytes c.limits) = .error f cursor :=
    Scan.bind_of_error h
  rw [decodeTypes_of_frame hframe, hwhole]

theorem decodeTypes_narrows (ids : List TypeId)
    (hframe : c.limits.checkFrame bytes.length = .ok ()) :
    Narrows c.limits.OverExpansion (c.decodeTypes ids bytes)
      (c.decodeEach ids bytes >>= c.settle bytes) := by
  rcases scanTypes_apart ids (Cursor.start bytes c.limits) rfl hframe with
    ⟨found, last, hscan, heach, hlength, _⟩ | ⟨f, last, hscan, heach⟩ | ⟨f, last, hscan, hover⟩
  · change c.decodeEach ids bytes = .ok found at heach
    change bytes.length = taken found + last.rest.length at hlength
    have hend : last.rest = [] ↔ taken found = bytes.length := by
      rw [← List.length_eq_zero_iff]
      omega
    have hleft : last.rest.length = bytes.length - taken found := by omega
    left
    rw [decodeTypes_of_finds ⟨hframe, last, hscan, rfl⟩, hleft, heach]
    exact if_congr (or_congr_right hend) rfl rfl
  · rw [decodeTypes_of_error hframe hscan]
    exact .inl (bind_eq_error.mpr (.inl heach)).symm
  · exact .inr ⟨f, decodeTypes_of_error hframe hscan, hover⟩

theorem decodeEach_of_decodeTypes (h : c.decodeTypes ids bytes = .ok values) :
    ∃ found cursor, c.decodeEach ids bytes = .ok found ∧ found.map Prod.fst = values ∧
      c.run (c.scanWhole ids) bytes = .ok (values, cursor) ∧ cursor.position = taken found ∧
      bytes.length = taken found + cursor.rest.length := by
  obtain ⟨⟨_, cursor⟩, hrun, rfl⟩ := map_eq_ok.mp h
  obtain ⟨hframe, hwhole⟩ := run_eq_ok.mp hrun
  have hscan := (scanWhole_eq_ok.mp hwhole).1
  rcases scanTypes_apart ids (Cursor.start bytes c.limits) rfl hframe with
    ⟨found, last, hfound, heach, hlength, hposition⟩ | ⟨f, last, hf, _⟩ | ⟨f, last, hf, _⟩
  · cases hscan.symm.trans hfound
    exact ⟨found, cursor, heach, rfl, hrun, hposition.trans (Nat.zero_add _), hlength⟩
  · cases hscan.symm.trans hf
  · cases hscan.symm.trans hf

theorem apart_decodeTypes (ids : List TypeId)
    (hframe : c.limits.checkFrame bytes.length = .ok ()) :
    c.Apart ids bytes (c.decodeTypes ids bytes) := by
  have hnarrows := decodeTypes_narrows ids hframe
  refine ⟨fun values h => decodeEach_of_decodeTypes h, fun hnone => ?_, hnarrows⟩
  refine (hnarrows.mono fun f hf => ?_).eq_of_never
  obtain ⟨_, max, hmax, _⟩ := hf
  rw [hnone] at hmax
  cases hmax

/-- Results and arguments are decoded as their types are one by one, each from what is left of the
bytes. -/
theorem decode_apart (c : Codec) (bytes : Bytes) {name : String} {m : Method}
    (hm : c.interface.methodOrConstructor name = .ok m)
    (hframe : ∀ max ∈ c.limits.frame, bytes.length ≤ max) :
    c.Apart m.outputs bytes (c.decode name bytes) ∧
      c.Apart m.inputs bytes (c.decodeInputs name bytes) := by
  have hcheck : c.limits.checkFrame bytes.length = .ok () := Limits.within_eq_ok_iff.mpr hframe
  rw [decode_eq hm, decodeInputs_eq hm]
  exact ⟨apart_decodeTypes _ hcheck, apart_decodeTypes _ hcheck⟩

def unitsTypes : TypeTable := #[⟨0, .tuple []⟩, ⟨1, .vector 0⟩]

theorem survey_unitsTypes : Walk.survey unitsTypes = .ok #[.done 1, .done 2] := by cbv

/-- A method that gives two lists of empty tuples, three tuples at most in both. -/
def unitsCodec : Codec :=
  ⟨⟨none, unitsTypes, [⟨"units", [], [1, 1]⟩], none,
    Walk.wellFounded_of_survey survey_unitsTypes⟩,
    { limits := { expansion := some 3 } }, Settings.fits_default⟩

def units (n : Nat) : Value := .vector (.tuple []) (List.replicate n (.tuple []))

theorem decode_apart_units :
    (∃ found, unitsCodec.decodeEach [1, 1] [8, 4] = .ok found ∧
      found.map Prod.fst = [units 2, units 1] ∧ taken found = 2) ∧
    unitsCodec.decodeEach [1, 1] [8, 8] = .ok [(units 2, 1), (units 2, 1)] ∧
    unitsCodec.decode "units" [8, 8] = .error (.limitExceeded .expansion 4 3) := by
  refine ⟨?_, by cbv, by cbv⟩
  have hm : unitsCodec.interface.methodOrConstructor "units" = .ok ⟨"units", [], [1, 1]⟩ := rfl
  have hscan : unitsCodec.run (unitsCodec.scanWhole [1, 1]) [8, 4] =
      .ok ([units 2, units 1], ⟨[], 2, 3, unitsCodec.limits⟩) := by cbv
  obtain ⟨happart, _⟩ := decode_apart unitsCodec [8, 4] hm (by simp [unitsCodec, limits])
  obtain ⟨found, cursor, heach, hvalues, hrun, htaken, _⟩ :=
    happart.of_ok [units 2, units 1] (by cbv)
  cases hscan.symm.trans hrun
  exact ⟨found, heach, hvalues, htaken.symm⟩

end Codec

end CallWire
