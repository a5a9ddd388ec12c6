import CallWire.Codec
import CallWire.Proofs.ArgumentDatum
import CallWire.Proofs.InterfaceAccepted
import CallWire.Proofs.ValueReads

namespace CallWire

/-- The interface was made of parts that passed every check. -/
def Interface.Accepted (i : Interface) : Prop :=
  ∃ types methods contract, Interface.ofParts types methods contract = .ok i

/-- A sound value whose blank is the template of a type. -/
def Interface.Matches (i : Interface) (l : Limits) (depth : Nat) (id : TypeId) (v : Value) : Prop :=
  Value.Sound v ∧ i.templateAt l depth id = .ok v.blank

theorem Interface.Matches.fits {i : Interface} {l : Limits} {depth : Nat} {id : TypeId}
    {v : Value} (h : i.Matches l depth id v) : i.Fits l depth id v :=
  ⟨h.1, templateAt_uncollected h.2⟩

theorem Interface.Accepted.shortArrays {i : Interface} (h : i.Accepted) : i.ShortArrays := by
  obtain ⟨types, methods, contract, hi⟩ := h
  have hformed := Interface.ofParts_ok_iff.mp ⟨i, hi⟩
  intro id decl hr element n hl
  exact hformed.arrays decl ((Interface.resolve_eq_ok hi).mp hr).1 element n hl

namespace Codec

variable {c : Codec} {ids : List TypeId} {args : List Datum} {values : List Value} {bytes : Bytes}

theorem convert_cons_eq_ok {id : TypeId} {d : Datum} :
    c.convert (id :: ids) (d :: args) = .ok values ↔
      ∃ v vs, c.interface.value c.limits id d = .ok v ∧ c.convert ids args = .ok vs ∧
        v :: vs = values := by
  rw [convert]
  simp only [bind_eq_ok, pure_eq_ok, exists_and_left]

theorem encodeEach_eq_ok : c.encodeEach ids args = .ok bytes ↔
    ∃ values, c.convert ids args = .ok values ∧ Value.encodeAll values = .ok bytes := by
  induction ids generalizing args bytes with
  | nil => simp [encodeEach, convert, Value.encodeAll]
  | cons id ids ih =>
    cases args with
    | nil => simp [encodeEach, convert, Value.encodeAll]
    | cons d ds =>
      rw [encodeEach]
      constructor
      · intro h
        obtain ⟨v, hv, h₁⟩ := bind_eq_ok.mp h
        obtain ⟨head, hhead, h₂⟩ := bind_eq_ok.mp h₁
        obtain ⟨tail, htail, h₃⟩ := bind_eq_ok.mp h₂
        cases pure_eq_ok.mp h₃
        obtain ⟨vs, hvs, hall⟩ := ih.mp htail
        have hconvert := convert_cons_eq_ok.mpr ⟨v, vs, hv, hvs, rfl⟩
        have hencode := Value.encodeAll_cons_eq_ok.mpr ⟨head, tail, hhead, hall, rfl⟩
        exact ⟨v :: vs, hconvert, hencode⟩
      · intro h
        obtain ⟨all, hall, he⟩ := h
        obtain ⟨v, vs, hv, hvs, rfl⟩ := convert_cons_eq_ok.mp hall
        obtain ⟨head, tail, hhead, htail, rfl⟩ := Value.encodeAll_cons_eq_ok.mp he
        refine bind_eq_ok.mpr ⟨v, hv, bind_eq_ok.mpr ⟨head, hhead, ?_⟩⟩
        exact bind_eq_ok.mpr ⟨tail, ih.mpr ⟨vs, hvs, htail⟩, rfl⟩

theorem convert_fits (hs : c.interface.ShortArrays) (hn : ids.length = args.length)
    (h : c.convert ids args = .ok values) :
    List.Forall₂ (Interface.Fits c.interface c.limits 0) ids values := by
  induction ids generalizing args values with
  | nil =>
    cases h
    exact .nil
  | cons id ids ih =>
    cases args with
    | nil => cases hn
    | cons d ds =>
      obtain ⟨v, vs, hv, hvs, rfl⟩ := convert_cons_eq_ok.mp h
      have hfits := Interface.valueAt_fits hs hv
      exact .cons hfits (ih (Nat.succ.inj hn) hvs)

theorem scanType_lands {id : TypeId} {v : Value} {cursor : Cursor} {rest : Bytes}
    (hf : Interface.Fits c.interface c.limits 0 id v) (he : v.encode = .ok bytes)
    (hl : cursor.limits = c.limits) (hr : cursor.rest = bytes ++ rest) :
    (c.scanType id).Lands cursor bytes rest v := by
  obtain ⟨hv, ht⟩ := hf
  unfold Scan.Lands scanType Interface.template
  rcases Interface.templateAt_or_limit ht with h | ⟨f, h, hlimit, hlenient⟩
  · have hrun : Scan.ofExcept (c.interface.templateAt c.limits 0 id) cursor =
        .ok v.blank cursor := by simp only [Scan.ofExcept, h]
    rw [Scan.bind_of_ok hrun, Value.scan_blank]
    exact Value.scan_reads hv he cursor rest hr
  · have hrun : Scan.ofExcept (c.interface.templateAt c.limits 0 id) cursor =
        .error f cursor := by simp only [Scan.ofExcept, h]
    rw [Scan.bind_of_error hrun, hl]
    exact .inr ⟨hlenient, f, cursor, rfl, hlimit⟩

theorem scanTypes_lands {cursor : Cursor} {rest : Bytes}
    (hf : List.Forall₂ (Interface.Fits c.interface c.limits 0) ids values)
    (he : Value.encodeAll values = .ok bytes) (hl : cursor.limits = c.limits)
    (hr : cursor.rest = bytes ++ rest) : (c.scanTypes ids).Lands cursor bytes rest values := by
  induction hf generalizing bytes cursor with
  | nil =>
    cases he
    exact Scan.Reads.pure [] cursor rest hr
  | @cons id v ids vs hv _ ih =>
    obtain ⟨head, tail, hhead, htail, rfl⟩ := Value.encodeAll_cons_eq_ok.mp he
    rw [scanTypes]
    have hfirst : cursor.rest = head ++ (tail ++ rest) := by rw [hr, List.append_assoc]
    refine (scanType_lands hv hhead hl hfirst).bind fun expansion => ?_
    have hrest : (c.scanTypes ids).Lands
        ⟨tail ++ rest, cursor.position + head.length, expansion, cursor.limits⟩ tail rest vs :=
      ih htail hl rfl
    have hall := hrest.map (v :: ·)
    rwa [Scan.map_eq_bind] at hall

/-- What a declared type reads matches it, and is encoded in the bytes that were read. -/
theorem scanType_spells (c : Codec) (id : TypeId) :
    (c.scanType id).Spells fun v xs =>
      Interface.Matches c.interface c.limits 0 id v ∧ v.encode = .ok xs := by
  refine (Scan.ofExcept_spells _).bind fun t xs ht => ?_
  obtain ⟨htemplate, rfl⟩ := ht
  obtain ⟨hsound, hblank⟩ := Interface.templateAt_plain htemplate
  refine (Value.scan_spells hsound).mono fun v ys hv => ?_
  obtain ⟨hv, hb, he⟩ := hv
  exact ⟨⟨hv, by rw [hb, hblank]; exact htemplate⟩, he⟩

theorem scanTypes_spells (c : Codec) (ids : List TypeId) :
    (c.scanTypes ids).Spells fun vs xs =>
      List.Forall₂ (Interface.Matches c.interface c.limits 0) ids vs ∧
        Value.encodeAll vs = .ok xs := by
  induction ids with
  | nil => exact .pure ⟨.nil, rfl⟩
  | cons id ids ih =>
    rw [scanTypes]
    refine (scanType_spells c id).bind fun v xs hv => ih.bind fun vs ys hvs => .pure ?_
    rw [List.append_nil]
    exact ⟨.cons hv.1 hvs.1, Value.encodeAll_cons_eq_ok.mpr ⟨xs, ys, hv.2, hvs.2, rfl⟩⟩

theorem convert_of_matches
    (h : List.Forall₂ (Interface.Matches c.interface c.limits 0) ids values) :
    c.convert ids (values.map Value.datum) = .ok values := by
  induction h with
  | nil => rfl
  | cons hv _ ih =>
    have hdatum := Interface.valueAt_datum hv.2 hv.1
    exact convert_cons_eq_ok.mpr ⟨_, _, hdatum, ih, rfl⟩

theorem run_of_frame {α : Type} {scan : Scan α}
    (h : c.limits.checkFrame bytes.length = .ok ()) :
    c.run scan bytes = match scan (Cursor.start bytes c.limits) with
      | .ok a cursor => .ok (a, cursor)
      | .error f _ => .error f := by
  have hstart : Cursor.start? bytes c.limits = .ok (Cursor.start bytes c.limits) := by
    rw [Cursor.start?, h]
    rfl
  unfold run
  rw [hstart]
  rfl

theorem run_of_ok {α : Type} {scan : Scan α} {a : α} {cursor : Cursor}
    (h : c.limits.checkFrame bytes.length = .ok ())
    (hs : scan (Cursor.start bytes c.limits) = .ok a cursor) :
    c.run scan bytes = .ok (a, cursor) := by rw [run_of_frame h, hs]

theorem run_of_error {α : Type} {scan : Scan α} {f : Fault} {cursor : Cursor}
    (h : c.limits.checkFrame bytes.length = .ok ())
    (hs : scan (Cursor.start bytes c.limits) = .error f cursor) :
    c.run scan bytes = .error f := by rw [run_of_frame h, hs]

theorem run_of_overframe {α : Type} {scan : Scan α} {f : Fault}
    (h : c.limits.checkFrame bytes.length = .error f) : c.run scan bytes = .error f := by
  have hstart : Cursor.start? bytes c.limits = .error f := by
    rw [Cursor.start?, h]
    rfl
  unfold run
  rw [hstart]
  rfl

theorem decodeTypes_of_frame (h : c.limits.checkFrame bytes.length = .ok ()) :
    c.decodeTypes ids bytes = match c.scanWhole ids (Cursor.start bytes c.limits) with
      | .ok values _ => .ok values
      | .error f _ => .error f := by
  unfold decodeTypes
  rw [run_of_frame h]
  cases c.scanWhole ids (Cursor.start bytes c.limits) <;> rfl

theorem decodeTypes_of_overframe {f : Fault} (h : c.limits.checkFrame bytes.length = .error f) :
    c.decodeTypes ids bytes = .error f := by
  unfold decodeTypes
  rw [run_of_overframe h]
  rfl

theorem scanWhole_eq_ok {cursor cursor' : Cursor} :
    c.scanWhole ids cursor = .ok values cursor' ↔
      c.scanTypes ids cursor = .ok values cursor' ∧
        (c.settings.allowTrailing = true ∨ cursor'.rest = []) := by
  unfold scanWhole
  rw [Scan.bind_eq_ok]
  cases c.settings.allowTrailing with
  | true => simp [Scan.pure_eq_ok]
  | false =>
    simp only [Bool.not_false, ↓reduceIte, Scan.bind_eq_ok, Scan.finish_eq_ok, Scan.pure_eq_ok,
      Bool.false_eq_true, false_or]
    constructor
    · rintro ⟨_, _, hscan, _, _, ⟨rfl, hrest⟩, rfl, rfl⟩
      exact ⟨hscan, hrest⟩
    · rintro ⟨hscan, hrest⟩
      exact ⟨_, _, hscan, (), _, ⟨rfl, hrest⟩, rfl, rfl⟩

theorem scanWhole_of_ok {cursor cursor' : Cursor}
    (h : c.scanTypes ids cursor = .ok values cursor') (hr : cursor'.rest = []) :
    c.scanWhole ids cursor = .ok values cursor' :=
  scanWhole_eq_ok.mpr ⟨h, .inr hr⟩

/-- No limit but that on depth can stop a decoding. -/
def Unlimited (l : Limits) : Prop := l.frame = none ∧ l.Lenient

theorem decodeTypes_of_encodeAll
    (hf : List.Forall₂ (Interface.Fits c.interface c.limits 0) ids values)
    (he : Value.encodeAll values = .ok bytes) :
    c.decodeTypes ids bytes = .ok values ∨
      ¬ Unlimited c.limits ∧ ∃ f, c.decodeTypes ids bytes = .error f ∧ f.IsLimit := by
  rcases Limits.within_cases .frame c.limits.frame bytes.length with h | ⟨hne, f, h, hlimit⟩
  · rw [decodeTypes_of_frame h]
    have hr : (Cursor.start bytes c.limits).rest = bytes ++ [] := (List.append_nil bytes).symm
    rcases scanTypes_lands hf he rfl hr with
      ⟨expansion, hscan⟩ | ⟨hlenient, f, cursor, hscan, hlimit⟩
    · rw [scanWhole_of_ok hscan rfl]
      exact .inl rfl
    · have hwhole : c.scanWhole ids (Cursor.start bytes c.limits) = .error f cursor := by
        unfold scanWhole
        exact Scan.bind_of_error hscan
      rw [hwhole]
      exact .inr ⟨fun hu => hlenient hu.2, f, rfl, hlimit⟩
  · exact .inr ⟨fun hu => hne hu.1, f, decodeTypes_of_overframe h, hlimit⟩

theorem convert_of_decodeTypes (h : c.decodeTypes ids bytes = .ok values) :
    ids.length = (values.map Value.datum).length ∧
      c.convert ids (values.map Value.datum) = .ok values := by
  rcases Limits.within_cases .frame c.limits.frame bytes.length with hok | ⟨_, f, hf, _⟩
  · rw [decodeTypes_of_frame hok] at h
    split at h
    next vs cursor hscan =>
      cases h
      obtain ⟨hvs, _⟩ := scanWhole_eq_ok.mp hscan
      obtain ⟨_, ⟨hmatches, _⟩, _⟩ := scanTypes_spells c ids _ _ _ hvs
      refine ⟨?_, convert_of_matches hmatches⟩
      rw [List.length_map, hmatches.length_eq]
    next => cases h
  · rw [decodeTypes_of_overframe hf] at h
    cases h

theorem encode_eq_ok {name : String} : c.encode name args = .ok bytes ↔
    ∃ m, c.interface.methodOrConstructor name = .ok m ∧ m.inputs.length = args.length ∧
      ∃ values, c.convert m.inputs args = .ok values ∧ Value.encodeAll values = .ok bytes := by
  unfold encode encodeArguments
  constructor
  · intro h
    obtain ⟨m, hm, h₁⟩ := bind_eq_ok.mp h
    obtain ⟨_, hn, h₂⟩ := bind_eq_ok.mp h₁
    exact ⟨m, hm, (Argument.checkArity_eq_ok.mp hn).symm, encodeEach_eq_ok.mp h₂⟩
  · intro h
    obtain ⟨m, hm, hn, hvalues⟩ := h
    refine bind_eq_ok.mpr ⟨m, hm, bind_eq_ok.mpr ⟨(), ?_, encodeEach_eq_ok.mpr hvalues⟩⟩
    exact Argument.checkArity_eq_ok.mpr hn.symm

theorem decodeInputs_eq {name : String} {m : Method}
    (hm : c.interface.methodOrConstructor name = .ok m) :
    c.decodeInputs name bytes = c.decodeTypes m.inputs bytes := by
  unfold decodeInputs
  rw [hm]
  rfl

/-- What a codec encodes it decodes to the values that the arguments stand for, unless a limit
stops it, and what it decodes it encodes again to the same bytes. -/
theorem decodeInputs_of_encode (hc : c.interface.Accepted) {name : String}
    (h : c.encode name args = .ok bytes) :
    ∃ m values, c.interface.methodOrConstructor name = .ok m ∧
      c.convert m.inputs args = .ok values ∧ values.length = args.length ∧
      (c.decodeInputs name bytes = .ok values ∨
        ∃ bound value max, c.decodeInputs name bytes = .error (.limitExceeded bound value max)) ∧
      (c.limits.frame = none → c.limits.collection = none → c.limits.expansion = none →
        c.decodeInputs name bytes = .ok values) ∧
      ∀ vs, c.decodeInputs name bytes = .ok vs →
        c.encode name (vs.map Value.datum) = .ok bytes := by
  obtain ⟨m, hm, hn, values, hvalues, hall⟩ := encode_eq_ok.mp h
  have hfits := convert_fits hc.shortArrays hn hvalues
  have hdecode := decodeTypes_of_encodeAll hfits hall
  rw [decodeInputs_eq hm]
  refine ⟨m, values, hm, hvalues, hfits.length_eq.symm.trans hn, ?_, ?_, ?_⟩
  · rcases hdecode with hok | ⟨_, f, hf, bound, value, max, rfl⟩
    · exact .inl hok
    · exact .inr ⟨bound, value, max, hf⟩
  · intro hframe hcollection hexpansion
    rcases hdecode with hok | ⟨hlimited, _⟩
    · exact hok
    · exact absurd ⟨hframe, hcollection, hexpansion⟩ hlimited
  · intro vs hvs
    have hsame : vs = values := by
      rcases hdecode with hok | ⟨_, f, hf, _⟩
      · exact Except.ok.inj (hvs.symm.trans hok)
      · cases hvs.symm.trans hf
    obtain ⟨hlen, hconvert⟩ := convert_of_decodeTypes hvs
    exact encode_eq_ok.mpr ⟨m, hm, hlen, vs, hconvert, hsame ▸ hall⟩

def sampleCodec : Codec :=
  ⟨Interface.sampleInterface, { limits := .unbounded }, Settings.fits_default⟩

theorem decodeInputs_of_encode_sample :
    ∃ values, sampleCodec.decodeInputs "store" [1, 1, 0, 1] = .ok values ∧
      sampleCodec.encode "store" (values.map Value.datum) = .ok [1, 1, 0, 1] := by
  have haccepted : sampleCodec.interface.Accepted := ⟨_, _, _, Interface.ofParts_sample⟩
  have hencode : sampleCodec.encode "store"
      [.list [.list [.natural 1, .text " true "], .bool false], .bool true] =
        .ok [1, 1, 0, 1] := by cbv
  obtain ⟨_, values, _, _, _, _, hdecode, hagain⟩ := decodeInputs_of_encode haccepted hencode
  have hok := hdecode rfl rfl rfl
  exact ⟨values, hok, hagain values hok⟩

end Codec

end CallWire
