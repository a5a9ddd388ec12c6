import CallWire.Proofs.CodecTyped

namespace CallWire

namespace Interface

variable {i : Interface} {l : Limits} {ids : List TypeId} {name : String} {m : Method}

/-- No method goes by the name of the constructor. -/
theorem Accepted.methodOrConstructor (hi : i.Accepted) (h : i.method name = .ok m) :
    i.methodOrConstructor name = .ok m := by
  obtain ⟨types, methods, contract, hi⟩ := hi
  obtain ⟨hm, rfl⟩ := (method_eq_ok hi).mp h
  have hnamed : m.name ≠ "" := (ofParts_ok_iff.mp ⟨i, hi⟩).named m hm
  unfold Interface.methodOrConstructor
  rw [if_neg (by rwa [String.isEmpty_iff]), h]

/-- Values that fit the same types are told apart by their bytes. -/
theorem eq_of_encodeAll {vs ws : List Value} {bytes : Bytes}
    (hv : List.Forall₂ (Fits i l 0) ids vs) (hw : List.Forall₂ (Fits i l 0) ids ws)
    (he : Value.encodeAll vs = .ok bytes) (he' : Value.encodeAll ws = .ok bytes) : vs = ws := by
  obtain ⟨hts, hsound⟩ := mapM_templates hv
  obtain ⟨hts', hsound'⟩ := mapM_templates hw
  have hblank : Value.blankAll vs = Value.blankAll ws := Except.ok.inj (hts.symm.trans hts')
  have hscan : Value.scanAll vs = Value.scanAll ws := by
    rw [← Value.scanAll_blankAll fun v _ => Value.scan_blank v, hblank,
      Value.scanAll_blankAll fun v _ => Value.scan_blank v]
  have hread := Value.scanAll_reads (fun v hm _ => Value.scan_reads (hsound v hm)) he
  have hread' := Value.scanAll_reads (fun v hm _ => Value.scan_reads (hsound' v hm)) he'
  rw [hscan] at hread
  have hsame : bytes ++ [] = bytes ++ [] := rfl
  exact (hread.unique hread' hsame).1

end Interface

namespace Codec

variable {c : Codec} {name : String} {m : Method} {args : List Datum} {values : List Value}
  {bytes head tail : Bytes}

theorem encodeArguments_eq_ok : c.encodeArguments m args = .ok bytes ↔
    m.inputs.length = args.length ∧
      ∃ values, c.convert m.inputs args = .ok values ∧ Value.encodeAll values = .ok bytes := by
  unfold encodeArguments
  constructor
  · intro h
    obtain ⟨_, hn, h⟩ := bind_eq_ok.mp h
    exact ⟨(Argument.checkArity_eq_ok.mp hn).symm, encodeEach_eq_ok.mp h⟩
  · rintro ⟨hn, h⟩
    exact bind_eq_ok.mpr ⟨(), Argument.checkArity_eq_ok.mpr hn.symm, encodeEach_eq_ok.mpr h⟩

theorem encodeInvocation_eq_ok : c.encodeInvocation name args = .ok bytes ↔
    ∃ m head tail, c.interface.method name = .ok m ∧ (Value.text name).encode = .ok head ∧
      c.encodeArguments m args = .ok tail ∧ head ++ tail = bytes := by
  unfold encodeInvocation
  constructor
  · intro h
    obtain ⟨m, hm, h⟩ := bind_eq_ok.mp h
    obtain ⟨head, hhead, h⟩ := bind_eq_ok.mp h
    obtain ⟨tail, htail, h⟩ := bind_eq_ok.mp h
    exact ⟨m, head, tail, hm, hhead, htail, pure_eq_ok.mp h⟩
  · rintro ⟨m, head, tail, hm, hhead, htail, rfl⟩
    refine bind_eq_ok.mpr ⟨m, hm, bind_eq_ok.mpr ⟨head, hhead, ?_⟩⟩
    exact bind_eq_ok.mpr ⟨tail, htail, rfl⟩

theorem decodeInvocation_eq_ok : c.decodeInvocation bytes = .ok (name, values) ↔
    ∃ cursor m, c.run Scan.text bytes = .ok (name, cursor) ∧ c.interface.method name = .ok m ∧
      c.decodeTypes m.inputs cursor.rest = .ok values := by
  unfold decodeInvocation
  constructor
  · intro h
    obtain ⟨⟨_, cursor⟩, hname, h⟩ := bind_eq_ok.mp h
    obtain ⟨m, hm, h⟩ := bind_eq_ok.mp h
    obtain ⟨_, hvalues, h⟩ := bind_eq_ok.mp h
    cases pure_eq_ok.mp h
    exact ⟨cursor, m, hname, hm, hvalues⟩
  · rintro ⟨cursor, m, hname, hm, hvalues⟩
    refine bind_eq_ok.mpr ⟨(name, cursor), hname, bind_eq_ok.mpr ⟨m, hm, ?_⟩⟩
    exact bind_eq_ok.mpr ⟨values, hvalues, rfl⟩

theorem text_reads_encode (h : (Value.text name).encode = .ok head) :
    Scan.text.Reads head name := by
  obtain ⟨hle, rfl⟩ := Value.encode_text_eq_ok.mp h
  exact Scan.text_reads hle

theorem run_of_reads {α : Type} {step : Scan α} {a : α} (h : step.Reads head a) (tail : Bytes) :
    (∃ cursor, c.run step (head ++ tail) = .ok (a, cursor) ∧ cursor.rest = tail) ∨
      ¬ Unlimited c.limits ∧ ∃ f, c.run step (head ++ tail) = .error f ∧ f.IsLimit := by
  rcases Limits.within_cases .frame c.limits.frame (head ++ tail).length with
    hok | ⟨hne, f, hf, hlimit⟩
  · rcases h (Cursor.start (head ++ tail) c.limits) tail rfl with
      ⟨expansion, hs⟩ | ⟨hlenient, f, cursor, hs, hlimit⟩
    · exact .inl ⟨_, run_of_ok hok hs, rfl⟩
    · exact .inr ⟨fun hu => hlenient hu.2, f, run_of_error hok hs, hlimit⟩
  · exact .inr ⟨fun hu => hne hu.1, f, run_of_overframe hf, hlimit⟩

/-- A name and values that fit the inputs of its method are decoded from their bytes, unless a
limit stops it. -/
theorem decodeInvocation_of_encoded (hm : c.interface.method name = .ok m)
    (hf : List.Forall₂ (Interface.Fits c.interface c.limits 0) m.inputs values)
    (hhead : (Value.text name).encode = .ok head) (htail : Value.encodeAll values = .ok tail) :
    c.decodeInvocation (head ++ tail) = .ok (name, values) ∨
      ¬ Unlimited c.limits ∧ ∃ f, c.decodeInvocation (head ++ tail) = .error f ∧ f.IsLimit := by
  rcases run_of_reads (c := c) (text_reads_encode hhead) tail with
    ⟨cursor, hrun, rfl⟩ | ⟨hlimited, f, hrun, hlimit⟩
  · rcases decodeTypes_of_encodeAll hf htail with hok | ⟨hlimited, f, hf, hlimit⟩
    · exact .inl (decodeInvocation_eq_ok.mpr ⟨cursor, m, hrun, hm, hok⟩)
    · refine .inr ⟨hlimited, f, ?_, hlimit⟩
      unfold decodeInvocation
      refine bind_eq_error.mpr (.inr ⟨(name, cursor), hrun, ?_⟩)
      refine bind_eq_error.mpr (.inr ⟨m, hm, ?_⟩)
      exact bind_eq_error.mpr (.inl hf)
  · exact .inr ⟨hlimited, f, bind_eq_error.mpr (.inl hrun), hlimit⟩

theorem encodeInvocation_of_decoded (hstrict : c.settings.allowTrailing = false)
    (h : c.decodeInvocation bytes = .ok (name, values)) :
    c.encodeInvocation name (values.map Value.datum) = .ok bytes := by
  obtain ⟨cursor, m, hrun, hm, hvalues⟩ := decodeInvocation_eq_ok.mp h
  obtain ⟨_, hscan⟩ := run_eq_ok.mp hrun
  obtain ⟨head, ⟨hle, hhead⟩, hbytes, _⟩ := Scan.text_spells _ _ _ hscan
  have hname : (Value.text name).encode = .ok head :=
    Value.encode_text_eq_ok.mpr ⟨hle, hhead.symm⟩
  obtain ⟨rest, hfinds, hend⟩ := decodeTypes_eq_ok.mp hvalues
  obtain ⟨tail, hsplit, _, htail⟩ := hfinds.spells
  have hrest : rest = [] := hend.resolve_left (by rw [hstrict]; exact Bool.false_ne_true)
  rw [hrest, List.append_nil] at hsplit
  obtain ⟨hlength, hconvert⟩ := convert_of_decodeTypes hvalues
  have harguments : c.encodeArguments m (values.map Value.datum) = .ok cursor.rest :=
    encodeArguments_eq_ok.mpr ⟨hlength, values, hconvert, by rw [hsplit, htail]⟩
  exact encodeInvocation_eq_ok.mpr ⟨m, head, cursor.rest, hm, hname, harguments, hbytes.symm⟩

/-- Invocations in the same bytes are of one method, with arguments that stand for the same
values. -/
theorem encodeInvocation_inj (hs : c.interface.ShortArrays) {other : String}
    {others : List Datum} (h : c.encodeInvocation name args = .ok bytes)
    (h' : c.encodeInvocation other others = .ok bytes) :
    name = other ∧ ∃ m values, c.interface.method name = .ok m ∧
      c.convert m.inputs args = .ok values ∧ c.convert m.inputs others = .ok values := by
  obtain ⟨m, head, tail, hm, hhead, htail, rfl⟩ := encodeInvocation_eq_ok.mp h
  obtain ⟨m', head', tail', hm', hhead', htail', hbytes⟩ := encodeInvocation_eq_ok.mp h'
  obtain ⟨rfl, rfl⟩ := (text_reads_encode hhead).unique (text_reads_encode hhead') hbytes.symm
  cases hm.symm.trans hm'
  obtain ⟨hn, values, hvalues, hall⟩ := encodeArguments_eq_ok.mp htail
  obtain ⟨hn', values', hvalues', hall'⟩ := encodeArguments_eq_ok.mp htail'
  cases Interface.eq_of_encodeAll (convert_fits hs hn hvalues) (convert_fits hs hn' hvalues')
    hall hall'
  exact ⟨rfl, m, values, hm, hvalues, hvalues'⟩

/-- An invocation is the name and then the arguments. It is decoded to the name and the values
that the arguments stand for, unless a limit stops it; what is decoded to the last byte is encoded
again in the same bytes; and no two invocations share their bytes. -/
theorem invocation_inverse (hc : c.interface.Accepted) :
    (∀ name args bytes, c.encodeInvocation name args = .ok bytes →
      ∃ m head tail values, c.interface.method name = .ok m ∧
        (Value.text name).encode = .ok head ∧ c.encode name args = .ok tail ∧
        bytes = head ++ tail ∧ c.convert m.inputs args = .ok values ∧
        values.length = args.length ∧
        (c.decodeInvocation bytes = .ok (name, values) ∨
          ∃ bound value max, c.decodeInvocation bytes = .error (.limitExceeded bound value max)) ∧
        (c.limits.frame = none → c.limits.collection = none → c.limits.expansion = none →
          c.decodeInvocation bytes = .ok (name, values))) ∧
    (∀ bytes name values, c.settings.allowTrailing = false →
      c.decodeInvocation bytes = .ok (name, values) →
      c.encodeInvocation name (values.map Value.datum) = .ok bytes) ∧
    ∀ name args other others bytes, c.encodeInvocation name args = .ok bytes →
      c.encodeInvocation other others = .ok bytes →
      name = other ∧ ∃ m values, c.interface.method name = .ok m ∧
        c.convert m.inputs args = .ok values ∧ c.convert m.inputs others = .ok values := by
  refine ⟨?_, fun _ _ _ => encodeInvocation_of_decoded,
    fun _ _ _ _ _ => encodeInvocation_inj hc.shortArrays⟩
  intro name args bytes h
  obtain ⟨m, head, tail, hm, hhead, htail, rfl⟩ := encodeInvocation_eq_ok.mp h
  obtain ⟨hn, values, hvalues, hall⟩ := encodeArguments_eq_ok.mp htail
  have hfits := convert_fits hc.shortArrays hn hvalues
  have hencode : c.encode name args = .ok tail :=
    encode_eq_ok.mpr ⟨m, hc.methodOrConstructor hm, hn, values, hvalues, hall⟩
  have hdecode := decodeInvocation_of_encoded hm hfits hhead hall
  refine ⟨m, head, tail, values, hm, hhead, hencode, rfl, hvalues,
    hfits.length_eq.symm.trans hn, ?_, ?_⟩
  · rcases hdecode with hok | ⟨_, f, hf, bound, value, max, rfl⟩
    · exact .inl hok
    · exact .inr ⟨bound, value, max, hf⟩
  · intro hframe hcollection hexpansion
    rcases hdecode with hok | ⟨hlimited, _⟩
    · exact hok
    · exact absurd ⟨hframe, hcollection, hexpansion⟩ hlimited

theorem invocation_inverse_sample :
    ∃ values, sampleCodec.decodeInvocation [20, 115, 116, 111, 114, 101, 1, 1, 0, 1] =
        .ok ("store", values) ∧
      sampleCodec.encodeInvocation "store" (values.map Value.datum) =
        .ok [20, 115, 116, 111, 114, 101, 1, 1, 0, 1] := by
  have haccepted : sampleCodec.interface.Accepted := ⟨_, _, _, Interface.ofParts_sample⟩
  have hencode : sampleCodec.encodeInvocation "store"
      [.list [.list [.natural 1, .text " true "], .bool false], .bool true] =
        .ok [20, 115, 116, 111, 114, 101, 1, 1, 0, 1] := by cbv
  obtain ⟨hforth, hback, _⟩ := invocation_inverse haccepted
  obtain ⟨_, _, _, values, _, _, _, _, _, _, _, hdecode⟩ := hforth _ _ _ hencode
  have hok := hdecode rfl rfl rfl
  exact ⟨values, hok, hback _ _ _ rfl hok⟩

end Codec

end CallWire
