import CallWire.Proofs.CodecFraming

namespace CallWire

namespace Codec

variable {c : Codec} {ids : List TypeId} {values : List Value} {bytes : Bytes}

/-- Each value has the shape that its type is declared with. -/
def Typed (c : Codec) (ids : List TypeId) (values : List Value) : Prop :=
  List.Forall₂ (fun id v => ∃ t, c.interface.template c.limits id = .ok t ∧ v.sameShape t = true)
    ids values

theorem encodeTyped_eq_ok (hn : ids.length = values.length) :
    c.encodeTyped ids values = .ok bytes ↔
      c.Typed ids values ∧ Value.encodeAll values = .ok bytes := by
  induction ids generalizing values bytes with
  | nil =>
    cases values with
    | nil => simp [encodeTyped, Typed, Value.encodeAll]
    | cons v vs => cases hn
  | cons id ids ih =>
    cases values with
    | nil => cases hn
    | cons v vs =>
      have htail : ∀ tail, c.encodeTyped ids vs = .ok tail ↔
          c.Typed ids vs ∧ Value.encodeAll vs = .ok tail := fun _ => ih (Nat.succ.inj hn)
      rw [encodeTyped]
      constructor
      · intro h
        obtain ⟨t, ht, h⟩ := bind_eq_ok.mp h
        obtain ⟨_, hshape, h⟩ := bind_eq_ok.mp h
        obtain ⟨head, hhead, h⟩ := bind_eq_ok.mp h
        obtain ⟨tail, hrest, h⟩ := bind_eq_ok.mp h
        cases pure_eq_ok.mp h
        obtain ⟨htyped, hall⟩ := (htail tail).mp hrest
        exact ⟨.cons ⟨t, ht, Value.requireShape_eq_ok.mp hshape⟩ htyped,
          Value.encodeAll_cons_eq_ok.mpr ⟨head, tail, hhead, hall, rfl⟩⟩
      · intro h
        obtain ⟨htyped, hall⟩ := h
        obtain ⟨⟨t, ht, hshape⟩, htyped⟩ := List.forall₂_cons.mp htyped
        obtain ⟨head, tail, hhead, hrest, rfl⟩ := Value.encodeAll_cons_eq_ok.mp hall
        refine bind_eq_ok.mpr ⟨t, ht, bind_eq_ok.mpr ⟨(), ?_, ?_⟩⟩
        · exact Value.requireShape_eq_ok.mpr hshape
        · refine bind_eq_ok.mpr ⟨head, hhead, bind_eq_ok.mpr ⟨tail, ?_, rfl⟩⟩
          exact (htail tail).mpr ⟨htyped, hrest⟩

theorem encodeValues_eq_ok : c.encodeValues ids values = .ok bytes ↔
    c.Typed ids values ∧ Value.encodeAll values = .ok bytes := by
  unfold encodeValues
  constructor
  · intro h
    obtain ⟨_, hn, h⟩ := bind_eq_ok.mp h
    exact (encodeTyped_eq_ok (Argument.checkArity_eq_ok.mp hn).symm).mp h
  · intro h
    have hn : ids.length = values.length := h.1.length_eq
    refine bind_eq_ok.mpr ⟨(), Argument.checkArity_eq_ok.mpr hn.symm, ?_⟩
    exact (encodeTyped_eq_ok hn).mpr h

theorem typed_of_blanks
    (h : List.Forall₂ (fun id v => c.interface.template c.limits id = .ok v.blank) ids values) :
    c.Typed ids values :=
  h.imp fun _ v ht => ⟨v.blank, ht, v.sameShape_blank⟩

/-- The blank of a sound value that has the shape of a type is the template of the type. -/
theorem matches_of_typed (hv : ∀ v ∈ values, Value.Sound v) (h : c.Typed ids values) :
    List.Forall₂ (Interface.Matches c.interface c.limits 0) ids values := by
  unfold Typed at h
  induction h with
  | nil => exact .nil
  | @cons id v ids vs ht _ ih =>
    obtain ⟨hsound, hvs⟩ := List.forall_mem_cons.mp hv
    obtain ⟨t, ht, hshape⟩ := ht
    obtain ⟨hplain, hblank⟩ := Interface.templateAt_plain ht
    have hsame : v.blank = t := ((hsound.sameShape_iff hplain).mp hshape).trans hblank
    exact .cons ⟨hsound, by rw [hsame]; exact ht⟩ (ih hvs)

theorem Finds.spells {rest : Bytes} (h : c.Finds ids bytes values rest) : ∃ head,
    bytes = head ++ rest ∧ List.Forall₂ (Interface.Matches c.interface c.limits 0) ids values ∧
      Value.encodeAll values = .ok head := by
  obtain ⟨_, cursor, hscan, rfl⟩ := h
  obtain ⟨head, ⟨hmatches, hall⟩, hrest, _⟩ := scanTypes_spells c ids _ _ _ hscan
  exact ⟨head, hrest, hmatches, hall⟩

/-- Values that decoding gave are encoded in the bytes that it took them from, and values that
can be encoded under the types of a method are decoded again, unless a limit stops it. -/
theorem encodeValues_inverse (c : Codec) {name : String} {m : Method}
    (hm : c.interface.methodOrConstructor name = .ok m) :
    (∀ bytes values, c.decode name bytes = .ok values →
      ∃ head rest, bytes = head ++ rest ∧ c.Finds m.outputs bytes values rest ∧
        (c.settings.allowTrailing = false → rest = []) ∧
        c.encodeValues m.outputs values = .ok head) ∧
    ∀ values bytes, (∀ v ∈ values, Value.Built v) →
      c.encodeValues m.outputs values = .ok bytes →
      c.decode name bytes = .ok values ∨
        ∃ bound value max, c.decode name bytes = .error (.limitExceeded bound value max) := by
  constructor
  · intro bytes values h
    rw [decode_eq hm] at h
    obtain ⟨rest, hfinds, hend⟩ := decodeTypes_eq_ok.mp h
    obtain ⟨head, hbytes, hmatches, hall⟩ := hfinds.spells
    have htyped : c.Typed m.outputs values := typed_of_blanks (hmatches.imp fun _ _ hm => hm.2)
    refine ⟨head, rest, hbytes, hfinds, fun hstrict => ?_, encodeValues_eq_ok.mpr ⟨htyped, hall⟩⟩
    rcases hend with hallow | hrest
    · rw [hstrict] at hallow
      cases hallow
    · exact hrest
  · intro values bytes hbuilt h
    obtain ⟨htyped, hall⟩ := encodeValues_eq_ok.mp h
    have hmatches := matches_of_typed (fun v hv => (hbuilt v hv).sound) htyped
    rw [decode_eq hm]
    rcases decodeTypes_of_encodeAll (hmatches.imp fun _ _ => Interface.Matches.fits) hall with
      hok | ⟨_, f, hf, bound, value, max, rfl⟩
    · exact .inl hok
    · exact .inr ⟨bound, value, max, hf⟩

theorem built_loadedValues : ∀ v ∈ loadedValues, Value.Built v := by
  have hnew : Value.newEnum [[], [.bool false]] = .ok (.enum [[], [.bool false]] 0 []) := rfl
  have hempty : Value.Built (.enum [[], [.bool false]] 0 []) := by
    refine .newEnum ?_ hnew
    simp [Value.Built.bool]
  have hchosen : (Value.enum [[], [.bool false]] 0 []).select 1 [.bool true] =
      .ok (.enum [[], [.bool false]] 1 [.bool true]) := rfl
  have hfull : Value.Built (.enum [[], [.bool false]] 1 [.bool true]) := by
    refine .select hempty ?_ hchosen
    simp [Value.Built.bool]
  have hnone : Value.Built (.vector (.enum [[], [.bool false]] 0 []) []) := .newVector hempty
  have hone := hnone.push hempty rfl
  have hboth := hone.push hfull rfl
  intro v hv
  rcases List.mem_cons.mp hv with rfl | hv
  · exact hboth
  · cases List.mem_singleton.mp hv
    exact .bool false

theorem encodeValues_inverse_load :
    loadCodec.encodeValues [2, 0] loadedValues = .ok [8, 0, 1, 1, 0] ∧
      (loadCodec.decode "load" [8, 0, 1, 1, 0] = .ok loadedValues ∨
        ∃ bound value max,
          loadCodec.decode "load" [8, 0, 1, 1, 0] = .error (.limitExceeded bound value max)) := by
  have hmethod : loadCodec.interface.methodOrConstructor "load" = .ok ⟨"load", [], [2, 0]⟩ := rfl
  obtain ⟨hback, hforth⟩ := encodeValues_inverse loadCodec hmethod
  obtain ⟨head, rest, hbytes, _, hend, hencode⟩ := hback [8, 0, 1, 1, 0] loadedValues (by cbv)
  obtain rfl := hend rfl
  rw [List.append_nil] at hbytes
  subst hbytes
  exact ⟨hencode, hforth _ _ built_loadedValues hencode⟩

end Codec

end CallWire
