import CallWire.Proofs.ArgumentShape

namespace CallWire

namespace Argument

theorem natural_of_le {width : Width} {target : String} {n : Nat} (h : n ≤ width.unsignedMax) :
    natural width target (.natural n) = .ok n :=
  bind_eq_ok.mpr ⟨n, rfl, if_pos h⟩

/-- A value without parts stands for itself once its type is taken away. -/
theorem primitive_datum {p : Primitive} {v : Value} (h : v.blank = Value.ofPrimitive p) :
    primitive p v.datum = .ok v := by
  cases p with
  | bool =>
    cases v with
    | bool b => rfl
    | _ => cases h
  | text =>
    cases v with
    | text s => rfl
    | _ => cases h
  | word width signed =>
    cases v with
    | word n =>
      have hzero : Word.zero n.width n.signed = Word.zero width signed := Value.word.inj h
      have hwidth : n.width = width := congrArg Word.width hzero
      have hsigned : n.signed = signed := congrArg Word.signed hzero
      subst hwidth hsigned
      cases hs : n.signed with
      | false =>
        have hge := n.least_le
        have hle := n.le_greatest
        rw [hs] at hge hle
        simp only [Width.least, Width.greatest, Bool.false_eq_true, ↓reduceIte] at hge hle
        have hval : (n.val.toNat : Int) = n.val := Int.toNat_of_nonneg hge
        have hnat : n.val.toNat ≤ n.width.unsignedMax := by omega
        simp only [Value.datum, hs, Bool.false_eq_true, ↓reduceIte, primitive]
        refine bind_eq_ok.mpr ⟨_, natural_of_le hnat, ?_⟩
        exact bind_eq_ok.mpr ⟨n, Word.ofNat_eq_ok.mpr ⟨rfl, hs, hval.symm⟩, rfl⟩
      | true =>
        simp only [Value.datum, hs, ↓reduceIte, primitive]
        refine bind_eq_ok.mpr ⟨n.val, rfl, ?_⟩
        exact bind_eq_ok.mpr ⟨n, Word.ofInt_eq_ok.mpr ⟨rfl, hs, rfl⟩, rfl⟩
    | _ => cases h
  | varint width =>
    cases v with
    | varint n =>
      have hzero : Varint.zero n.width = Varint.zero width := Value.varint.inj h
      have hwidth : n.width = width := congrArg Varint.width hzero
      subst hwidth
      refine bind_eq_ok.mpr ⟨n.val, natural_of_le n.le_max, ?_⟩
      exact bind_eq_ok.mpr ⟨n, Varint.ofNat_eq_ok.mpr ⟨rfl, rfl⟩, rfl⟩
    | _ => cases h

end Argument

namespace Interface

variable {i : Interface} {l : Limits} {depth : Nat} {id : TypeId} {v : Value}

theorem fieldValues_datum {fields : List TypeId} {vs : List Value}
    (hs : ∀ v ∈ vs, Value.Sound v)
    (ht : fields.mapM (i.templateAt l depth) = .ok (Value.blankAll vs))
    (h : ∀ child ∈ fields, ∀ v, Value.Sound v → i.templateAt l depth child = .ok v.blank →
      i.valueAt l depth child v.datum = .ok v) :
    (Value.data vs).length = fields.length ∧
      fieldValues i l depth fields (Value.data vs) = .ok vs := by
  rw [mapM_eq_ok, Value.blankAll_eq_map] at ht
  induction vs generalizing fields with
  | nil =>
    cases ht
    exact ⟨rfl, by rw [Value.data, fieldValues]⟩
  | cons v vs ih =>
    obtain ⟨hv, hvs⟩ := List.forall_mem_cons.mp hs
    cases ht with
    | cons hfield hfields =>
      obtain ⟨hchild, hchildren⟩ := List.forall_mem_cons.mp h
      obtain ⟨hlen, hrest⟩ := ih hvs hfields hchildren
      refine ⟨congrArg Nat.succ hlen, ?_⟩
      rw [Value.data]
      have hhead := hchild v hv hfield
      exact fieldValues_cons_eq_ok.mpr ⟨v, vs, hhead, hrest, rfl⟩

theorem itemValues_datum {element : TypeId} {vs : List Value}
    (h : ∀ v ∈ vs, i.valueAt l depth element v.datum = .ok v) :
    (Value.data vs).length = vs.length ∧
      itemValues i l depth element (Value.data vs) = .ok vs := by
  induction vs with
  | nil => exact ⟨rfl, by rw [Value.data, itemValues]⟩
  | cons v vs ih =>
    obtain ⟨hv, hvs⟩ := List.forall_mem_cons.mp h
    obtain ⟨hlen, hrest⟩ := ih hvs
    refine ⟨congrArg Nat.succ hlen, ?_⟩
    rw [Value.data]
    exact itemValues_cons_eq_ok.mpr ⟨v, vs, hv, hrest, rfl⟩

/-- Items of the shape of an element stand for themselves when a blank of the element does. -/
theorem elements_datum {element : TypeId} {t : Value} {vs : List Value}
    (ht : i.templateAt l depth element = .ok t) (hs : ∀ v ∈ vs, Value.Sound v)
    (hshape : ∀ v ∈ vs, v.sameShape t = true)
    (h : ∀ v, Value.Sound v → i.templateAt l depth element = .ok v.blank →
      i.valueAt l depth element v.datum = .ok v) :
    ∀ v ∈ vs, i.valueAt l depth element v.datum = .ok v := by
  obtain ⟨hsound, hplain⟩ := templateAt_plain ht
  intro v hm
  apply h v (hs v hm)
  rw [ht, ((hs v hm).sameShape_iff hsound).mp (hshape v hm), hplain]

theorem payload_datum {variants : List (List TypeId)} {kept : List (List Value)} {tag : Nat}
    {chosen payload : List Value}
    (ht : variants.mapM (fun fields => fields.mapM (i.templateAt l depth)) = .ok kept)
    (hc : (kept.map Value.blankAll)[tag]? = some chosen) (hs : ∀ v ∈ payload, Value.Sound v)
    (hshape : Value.sameShapes payload chosen = true) :
    ∃ fields, variants[tag]? = some fields ∧
      fields.mapM (i.templateAt l depth) = .ok (Value.blankAll payload) := by
  rw [List.getElem?_map] at hc
  obtain ⟨ts, hts, rfl⟩ := Option.map_eq_some_iff.mp hc
  obtain ⟨fields, hf, hfields⟩ := mapM_getElem? ht hts
  obtain ⟨hsound, hself⟩ := fields_plain (fun _ _ _ => templateAt_plain) hfields
  rw [hself] at hshape
  have hblank := (Value.sameShapes_iff_of_sound hs hsound).mp hshape
  rw [hself] at hblank
  exact ⟨fields, hf, by rw [hfields, hblank]⟩

theorem datum_stands {decl : TypeDecl} (hr : i.resolve id = .ok decl)
    (ht : i.templateAt l depth id = .ok v.blank) (hv : Value.Sound v)
    (ih : ∀ child ∈ decl.layout.references, ∀ v, Value.Sound v →
      i.templateAt l (depth + 1) child = .ok v.blank →
      i.valueAt l (depth + 1) child v.datum = .ok v) :
    Stands i l depth id decl.layout v.datum v := by
  obtain ⟨_, _, hr', hof⟩ := templateAt_eq_ok.mp ht
  cases hr.symm.trans hr'
  obtain ⟨declId, layout⟩ := decl
  cases layout with
  | primitive p => exact .primitive (Argument.primitive_datum (pure_eq_ok.mp hof).symm)
  | struct fields =>
    obtain ⟨ts, hts, hpure⟩ := bind_eq_ok.mp hof
    cases hv with
    | struct hs =>
      cases pure_eq_ok.mp hpure
      obtain ⟨hlen, hvs⟩ := fieldValues_datum hs hts ih
      exact .struct hlen hvs
    | _ => cases pure_eq_ok.mp hpure
  | tuple fields =>
    obtain ⟨ts, hts, hpure⟩ := bind_eq_ok.mp hof
    cases hv with
    | tuple hs =>
      cases pure_eq_ok.mp hpure
      obtain ⟨hlen, hvs⟩ := fieldValues_datum hs hts ih
      exact .tuple hlen hvs
    | _ => cases pure_eq_ok.mp hpure
  | vector element =>
    obtain ⟨t, htemplate, hpure⟩ := bind_eq_ok.mp hof
    have hplain := (templateAt_plain htemplate).2
    cases hv with
    | vector _ _ hs hshape =>
      cases pure_eq_ok.mp hpure
      rw [hplain] at hshape
      obtain ⟨_, hvs⟩ := itemValues_datum
        (elements_datum htemplate hs hshape (ih element (List.mem_singleton_self _)))
      exact .vector htemplate hvs (Value.vectorOf_eq_ok.mpr ⟨by rwa [hplain], rfl⟩)
    | _ => cases pure_eq_ok.mp hpure
  | array element n =>
    obtain ⟨_, _, hrest⟩ := bind_eq_ok.mp hof
    obtain ⟨t, htemplate, hmade⟩ := bind_eq_ok.mp hrest
    obtain ⟨_, he⟩ := Value.newArray_eq_ok.mp hmade
    have hplain := (templateAt_plain htemplate).2
    cases hv with
    | array _ _ hn hs hshape =>
      obtain ⟨rfl, rfl, _⟩ := Value.array.inj he
      rw [hplain] at hshape
      obtain ⟨hlen, hvs⟩ := itemValues_datum
        (elements_datum htemplate hs hshape (ih element (List.mem_singleton_self _)))
      exact .array (hlen.trans hn) htemplate hvs
        (Value.arrayOf_eq_ok.mpr ⟨hn, by rwa [hplain], rfl⟩)
    | _ => cases he
  | enum variants =>
    obtain ⟨kept, hkept, hmade⟩ := bind_eq_ok.mp hof
    obtain ⟨_, he⟩ := Value.newEnum_eq_ok.mp hmade
    cases hv with
    | @enum _ tag chosen payload hcount hvs _ hvariant hs hshape =>
      obtain ⟨rfl, _, _⟩ := Value.enum.inj he
      obtain ⟨fields, hf, hfields⟩ := payload_datum hkept hvariant hs hshape
      have hmem : ∀ child ∈ fields, child ∈ variants.flatten := fun child hm =>
        List.mem_flatten.mpr ⟨fields, List.mem_of_getElem? hf, hm⟩
      obtain ⟨hlen, hpayload⟩ := fieldValues_datum hs hfields fun child hm => ih child (hmem child hm)
      have htag : tag.toNat ≤ Width.w8.unsignedMax := Nat.le_of_lt_succ tag.toNat_lt
      refine .enum (Argument.natural_of_le htag) hf hlen hpayload ht ?_
      rw [UInt8.ofNat_toNat]
      exact Value.select_eq_ok.mpr ⟨chosen, hvariant, hshape, rfl⟩
    | _ => cases he

/-- A sound value whose blank is the template of a type stands for itself there once its type is
taken away. -/
theorem valueAt_datum (ht : i.templateAt l depth id = .ok v.blank) (hv : Value.Sound v) :
    i.valueAt l depth id v.datum = .ok v := by
  induction id using i.types_induction generalizing depth v with
  | _ id ih =>
    obtain ⟨hdepth, decl, hr, _⟩ := templateAt_eq_ok.mp ht
    refine valueAt_eq_ok.mpr ⟨hdepth, decl, hr, datum_stands hr ht hv ?_⟩
    intro child hc w hw hwt
    exact ih decl hr child hc hwt hw

end Interface

end CallWire
