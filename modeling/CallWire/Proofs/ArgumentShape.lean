import CallWire.Proofs.ArgumentCases

namespace CallWire

namespace Interface

variable {i : Interface} {l : Limits} {depth : Nat} {id : TypeId} {d : Datum} {v : Value}

/-- A sound value whose blank is the template of a type, the limit on collections aside. -/
def Fits (i : Interface) (l : Limits) (depth : Nat) (id : TypeId) (v : Value) : Prop :=
  Value.Sound v ∧ i.templateAt l.uncollected depth id = .ok v.blank

/-- No declared array is longer than arrays may be. -/
def ShortArrays (i : Interface) : Prop :=
  ∀ id decl, i.resolve id = .ok decl → ∀ element n, decl.layout = .array element n →
    n ≤ maxArrayLength

theorem fieldValues_fit {fields : List TypeId} {items : List Datum} {vs : List Value}
    (hd : ∀ d ∈ items, ∀ id v, i.valueAt l depth id d = .ok v → Fits i l depth id v)
    (hn : items.length = fields.length) (h : fieldValues i l depth fields items = .ok vs) :
    List.Forall₂ (Fits i l depth) fields vs := by
  induction items generalizing fields vs with
  | nil =>
    cases List.length_eq_zero_iff.mp hn.symm
    rw [fieldValues] at h
    cases h
    exact .nil
  | cons d ds ih =>
    obtain ⟨hhead, htail⟩ := List.forall_mem_cons.mp hd
    cases fields with
    | nil => cases hn
    | cons field fields =>
      obtain ⟨v, ws, hv, hws, rfl⟩ := fieldValues_cons_eq_ok.mp h
      exact .cons (hhead field v hv) (ih htail (Nat.succ.inj hn) hws)

theorem itemValues_fit {element : TypeId} {items : List Datum} {vs : List Value}
    (hd : ∀ d ∈ items, ∀ v, i.valueAt l depth element d = .ok v → Fits i l depth element v)
    (h : itemValues i l depth element items = .ok vs) :
    vs.length = items.length ∧ ∀ v ∈ vs, Fits i l depth element v := by
  induction items generalizing vs with
  | nil =>
    rw [itemValues] at h
    cases h
    exact ⟨rfl, by simp⟩
  | cons d ds ih =>
    obtain ⟨hhead, htail⟩ := List.forall_mem_cons.mp hd
    obtain ⟨v, ws, hv, hws, rfl⟩ := itemValues_cons_eq_ok.mp h
    obtain ⟨hlen, hfit⟩ := ih htail hws
    exact ⟨by rw [List.length_cons, List.length_cons, hlen],
      List.forall_mem_cons.mpr ⟨hhead v hv, hfit⟩⟩

theorem mapM_templates {fields : List TypeId} {vs : List Value}
    (h : List.Forall₂ (Fits i l depth) fields vs) :
    fields.mapM (i.templateAt l.uncollected depth) = .ok (Value.blankAll vs) ∧
      ∀ v ∈ vs, Value.Sound v := by
  rw [mapM_eq_ok, Value.blankAll_eq_map]
  induction h with
  | nil => exact ⟨.nil, by simp⟩
  | cons hv _ ih => exact ⟨.cons hv.2 ih.1, List.forall_mem_cons.mpr ⟨hv.1, ih.2⟩⟩

theorem stands_fit (hs : i.ShortArrays) (hdepth : l.checkDepth depth = .ok ()) {decl : TypeDecl}
    (hr : i.resolve id = .ok decl)
    (hd : ∀ items, d = .list items → ∀ x ∈ items, ∀ depth id v,
      i.valueAt l depth id x = .ok v → Fits i l depth id v)
    (h : Stands i l depth id decl.layout d v) : Fits i l depth id v := by
  have hmade : Value.Sound v → templateOf (i.templateAt l.uncollected (depth + 1)) l.uncollected
      decl.layout = .ok v.blank → Fits i l depth id v :=
    fun hv ht => ⟨hv, templateAt_eq_ok.mpr ⟨hdepth, decl, hr, ht⟩⟩
  obtain ⟨declId, layout⟩ := decl
  cases h with
  | @primitive p d v h =>
    obtain ⟨hv, hb⟩ := Argument.primitive_shape h
    exact hmade hv (by rw [hb]; rfl)
  | struct hn hvs | tuple hn hvs =>
    obtain ⟨hts, hsound⟩ := mapM_templates (fieldValues_fit (fun x hm => hd _ rfl x hm _) hn hvs)
    refine hmade ?_ (bind_eq_ok.mpr ⟨_, hts, rfl⟩)
    constructor
    exact hsound
  | vector ht hvs hb =>
    obtain ⟨_, hfit⟩ := itemValues_fit (fun x hm => hd _ rfl x hm _ _) hvs
    refine hmade ((templateAt_plain ht).1.vectorOf (fun v hm => (hfit v hm).1) hb) ?_
    obtain ⟨_, rfl⟩ := Value.vectorOf_eq_ok.mp hb
    exact bind_eq_ok.mpr ⟨_, templateAt_uncollected ht, rfl⟩
  | array hn ht hvs hb =>
    obtain ⟨hlen, hfit⟩ := itemValues_fit (fun x hm => hd _ rfl x hm _ _) hvs
    refine hmade ((templateAt_plain ht).1.arrayOf (fun v hm => (hfit v hm).1) hb) ?_
    obtain ⟨hlength, _, rfl⟩ := Value.arrayOf_eq_ok.mp hb
    refine bind_eq_ok.mpr ⟨(), rfl, bind_eq_ok.mpr ⟨_, templateAt_uncollected ht, ?_⟩⟩
    rw [Value.newArray_eq_ok, Value.blank, hlength]
    exact ⟨hs id _ hr _ _ rfl, rfl⟩
  | enum htag hf hn hp ht hb =>
    obtain ⟨_, hsound⟩ := mapM_templates (fieldValues_fit (fun x hm =>
      hd _ rfl x (List.mem_cons_of_mem _ hm) _) hn hp)
    obtain ⟨ht', hplain⟩ := templateAt_plain ht
    refine ⟨ht'.select hsound hb, ?_⟩
    rw [Value.blank_of_select hb, hplain]
    exact templateAt_uncollected ht

/-- The value that plain data stands for fits its type. -/
theorem valueAt_fits (hs : i.ShortArrays) (h : i.valueAt l depth id d = .ok v) :
    Fits i l depth id v := by
  induction d using Datum.items_induction generalizing depth id v with
  | bool | text | natural | integer =>
    obtain ⟨hdepth, decl, hr, hstands⟩ := valueAt_eq_ok.mp h
    refine stands_fit hs hdepth hr ?_ hstands
    intro _ he
    cases he
  | list items ih =>
    obtain ⟨hdepth, decl, hr, hstands⟩ := valueAt_eq_ok.mp h
    refine stands_fit hs hdepth hr ?_ hstands
    intro others he x hm depth id v hv
    cases he
    exact ih x hm hv

end Interface

end CallWire
