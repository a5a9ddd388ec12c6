import CallWire.Proofs.ArgumentJson
import CallWire.Proofs.CodecRoundTrip
import CallWire.Proofs.TemplateArrays
import CallWire.Proofs.TemplateNodes

namespace CallWire

namespace Interface

variable {i : Interface} {l : Limits} {depth : Nat} {id : TypeId} {d : Datum} {t v : Value}

/-- One type is reached from another by so many references. -/
inductive Below (i : Interface) : Nat → TypeId → TypeId → Prop
  | self (id : TypeId) : Below i 0 id id
  | reference {n : Nat} {part child id : TypeId} {decl : TypeDecl}
      (resolved : i.resolve id = .ok decl) (child_mem : child ∈ decl.layout.references)
      (below : Below i n part child) : Below i (n + 1) part id

/-- No type below one that has a template is deeper than types may be. -/
theorem checkDepth_of_templateAt {n : Nat} {part : TypeId} (hb : i.Below n part id)
    (h : i.templateAt l depth id = .ok t) : l.checkDepth (depth + n) = .ok () := by
  induction hb generalizing depth t with
  | self id => exact (templateAt_eq_ok.mp h).1
  | @reference n part child id decl hr hc _ ih =>
    obtain ⟨_, other, ho, ht⟩ := templateAt_eq_ok.mp h
    cases hr.symm.trans ho
    obtain ⟨u, hu⟩ := (templateOf_parts ht).2 child hc
    have hdepth := ih hu
    rwa [Nat.add_assoc, Nat.add_comm 1 n] at hdepth

/-- What fits a type is of the shape of the blanks that its template makes. -/
theorem Fits.sameShape (hf : Fits i l depth id v) (ht : i.templateAt l depth id = .ok t) :
    v.sameShape t.blank = true := by
  have hblank : v.blank = t := Except.ok.inj (hf.2.symm.trans (templateAt_uncollected ht))
  apply Value.sameShape_of_blank_eq
  rw [Value.blank_blank, ← hblank, Value.blank_blank]

theorem itemValues_sameShape (hs : i.ShortArrays) {element : TypeId} {items : List Datum}
    {vs : List Value} (ht : i.templateAt l depth element = .ok t)
    (h : itemValues i l depth element items = .ok vs) :
    vs.length = items.length ∧ ∀ v ∈ vs, v.sameShape t.blank = true := by
  obtain ⟨hlen, hfit⟩ := itemValues_fit (fun _ _ _ hv => valueAt_fits hs hv) h
  exact ⟨hlen, fun v hm => (hfit v hm).sameShape ht⟩

/-- The payload of a variant is of the shape that the template of its enum keeps for it. -/
theorem fieldValues_sameShapes (hs : i.ShortArrays) {fields : List TypeId} {items : List Datum}
    {vs ts : List Value} (hn : items.length = fields.length)
    (ht : fields.mapM (i.templateAt l depth) = .ok ts)
    (h : fieldValues i l depth fields items = .ok vs) : Value.sameShapes vs ts = true := by
  have hfit := fieldValues_fit (fun _ _ _ _ hv => valueAt_fits hs hv) hn h
  have hnarrows : Narrows (OverCollection l) (fields.mapM (i.templateAt l depth))
      (fields.mapM (i.templateAt l.uncollected depth)) :=
    Narrows.mapM fun child _ => templateAt_narrows_uncollected i l depth child
  have hblank : Value.blankAll vs = ts :=
    Except.ok.inj ((mapM_templates hfit).1.symm.trans (hnarrows.of_ok ht))
  apply Value.sameShapes_of_blankAll_eq
  rw [hblank, (fields_plain (fun _ _ _ => templateAt_plain) ht).2]

/-- The call that puts together what a list stands for, made once every step before it has
succeeded. -/
inductive Assembly (i : Interface) (l : Limits) (depth : Nat) (id : TypeId) :
    Layout → Datum → Except Fault Value → Prop
  | vector {element : TypeId} {items : List Datum} {t : Value} {vs : List Value}
      (template : i.templateAt l (depth + 1) element = .ok t)
      (values : itemValues i l (depth + 1) element items = .ok vs) :
      Assembly i l depth id (.vector element) (.list items) (Value.vectorOf t vs)
  | array {element : TypeId} {n : Nat} {items : List Datum} {t : Value} {vs : List Value}
      (length : items.length = n) (template : i.templateAt l (depth + 1) element = .ok t)
      (values : itemValues i l (depth + 1) element items = .ok vs) :
      Assembly i l depth id (.array element n) (.list items) (Value.arrayOf t n vs)
  | enum {variants : List (List TypeId)} {fields : List TypeId} {first : Datum}
      {items : List Datum} {tag : Nat} {t : Value} {payload : List Value}
      (natural : Argument.natural .w8 "u8" first = .ok tag)
      (variant : variants[tag]? = some fields) (length : items.length = fields.length)
      (values : fieldValues i l (depth + 1) fields items = .ok payload)
      (template : i.templateAt l depth id = .ok t) :
      Assembly i l depth id (.enum variants) (.list (first :: items))
        (t.select (UInt8.ofNat tag) payload)

theorem Assembly.stands {layout : Layout} (h : Assembly i l depth id layout d (.ok v)) :
    Stands i l depth id layout d v := by
  generalize hb : Except.ok v = call at h
  cases h with
  | vector ht hvs => exact .vector ht hvs hb.symm
  | array hn ht hvs => exact .array hn ht hvs hb.symm
  | enum htag hf hn hp ht => exact .enum htag hf hn hp ht hb.symm

/-- The template of an enum keeps the templates of each variant. -/
theorem select_of_template {variants : List (List TypeId)} {fields : List TypeId} {tag : Nat}
    {payload : List Value} {decl : TypeDecl} (hr : i.resolve id = .ok decl)
    (hl : decl.layout = .enum variants) (hf : variants[tag]? = some fields)
    (htag : tag ≤ Width.w8.unsignedMax) (ht : i.templateAt l depth id = .ok t)
    (hp : ∀ ts, fields.mapM (i.templateAt l (depth + 1)) = .ok ts →
      Value.sameShapes payload ts = true) :
    ∃ v, t.select (UInt8.ofNat tag) payload = .ok v := by
  obtain ⟨_, other, ho, hof⟩ := templateAt_eq_ok.mp ht
  cases hr.symm.trans ho
  rw [hl] at hof
  obtain ⟨tss, htss, hmade⟩ := bind_eq_ok.mp hof
  obtain ⟨_, rfl⟩ := Value.newEnum_eq_ok.mp hmade
  obtain ⟨ts, hts, hfields⟩ := getElem?_mapM htss hf
  have hself := (fields_plain (fun _ _ _ => templateAt_plain) hfields).2
  -- A tag that was read as eight bits is not cut short.
  have hbyte : (UInt8.ofNat tag).toNat = tag := UInt8.toNat_ofNat_of_lt' (Nat.lt_succ_of_le htag)
  refine ⟨_, Value.select_eq_ok.mpr ⟨ts, ?_, hp ts hfields, rfl⟩⟩
  rw [hbyte, List.getElem?_map, hts, Option.map_some, hself]

/-- No call that puts a value together fails. -/
theorem Assembly.ok (hs : i.ShortArrays) {decl : TypeDecl} {call : Except Fault Value}
    (hr : i.resolve id = .ok decl) (h : Assembly i l depth id decl.layout d call) :
    ∃ v, call = .ok v := by
  generalize hl : decl.layout = layout at h
  cases h with
  | vector ht hvs =>
    exact ⟨_, Value.vectorOf_eq_ok.mpr ⟨(itemValues_sameShape hs ht hvs).2, rfl⟩⟩
  | array hn ht hvs =>
    obtain ⟨hlen, hshape⟩ := itemValues_sameShape hs ht hvs
    exact ⟨_, Value.arrayOf_eq_ok.mpr ⟨hlen.trans hn, hshape, rfl⟩⟩
  | enum htag hf hn hp ht =>
    refine select_of_template hr hl hf (Argument.natural_eq_ok.mp htag).2 ht fun ts hts => ?_
    exact fieldValues_sameShapes hs hn hts hp

theorem Assembly.valueAt_eq (hs : i.ShortArrays) {decl : TypeDecl} {call : Except Fault Value}
    (hdepth : l.checkDepth depth = .ok ()) (hr : i.resolve id = .ok decl)
    (h : Assembly i l depth id decl.layout d call) :
    i.valueAt l depth id d = call ∧ ∃ v, call = .ok v := by
  obtain ⟨v, rfl⟩ := h.ok hs hr
  exact ⟨valueAt_eq_ok.mpr ⟨hdepth, decl, hr, h.stands⟩, v, rfl⟩

theorem push_vector {t v : Value} {vs : List Value} (h : v.sameShape t = true) :
    (Value.vector t vs).push v = .ok (.vector t (vs ++ [v])) :=
  bind_eq_ok.mpr ⟨(), Value.requireShape_eq_ok.mpr h, rfl⟩

/-- Pushes what each item stands for as soon as it is known. -/
def pushItems (i : Interface) (l : Limits) (depth : Nat) (element : TypeId) :
    Value → List Datum → Except Fault Value
  | v, [] => .ok v
  | v, d :: ds => do
    let item ← i.valueAt l depth element d
    pushItems i l depth element (← v.push item) ds

/-- Pushing items one by one is as good as checking them all at the end. -/
theorem pushItems_eq (hs : i.ShortArrays) {element : TypeId} {items : List Datum} {vs : List Value}
    (ht : i.templateAt l depth element = .ok t) (hvs : ∀ v ∈ vs, v.sameShape t.blank = true) :
    pushItems i l depth element (.vector t.blank vs) items = (do
      Value.vectorOf t (vs ++ (← itemValues i l depth element items))) := by
  induction items generalizing vs with
  | nil =>
    rw [pushItems, itemValues]
    exact (Value.vectorOf_eq_ok.mpr ⟨by simpa using hvs, by rw [List.append_nil]⟩).symm
  | cons d ds ih =>
    rw [pushItems, itemValues]
    cases hv : i.valueAt l depth element d with
    | error f => rfl
    | ok v =>
      -- What an item stands for has the shape of the element, so that its push goes through and
      -- the two sides can only stop at the same item.
      have hshape := (valueAt_fits hs hv).sameShape ht
      have hall : ∀ w ∈ vs ++ [v], w.sameShape t.blank = true :=
        List.forall_mem_append.mpr ⟨hvs, List.forall_mem_singleton.mpr hshape⟩
      change ((Value.vector t.blank vs).push v >>= fun w => pushItems i l depth element w ds) = _
      rw [push_vector hshape]
      change pushItems i l depth element (.vector t.blank (vs ++ [v])) ds = _
      rw [ih hall]
      cases itemValues i l depth element ds with
      | error f => rfl
      | ok ws =>
        change Value.vectorOf t (vs ++ [v] ++ ws) = Value.vectorOf t (vs ++ v :: ws)
        rw [List.append_assoc, List.singleton_append]

theorem push_of_pushItems (hs : i.ShortArrays) {element : TypeId} {items : List Datum}
    {vs : List Value} (ht : i.templateAt l depth element = .ok t)
    (hvs : itemValues i l depth element items = .ok vs)
    (hv : i.valueAt l depth element d = .ok v) :
    ∃ w longer, pushItems i l depth element (Value.newVector t) items = .ok w ∧
      w.push v = .ok longer := by
  have hshape := (itemValues_sameShape hs ht hvs).2
  refine ⟨.vector t.blank vs, _, ?_, push_vector ((valueAt_fits hs hv).sameShape ht)⟩
  rw [Value.newVector, pushItems_eq hs ht (List.forall_mem_nil _), hvs]
  exact Value.vectorOf_eq_ok.mpr ⟨hshape, rfl⟩

theorem valueAt_vector (hs : i.ShortArrays) {decl : TypeDecl} {element : TypeId}
    {items : List Datum} (hr : i.resolve id = .ok decl) (hl : decl.layout = .vector element) :
    i.valueAt l depth id (.list items) = (do
      l.checkDepth depth
      let t ← i.templateAt l (depth + 1) element
      pushItems i l (depth + 1) element (Value.newVector t) items) := by
  obtain ⟨declId, layout⟩ := decl
  cases hl
  rw [valueAt, hr]
  congr 1
  funext _
  change (i.templateAt l (depth + 1) element >>= fun t => _) = _
  cases ht : i.templateAt l (depth + 1) element with
  | error f => rfl
  | ok t => exact (pushItems_eq hs ht (List.forall_mem_nil _)).symm

/-- What plain data stands for is sound and of the shape of its type, which is nested no deeper
than types may be even where the data has nothing for a part of it. The call that puts a value
together never fails, nor would a push if vectors were filled item by item, to the same end. -/
theorem value_sound (hi : i.Accepted) (l : Limits) :
    (∀ id d v, i.value l id d = .ok v → Value.Sound v ∧
      (∃ t, i.template l.uncollected id = .ok t ∧ v.sameShape t = true) ∧
      ∀ n part, i.Below n part id → ∀ max ∈ l.depth, n ≤ max) ∧
    (∀ depth id decl d call, l.checkDepth depth = .ok () → i.resolve id = .ok decl →
      Assembly i l depth id decl.layout d call →
        i.valueAt l depth id d = call ∧ ∃ v, call = .ok v) ∧
    (∀ depth id decl element items, i.resolve id = .ok decl → decl.layout = .vector element →
      i.valueAt l depth id (.list items) = (do
        l.checkDepth depth
        let t ← i.templateAt l (depth + 1) element
        pushItems i l (depth + 1) element (Value.newVector t) items)) ∧
    ∀ depth element t items vs d v, i.templateAt l depth element = .ok t →
      itemValues i l depth element items = .ok vs → i.valueAt l depth element d = .ok v →
        ∃ w longer, pushItems i l depth element (Value.newVector t) items = .ok w ∧
          w.push v = .ok longer := by
  have hs := hi.shortArrays
  refine ⟨?_, ?_, ?_, ?_⟩
  · intro id d v h
    obtain ⟨hsound, ht⟩ : Fits i l 0 id v := valueAt_fits hs h
    refine ⟨hsound, ⟨v.blank, ht, ?_⟩, fun n part hb => ?_⟩
    · exact Value.sameShape_of_blank_eq (Value.blank_blank v).symm
    · have hdepth : l.uncollected.checkDepth (0 + n) = .ok () := checkDepth_of_templateAt hb ht
      rw [Nat.zero_add] at hdepth
      exact Limits.within_eq_ok_iff.mp hdepth
  · exact fun depth id decl d call hdepth hr hcall => hcall.valueAt_eq hs hdepth hr
  · exact fun depth id decl element items hr hl => valueAt_vector hs hr hl
  · exact fun depth element t items vs d v ht hvs hv => push_of_pushItems hs ht hvs hv

/-- The second choice of a cell, which has no flags. -/
def gridChoice : Value :=
  .enum [[.bool false, .vector (.bool false) []], [.vector (.bool false) []]] 1
    [.vector (.bool false) []]

theorem value_sound_grid :
    gridInterface.value { depth := some 2 } 2 (.list [.natural 1, .list []]) = .ok gridChoice ∧
      Value.Sound gridChoice ∧ (∀ n part, gridInterface.Below n part 2 → n ≤ 2) ∧
      gridInterface.valueAt { depth := some 2 } 1 1 (.list []) =
        Value.vectorOf (.bool false) [] ∧
      gridInterface.value { depth := some 1 } 2 (.list [.natural 1, .list []]) =
        .error (.limitExceeded .depth 2 1) := by
  have haccepted : gridInterface.Accepted := ⟨_, _, _, ofParts_grid⟩
  have hvalue : gridInterface.value { depth := some 2 } 2 (.list [.natural 1, .list []]) =
      .ok gridChoice := by cbv
  have htemplate : gridInterface.templateAt { depth := some 2 } 2 0 = .ok (.bool false) := by cbv
  obtain ⟨hall, hassembly, _, _⟩ := value_sound haccepted { depth := some 2 }
  obtain ⟨hsound, _, hdepth⟩ := hall 2 _ _ hvalue
  have hflags : Assembly gridInterface { depth := some 2 } 1 1 (.vector 0) (.list []) _ :=
    .vector htemplate (by rw [itemValues])
  refine ⟨hvalue, hsound, fun n part hb => hdepth n part hb 2 rfl, ?_, by cbv⟩
  exact (hassembly 1 1 ⟨1, .vector 0⟩ _ _ rfl rfl hflags).1

end Interface

end CallWire
