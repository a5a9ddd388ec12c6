import CallWire.Proofs.InterfaceAccepted
import CallWire.Proofs.TemplateArrays
import CallWire.Proofs.ValueNodes

namespace CallWire

namespace Interface

variable {i : Interface} {l : Limits} {depth : Nat} {id : TypeId} {t : Value}

theorem nodes_ofPrimitive (p : Primitive) : (Value.ofPrimitive p).nodes = 1 := by
  cases p with
  | bool | text | word | varint => rfl

theorem nodes_newVector {u : Value} (hu : u.blank = u) :
    (Value.newVector u).nodes = min (u.nodes + 1) Count.max := by
  rw [Value.newVector, hu, Value.nodes_vector]
  rfl

theorem nodes_newArray {u : Value} {n : Nat} (hu : u.blank = u)
    (h : Value.newArray u n = .ok t) : t.nodes = min (u.nodes * (n + 1) + 1) Count.max := by
  obtain ⟨_, rfl⟩ := Value.newArray_eq_ok.mp h
  rw [hu, hu, Value.nodes_array, List.map_replicate, List.sum_replicate, smul_eq_mul]
  have hmul : u.nodes * (n + 1) = u.nodes + n * u.nodes := by
    rw [Nat.mul_succ, Nat.mul_comm, Nat.add_comm]
  rw [hmul]

theorem nodes_newEnum {tss : List (List Value)} (hts : ∀ ts ∈ tss, Value.blankAll ts = ts)
    (h : Value.newEnum tss = .ok t) : t.nodes =
      min ((tss.flatten.map Value.nodes).sum + ((tss.headD []).map Value.nodes).sum + 1)
        Count.max := by
  have hblank : tss.map Value.blankAll = tss := by rw [List.map_congr_left hts, List.map_id']
  obtain ⟨_, rfl⟩ := Value.newEnum_eq_ok.mp h
  rw [hblank, Value.nodes_enum, Nat.add_comm (List.sum _)]

/-- A layer of a template has the nodes that its layout is counted with. -/
theorem nodes_of_templateOf {build : TypeId → Except Fault Value} {count : TypeId → Nat}
    {layout : Layout} (hplain : ∀ child ∈ layout.references, ∀ u, build child = .ok u → Plain u)
    (hcount : ∀ child ∈ layout.references, ∀ u, build child = .ok u → u.nodes = count child)
    (h : templateOf build l layout = .ok t) : t.nodes = layout.nodes count := by
  rw [Layout.nodes_eq_min]
  cases layout with
  | primitive p =>
    cases pure_eq_ok.mp h
    rw [nodes_ofPrimitive]
    rfl
  | struct fields =>
    obtain ⟨ts, hts, h⟩ := bind_eq_ok.mp h
    cases pure_eq_ok.mp h
    rw [Value.nodes_struct, map_of_mapM hts hcount]
    rfl
  | tuple fields =>
    obtain ⟨ts, hts, h⟩ := bind_eq_ok.mp h
    cases pure_eq_ok.mp h
    rw [Value.nodes_tuple, map_of_mapM hts hcount]
    rfl
  | vector element =>
    have hmem := List.mem_singleton_self element
    obtain ⟨u, hu, h⟩ := bind_eq_ok.mp h
    cases pure_eq_ok.mp h
    rw [nodes_newVector (hplain element hmem u hu).2, hcount element hmem u hu]
    rfl
  | array element length =>
    have hmem := List.mem_singleton_self element
    obtain ⟨_, _, h⟩ := bind_eq_ok.mp h
    obtain ⟨u, hu, h⟩ := bind_eq_ok.mp h
    rw [nodes_newArray (hplain element hmem u hu).2 h, hcount element hmem u hu]
    rfl
  | enum variants =>
    have hmem : ∀ fields ∈ variants, ∀ child ∈ fields, child ∈ variants.flatten :=
      fun fields hf child hc => List.mem_flatten.mpr ⟨fields, hf, hc⟩
    obtain ⟨tss, htss, h⟩ := bind_eq_ok.mp h
    have hblank : ∀ ts ∈ tss, Value.blankAll ts = ts := by
      refine mapM_forall htss fun fields hf ts hts => ?_
      exact (fields_plain (fun child hc => hplain child (hmem fields hf child hc)) hts).2
    have hall : tss.map (List.map Value.nodes) = variants.map (List.map count) :=
      map_of_mapM htss fun fields hf ts hts =>
        map_of_mapM hts fun child hc => hcount child (hmem fields hf child hc)
    have hhead : (tss.headD []).map Value.nodes = (variants.headD []).map count := by
      have hfirst := congrArg (List.headD · []) hall
      exact List.headD_map.symm.trans (hfirst.trans (List.headD_map (a := [])))
    rw [nodes_newEnum hblank h, List.map_flatten, hall, hhead, ← List.map_flatten]
    rfl

/-- Nothing stops the template of a declared layout that is no array too long but a part of it. -/
theorem templateOf_ok {build : TypeId → Except Fault Value} {decl : TypeDecl} (hs : decl.Sized)
    (hl : LengthWithin l decl.layout)
    (hb : ∀ child ∈ decl.layout.references, ∃ u, build child = .ok u) :
    ∃ t, templateOf build l decl.layout = .ok t := by
  obtain ⟨id, layout⟩ := decl
  cases layout with
  | primitive p => exact ⟨_, rfl⟩
  | struct fields | tuple fields =>
    obtain ⟨ts, hts⟩ := exists_mapM hb
    exact ⟨_, bind_eq_ok.mpr ⟨ts, hts, rfl⟩⟩
  | vector element =>
    obtain ⟨u, hu⟩ := hb element (List.mem_singleton_self _)
    exact ⟨_, bind_eq_ok.mpr ⟨u, hu, rfl⟩⟩
  | array element length =>
    obtain ⟨u, hu⟩ := hb element (List.mem_singleton_self _)
    have hcheck : l.checkCollection length = .ok () :=
      Limits.within_eq_ok_iff.mpr (hl element length rfl)
    have hlength := hs.array element length rfl
    exact ⟨_, bind_eq_ok.mpr ⟨(), hcheck, bind_eq_ok.mpr ⟨u, hu,
      Value.newArray_eq_ok.mpr ⟨hlength, rfl⟩⟩⟩⟩
  | enum variants =>
    have hfields : ∀ fields ∈ variants, ∃ ts, fields.mapM build = .ok ts := fun fields hf =>
      exists_mapM fun child hc => hb child (List.mem_flatten.mpr ⟨fields, hf, hc⟩)
    obtain ⟨tss, htss⟩ := exists_mapM hfields
    have hlength : tss.length = variants.length := (mapM_eq_ok.mp htss).length_eq.symm
    have hcount := hs.enum variants rfl
    rw [← hlength] at hcount
    exact ⟨_, bind_eq_ok.mpr ⟨tss, htss, Value.newEnum_eq_ok.mpr ⟨hcount, rfl⟩⟩⟩

theorem templateAt_unbounded (hsized : ∀ id decl, i.resolve id = .ok decl → decl.Sized)
    (hclosed : ∀ id decl, i.resolve id = .ok decl → ∀ child ∈ decl.layout.references,
      ∃ other, i.resolve child = .ok other)
    (h : ∃ decl, i.resolve id = .ok decl) : ∃ t, i.templateAt .unbounded depth id = .ok t := by
  induction id using i.types_induction generalizing depth with
  | _ id ih =>
    obtain ⟨decl, hr⟩ := h
    have hparts : ∀ child ∈ decl.layout.references,
        ∃ u, i.templateAt .unbounded (depth + 1) child = .ok u := fun child hc =>
      ih decl hr child hc (hclosed id decl hr child hc)
    have hlength : LengthWithin .unbounded decl.layout := fun _ _ _ max hmax => nomatch hmax
    obtain ⟨t, ht⟩ := templateOf_ok (hsized id decl hr) hlength hparts
    exact ⟨t, templateAt_eq_ok.mpr ⟨rfl, decl, hr, ht⟩⟩

/-- The nodes of a template are those that each layer of its type is counted with. -/
theorem nodes_of_templateAt {count : TypeId → Nat}
    (hcount : ∀ id decl, i.resolve id = .ok decl → count id = decl.layout.nodes count)
    (h : i.templateAt l depth id = .ok t) : t.nodes = count id := by
  induction id using i.types_induction generalizing depth t with
  | _ id ih =>
    obtain ⟨_, decl, hr, ht⟩ := templateAt_eq_ok.mp h
    rw [hcount id decl hr]
    exact nodes_of_templateOf (fun child _ u hu => templateAt_plain hu)
      (fun child hc u hu => ih decl hr child hc hu) ht

variable {types : List TypeDecl} {methods : List Method} {contract : Option Contract}

theorem closed_of_ofParts (h : ofParts types methods contract = .ok i) : Walk.Closed i.types := by
  obtain ⟨hids, hdecls, _, acyclic, _, m, _, rfl⟩ := ofParts_eq_ok.mp h
  exact closed_inOrder hids fun decl hd => (hdecls decl hd).2

theorem survey_of_ofParts (h : ofParts types methods contract = .ok i) :
    ∃ marks, Walk.survey i.types = .ok marks := by
  obtain ⟨_, _, _, acyclic, ha, m, _, rfl⟩ := ofParts_eq_ok.mp h
  exact survey_of_acyclicity ha

/-- The template of each type of an interface can be built, and has as many nodes as the walk
over the types counted for it, so that it has not too many. -/
theorem nodes_of_template (h : ofParts types methods contract = .ok i) :
    ∃ marks, Walk.survey i.types = .ok marks ∧ ∀ decl ∈ types, ∃ t,
      i.template .unbounded decl.id = .ok t ∧ Walk.mark marks decl.id = .done t.nodes ∧
        t.nodes ≤ maxTypeNodes := by
  have hformed := ofParts_ok_iff.mp ⟨i, h⟩
  have hdeclared : ∀ id decl, i.resolve id = .ok decl → decl ∈ types :=
    fun id decl hr => ((resolve_eq_ok h).mp hr).1
  have hchildren : ∀ id decl, i.resolve id = .ok decl → ∀ child ∈ decl.layout.references,
      ∃ other, i.resolve child = .ok other := fun id decl hr child hc =>
    exists_resolve h (hformed.references decl (hdeclared id decl hr) child hc)
  have hsized : ∀ id decl, i.resolve id = .ok decl → decl.Sized := fun id decl hr =>
    ⟨hformed.arrays decl (hdeclared id decl hr), hformed.enums decl (hdeclared id decl hr)⟩
  have hclosed := closed_of_ofParts h
  obtain ⟨marks, hs⟩ := survey_of_ofParts h
  have hcount : ∀ id decl, i.resolve id = .ok decl →
      Walk.nodes marks id = decl.layout.nodes (Walk.nodes marks) := fun id decl hr =>
    Walk.layoutNodes_of_survey hclosed hs (getElem?_of_resolve hr)
  refine ⟨marks, hs, fun decl hd => ?_⟩
  have hr : i.resolve decl.id = .ok decl := (resolve_eq_ok h).mpr ⟨hd, rfl⟩
  obtain ⟨hlt, _⟩ := Array.getElem?_eq_some_iff.mp (getElem?_of_resolve hr)
  obtain ⟨t, ht⟩ : ∃ t, i.template .unbounded decl.id = .ok t :=
    templateAt_unbounded hsized hchildren ⟨decl, hr⟩
  have hnodes : t.nodes = Walk.nodes marks decl.id := nodes_of_templateAt hcount ht
  refine ⟨t, ht, ?_, ?_⟩
  · rw [hnodes]
    exact Walk.mark_of_survey hs decl.id
  · rw [hnodes]
    exact (Walk.hasNodes_of_survey hclosed hs hlt).1

def gridTypes : List TypeDecl :=
  [⟨3, .array 2 3⟩, ⟨0, .primitive .bool⟩, ⟨2, .enum [[0, 1], [1]]⟩, ⟨1, .vector 0⟩]

def gridTable : TypeTable :=
  #[⟨0, .primitive .bool⟩, ⟨1, .vector 0⟩, ⟨2, .enum [[0, 1], [1]]⟩, ⟨3, .array 2 3⟩]

def gridMarks : Array Mark := #[.done 1, .done 2, .done 9, .done 37]

theorem survey_gridTable : Walk.survey gridTable = .ok gridMarks := by cbv

/-- Rows of three choices, each of a flag and flags or of flags alone. -/
def gridInterface : Interface :=
  ⟨none, gridTable, [], none, Walk.wellFounded_of_survey survey_gridTable⟩

theorem ofParts_grid : ofParts gridTypes [] none = .ok gridInterface := by
  have horder : inOrder gridTypes =
      [⟨0, .primitive .bool⟩, ⟨1, .vector 0⟩, ⟨2, .enum [[0, 1], [1]]⟩, ⟨3, .array 2 3⟩] := by cbv
  exact ofParts_of_survey horder rfl rfl survey_gridTable rfl rfl

theorem nodes_of_template_grid : ofParts gridTypes [] none = .ok gridInterface ∧
    ∃ t, gridInterface.template .unbounded 3 = .ok t ∧ t.nodes = 37 ∧ t.nodes ≤ maxTypeNodes := by
  obtain ⟨marks, hs, hall⟩ := nodes_of_template ofParts_grid
  cases survey_gridTable.symm.trans hs
  obtain ⟨t, ht, hmark, hle⟩ := hall ⟨3, .array 2 3⟩ List.mem_cons_self
  exact ⟨ofParts_grid, t, ht, (Mark.done.inj hmark).symm, hle⟩

end Interface

end CallWire
