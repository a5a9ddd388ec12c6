import CallWire.Proofs.CodecTyped
import CallWire.Proofs.TemplateLimits

namespace CallWire

/-- Layouts of one form, with references that are related one by one. -/
inductive Layout.Alike (r : TypeId → TypeId → Prop) : Layout → Layout → Prop
  | primitive (p : Primitive) : Alike r (.primitive p) (.primitive p)
  | struct {xs ys : List TypeId} (fields : List.Forall₂ r xs ys) :
      Alike r (.struct xs) (.struct ys)
  | tuple {xs ys : List TypeId} (fields : List.Forall₂ r xs ys) : Alike r (.tuple xs) (.tuple ys)
  | vector {x y : TypeId} (element : r x y) : Alike r (.vector x) (.vector y)
  | array {x y : TypeId} {n : Nat} (element : r x y) : Alike r (.array x n) (.array y n)
  | enum {xss yss : List (List TypeId)} (variants : List.Forall₂ (List.Forall₂ r) xss yss) :
      Alike r (.enum xss) (.enum yss)

namespace Interface

/-- Two types unfold to the same structure. -/
inductive Alike (i : Interface) : TypeId → TypeId → Prop
  | intro {a b : TypeId} {first second : TypeDecl} (left : i.resolve a = .ok first)
      (right : i.resolve b = .ok second)
      (layouts : first.layout.Alike (Alike i) second.layout) : Alike i a b

variable {i : Interface} {l m : Limits} {depth : Nat} {a b : TypeId} {t u : Value}

theorem templateOf_eq_of_alike {build others : TypeId → Except Fault Value}
    {r : TypeId → TypeId → Prop} {x y : Layout}
    (hb : ∀ child ∈ x.references, ∀ other, r child other → build child = others other)
    (h : x.Alike r y) : templateOf build l x = templateOf others l y := by
  cases h with
  | primitive p => rfl
  | struct fields | tuple fields => rw [templateOf, templateOf, mapM_eq_mapM fields hb]
  | vector element | array element =>
    rw [templateOf, templateOf, hb _ (List.mem_singleton_self _) _ element]
  | enum variants =>
    rw [templateOf, templateOf, mapM_eq_mapM variants fun xs hxs ys hfields => ?_]
    exact mapM_eq_mapM hfields fun child hc => hb child (List.mem_flatten.mpr ⟨xs, hxs, hc⟩)

/-- Types of one structure have the same template, and are stopped alike by any limits. -/
theorem templateAt_eq_of_alike (h : i.Alike a b) :
    i.templateAt l depth a = i.templateAt l depth b := by
  induction a using i.types_induction generalizing b depth with
  | _ a ih =>
    obtain ⟨ha, hb, hlayouts⟩ := h
    rw [templateAt_eq, templateAt_eq, ha, hb]
    congr 1
    funext _
    exact templateOf_eq_of_alike (fun child hc other hr => ih _ ha child hc hr) hlayouts

/-- A layer of a template, with the templates that it is made of. -/
inductive Layer (build : TypeId → Except Fault Value) : Layout → Value → Prop
  | primitive {p : Primitive} {t : Value} (blank : Value.ofPrimitive p = t) :
      Layer build (.primitive p) t
  | struct {fields : List TypeId} {ts : List Value} (built : fields.mapM build = .ok ts) :
      Layer build (.struct fields) (.struct ts)
  | tuple {fields : List TypeId} {ts : List Value} (built : fields.mapM build = .ok ts) :
      Layer build (.tuple fields) (.tuple ts)
  | vector {element : TypeId} {t : Value} (built : build element = .ok t) :
      Layer build (.vector element) (.vector t [])
  | array {element : TypeId} {n : Nat} {t : Value} (built : build element = .ok t) :
      Layer build (.array element n) (.array t n (List.replicate n t))
  | enum {variants : List (List TypeId)} {tss : List (List Value)}
      (built : variants.mapM (fun fields => fields.mapM build) = .ok tss) :
      Layer build (.enum variants) (.enum tss 0 (tss.headD []))

theorem layer_of_templateOf {build : TypeId → Except Fault Value} {layout : Layout}
    (hplain : ∀ child ∈ layout.references, ∀ t, build child = .ok t → Plain t)
    (h : templateOf build l layout = .ok t) : Layer build layout t := by
  cases layout with
  | primitive p => exact .primitive (pure_eq_ok.mp h)
  | struct fields =>
    obtain ⟨ts, hts, h⟩ := bind_eq_ok.mp h
    cases pure_eq_ok.mp h
    exact .struct hts
  | tuple fields =>
    obtain ⟨ts, hts, h⟩ := bind_eq_ok.mp h
    cases pure_eq_ok.mp h
    exact .tuple hts
  | vector element =>
    obtain ⟨v, hv, h⟩ := bind_eq_ok.mp h
    cases pure_eq_ok.mp h
    rw [Value.newVector, (hplain element (List.mem_singleton_self _) v hv).2]
    exact .vector hv
  | array element n =>
    obtain ⟨_, _, h⟩ := bind_eq_ok.mp h
    obtain ⟨v, hv, h⟩ := bind_eq_ok.mp h
    obtain ⟨_, rfl⟩ := Value.newArray_eq_ok.mp h
    have hblank := (hplain element (List.mem_singleton_self _) v hv).2
    rw [hblank, hblank]
    exact .array hv
  | enum variants =>
    obtain ⟨tss, htss, h⟩ := bind_eq_ok.mp h
    obtain ⟨_, rfl⟩ := Value.newEnum_eq_ok.mp h
    have hblank : ∀ ts ∈ tss, Value.blankAll ts = ts := by
      refine mapM_forall htss fun fields hf ts hts => ?_
      have hmem : ∀ child ∈ fields, child ∈ variants.flatten :=
        fun child hc => List.mem_flatten.mpr ⟨fields, hf, hc⟩
      exact (fields_plain (fun child hc => hplain child (hmem child hc)) hts).2
    rw [List.map_congr_left hblank, List.map_id']
    exact .enum htss

theorem kind_ofPrimitive (p : Primitive) : (Value.ofPrimitive p).kind = .primitive p := by
  cases p with
  | bool | text | word | varint => rfl

/-- What has one layer in common was declared alike. -/
theorem alike_of_layers {build others : TypeId → Except Fault Value}
    {r : TypeId → TypeId → Prop} {x y : Layout}
    (hr : ∀ child ∈ x.references, ∀ other ∈ y.references, ∀ v,
      build child = .ok v → others other = .ok v → r child other)
    (hx : Layer build x t) (hy : Layer others y t) : x.Alike r y := by
  have hfields : ∀ {xs ys : List TypeId} {ts : List Value}, (∀ child ∈ xs, child ∈ x.references) →
      (∀ other ∈ ys, other ∈ y.references) → xs.mapM build = .ok ts → ys.mapM others = .ok ts →
      List.Forall₂ r xs ys := by
    intro xs ys ts hxs hys hbuild hothers
    exact forall₂_of_mapM hbuild hothers fun child hc other ho =>
      hr child (hxs child hc) other (hys other ho)
  cases hx with
  | @primitive p _ hp =>
    have hkind := congrArg Value.kind hp
    rw [kind_ofPrimitive] at hkind
    cases hy with
    | @primitive q _ hq =>
      rw [← hq, kind_ofPrimitive] at hkind
      cases hkind
      exact .primitive p
    | struct | tuple | vector | array | enum => cases hkind
  | struct hx =>
    cases hy with
    | @primitive q _ hq => cases (kind_ofPrimitive q).symm.trans (congrArg Value.kind hq)
    | struct hy => exact .struct (hfields (fun _ => id) (fun _ => id) hx hy)
  | tuple hx =>
    cases hy with
    | @primitive q _ hq => cases (kind_ofPrimitive q).symm.trans (congrArg Value.kind hq)
    | tuple hy => exact .tuple (hfields (fun _ => id) (fun _ => id) hx hy)
  | vector hx =>
    cases hy with
    | @primitive q _ hq => cases (kind_ofPrimitive q).symm.trans (congrArg Value.kind hq)
    | vector hy =>
      exact .vector (hr _ (List.mem_singleton_self _) _ (List.mem_singleton_self _) _ hx hy)
  | array hx =>
    cases hy with
    | @primitive q _ hq => cases (kind_ofPrimitive q).symm.trans (congrArg Value.kind hq)
    | array hy =>
      exact .array (hr _ (List.mem_singleton_self _) _ (List.mem_singleton_self _) _ hx hy)
  | @enum xss tss hx =>
    cases hy with
    | @primitive q _ hq => cases (kind_ofPrimitive q).symm.trans (congrArg Value.kind hq)
    | @enum yss _ hy =>
      refine .enum (forall₂_of_mapM hx hy fun xs hxs ys hys ts => ?_)
      exact hfields (fun child hc => List.mem_flatten.mpr ⟨xs, hxs, hc⟩)
        (fun other ho => List.mem_flatten.mpr ⟨ys, hys, ho⟩)

theorem alike_of_templateAt {other : Nat} (ha : i.templateAt l depth a = .ok t)
    (hb : i.templateAt m other b = .ok t) : i.Alike a b := by
  induction a using i.types_induction generalizing b depth other t with
  | _ a ih =>
    obtain ⟨_, first, hfirst, ha⟩ := templateAt_eq_ok.mp ha
    obtain ⟨_, second, hsecond, hb⟩ := templateAt_eq_ok.mp hb
    refine .intro hfirst hsecond ?_
    have hx := layer_of_templateOf (fun _ _ _ => templateAt_plain) ha
    have hy := layer_of_templateOf (fun _ _ _ => templateAt_plain) hb
    exact alike_of_layers (fun child hc _ _ _ hv hw => ih first hfirst child hc hv hw) hx hy

/-- Blanks of types are of one shape just when the types are of one structure. -/
theorem sameShape_iff_alike (ha : i.templateAt l depth a = .ok t)
    (hb : i.templateAt l depth b = .ok u) : t.sameShape u = true ↔ i.Alike a b := by
  obtain ⟨htsound, htblank⟩ := templateAt_plain ha
  obtain ⟨husound, hublank⟩ := templateAt_plain hb
  rw [htsound.sameShape_iff husound, htblank, hublank]
  constructor
  · intro heq
    exact alike_of_templateAt ha (heq ▸ hb)
  · intro halike
    exact Except.ok.inj ((ha.symm.trans (templateAt_eq_of_alike halike)).trans hb)

/-- A value has the shape that a type gives its values. -/
def Shaped (i : Interface) (id : TypeId) (v : Value) : Prop :=
  ∃ t, i.template .unbounded id = .ok t ∧ v.sameShape t = true

theorem Shaped.alike {v : Value} (hv : Value.Sound v) (ha : i.Shaped a v) (hb : i.Shaped b v) :
    i.Alike a b := by
  obtain ⟨t, ht, hvt⟩ := ha
  obtain ⟨u, hu, hvu⟩ := hb
  obtain ⟨htsound, htblank⟩ := templateAt_plain ht
  obtain ⟨husound, hublank⟩ := templateAt_plain hu
  have hvt := (hv.sameShape_iff htsound).mp hvt
  have hvu := (hv.sameShape_iff husound).mp hvu
  have heq : t = u := htblank.symm.trans (hvt.symm.trans (hvu.trans hublank))
  exact alike_of_templateAt ht (heq ▸ hu)

end Interface

namespace Codec

variable {c : Codec} {ids declared : List TypeId} {values : List Value}

theorem Typed.shaped (h : c.Typed ids values) : List.Forall₂ c.interface.Shaped ids values :=
  h.imp fun id _ ⟨t, ht, hshape⟩ =>
    ⟨t, (Interface.templateAt_narrows_unbounded c.interface c.limits 0 id).of_ok ht, hshape⟩

theorem encodeValues_eq_of_alike (h : List.Forall₂ c.interface.Alike declared ids) :
    c.encodeValues declared values = c.encodeValues ids values := by
  have htyped : ∀ vs, c.encodeTyped declared vs = c.encodeTyped ids vs := by
    induction h with
    | nil => exact fun _ => rfl
    | cons halike _ ih =>
      intro vs
      cases vs with
      | nil => rfl
      | cons v vs =>
        have htemplate : c.interface.template c.limits _ = c.interface.template c.limits _ :=
          Interface.templateAt_eq_of_alike halike
        rw [encodeTyped, encodeTyped, ih vs, htemplate]
  rw [encodeValues, encodeValues, h.length_eq, htyped]

theorem alike_of_encodeValues {bytes : Bytes} (hv : ∀ v ∈ values, Value.Sound v)
    (hs : List.Forall₂ c.interface.Shaped declared values)
    (h : c.encodeValues ids values = .ok bytes) :
    List.Forall₂ c.interface.Alike declared ids := by
  have htyped := (encodeValues_eq_ok.mp h).1.shaped
  clear h
  induction hs generalizing ids with
  | nil =>
    cases htyped
    exact .nil
  | cons hshaped _ ih =>
    cases htyped with
    | cons hother htyped =>
      obtain ⟨hsound, hvs⟩ := List.forall_mem_cons.mp hv
      exact .cons (hshaped.alike hsound hother) (ih hvs htyped)

end Codec

namespace Interface

variable {types : List TypeDecl} {methods : List Method} {contract : Option Contract}

/-- The blanks of two types are of one shape just when the types unfold to the same structure. So
values of some types are encoded as values of other types only where each two types are of one
structure, and there either types make no difference. -/
theorem template_sameShape_iff_alike (h : ofParts types methods contract = .ok i) :
    (∀ a b, a < types.length → b < types.length →
      ∃ t u, i.template .unbounded a = .ok t ∧ i.template .unbounded b = .ok u ∧
        (t.sameShape u = true ↔ i.Alike a b)) ∧
    ∀ c : Codec, c.interface = i → ∀ declared ids values,
      (∀ bytes, (∀ v ∈ values, Value.Built v) → List.Forall₂ i.Shaped declared values →
        c.encodeValues ids values = .ok bytes → List.Forall₂ i.Alike declared ids) ∧
      (List.Forall₂ i.Alike declared ids →
        c.encodeValues declared values = c.encodeValues ids values) := by
  constructor
  · intro a b ha hb
    obtain ⟨t, ht⟩ := exists_template_unbounded h ha 0
    obtain ⟨u, hu⟩ := exists_template_unbounded h hb 0
    exact ⟨t, u, ht, hu, sameShape_iff_alike ht hu⟩
  · intro c hc declared ids values
    subst hc
    refine ⟨fun bytes hbuilt hshaped henc => ?_, Codec.encodeValues_eq_of_alike⟩
    exact Codec.alike_of_encodeValues (fun v hv => (hbuilt v hv).sound) hshaped henc

/-- Flags in structs and in tuples, some of them declared twice. -/
def twinTypes : List TypeDecl :=
  [⟨0, .primitive .bool⟩, ⟨1, .primitive .bool⟩, ⟨2, .struct [0]⟩, ⟨3, .struct [1]⟩,
    ⟨4, .tuple [0]⟩, ⟨5, .vector 2⟩, ⟨6, .vector 3⟩, ⟨7, .array 2 0⟩, ⟨8, .array 4 0⟩]

def twinMarks : Array Mark :=
  #[.done 1, .done 1, .done 2, .done 2, .done 2, .done 3, .done 3, .done 3, .done 3]

theorem survey_twinTypes : Walk.survey twinTypes.toArray = .ok twinMarks := by cbv

def twinInterface : Interface :=
  ⟨none, twinTypes.toArray, [], none, Walk.wellFounded_of_survey survey_twinTypes⟩

theorem ofParts_twin : ofParts twinTypes [] none = .ok twinInterface := by
  have horder : inOrder twinTypes = twinTypes := by cbv
  exact ofParts_of_survey horder rfl rfl survey_twinTypes rfl rfl

/-- One struct that holds a set flag. -/
def twinRow : Value := .vector (.struct [.bool false]) [.struct [.bool true]]

theorem built_twinRow : Value.Built twinRow := by
  have hblank : Value.Built (.struct [.bool false]) := .struct (by simp [Value.Built.bool])
  have hset : Value.Built (.struct [.bool true]) := .struct (by simp [Value.Built.bool])
  exact (Value.Built.newVector hblank).push hset rfl

/-- Vectors of structs that are declared twice are of one structure; arrays of structs and of tuples
are not, even if they hold none. -/
theorem template_sameShape_iff_alike_twin : ofParts twinTypes [] none = .ok twinInterface ∧
    twinInterface.Alike 5 6 ∧ ¬ twinInterface.Alike 7 8 := by
  obtain ⟨hiff, hcodec⟩ := template_sameShape_iff_alike ofParts_twin
  refine ⟨ofParts_twin, ?_, ?_⟩
  · obtain ⟨honly, _⟩ := hcodec (Codec.ofInterface twinInterface) rfl [5] [6] [twinRow]
    have hbuilt : ∀ v ∈ [twinRow], Value.Built v := List.forall_mem_singleton.mpr built_twinRow
    have htemplate : twinInterface.template .unbounded 5 = .ok twinRow.blank := by cbv
    have hencode : (Codec.ofInterface twinInterface).encodeValues [6] [twinRow] = .ok [4, 1] := by
      cbv
    have hshaped : twinInterface.Shaped 5 twinRow := ⟨_, htemplate, twinRow.sameShape_blank⟩
    exact (List.forall₂_cons.mp (honly [4, 1] hbuilt (.cons hshaped .nil) hencode)).1
  · obtain ⟨t, u, ht, hu, hshape⟩ := hiff 7 8 (by decide) (by decide)
    have hstruct : twinInterface.template .unbounded 7 =
        .ok (.array (.struct [.bool false]) 0 []) := by cbv
    have htuple : twinInterface.template .unbounded 8 =
        .ok (.array (.tuple [.bool false]) 0 []) := by cbv
    cases ht.symm.trans hstruct
    cases hu.symm.trans htuple
    rw [← hshape]
    decide

end Interface

end CallWire
