import CallWire.Argument
import CallWire.Proofs.TemplateShape
import CallWire.Proofs.WordWire

namespace CallWire

/-- What holds of plain data whenever it holds of the items of a list, holds of all. -/
@[elab_as_elim]
theorem Datum.items_induction {motive : Datum → Prop} (bool : ∀ b, motive (.bool b))
    (text : ∀ s, motive (.text s)) (natural : ∀ n, motive (.natural n))
    (integer : ∀ n, motive (.integer n))
    (list : ∀ items, (∀ d ∈ items, motive d) → motive (.list items)) (d : Datum) : motive d := by
  refine @Datum.rec motive (fun ds => ∀ d ∈ ds, motive d) bool text natural integer list ?_ ?_ d
  · simp
  · exact fun d ds hd hds => List.forall_mem_cons.mpr ⟨hd, hds⟩

theorem Word.ofNat_eq_ok {width : Width} {n : Nat} {w : Word} : ofNat width n = .ok w ↔
    w.width = width ∧ w.signed = false ∧ w.val = n := by
  unfold ofNat
  split
  next h =>
    rw [Except.ok.injEq]
    constructor
    · intro he
      cases he
      exact ⟨rfl, rfl, rfl⟩
    · intro hw
      exact Word.ext_val hw.1.symm hw.2.1.symm hw.2.2.symm
  next h =>
    constructor
    · intro he
      cases he
    · intro hw
      obtain ⟨hwidth, hsigned, hval⟩ := hw
      have hle := w.le_greatest
      rw [hval, hwidth, hsigned] at hle
      exact absurd (by simpa [Width.greatest] using hle) h

theorem Word.ofInt_eq_ok {width : Width} {n : Int} {w : Word} : ofInt width n = .ok w ↔
    w.width = width ∧ w.signed = true ∧ w.val = n := by
  unfold ofInt
  split
  next h =>
    rw [Except.ok.injEq]
    constructor
    · intro he
      cases he
      exact ⟨rfl, rfl, rfl⟩
    · intro hw
      exact Word.ext_val hw.1.symm hw.2.1.symm hw.2.2.symm
  next h =>
    constructor
    · intro he
      cases he
    · intro hw
      obtain ⟨hwidth, hsigned, hval⟩ := hw
      have hge := w.least_le
      have hle := w.le_greatest
      rw [hval, hwidth, hsigned] at hge hle
      exact absurd ⟨hge, hle⟩ h

theorem Varint.ofNat_eq_ok {width : Width} {n : Nat} {m : Varint} : ofNat width n = .ok m ↔
    m.width = width ∧ m.val = n := by
  unfold ofNat
  split
  next h =>
    rw [Except.ok.injEq]
    constructor
    · intro he
      cases he
      exact ⟨rfl, rfl⟩
    · intro hm
      obtain ⟨_, _, _⟩ := m
      obtain ⟨rfl, rfl⟩ := hm
      rfl
  next h =>
    constructor
    · intro he
      cases he
    · intro hm
      have hle := m.le_max
      rw [hm.1, hm.2] at hle
      exact absurd hle h

namespace Argument

theorem primitive_shape {p : Primitive} {d : Datum} {v : Value} (h : primitive p d = .ok v) :
    Value.Sound v ∧ v.blank = Value.ofPrimitive p := by
  cases p with
  | bool =>
    obtain ⟨b, _, rfl⟩ := map_eq_ok.mp h
    exact ⟨.bool b, rfl⟩
  | text =>
    obtain ⟨s, _, rfl⟩ := map_eq_ok.mp h
    exact ⟨.text s, rfl⟩
  | word width signed =>
    cases signed with
    | false =>
      obtain ⟨n, _, hrest⟩ := bind_eq_ok.mp h
      obtain ⟨w, hw, hpure⟩ := bind_eq_ok.mp hrest
      cases pure_eq_ok.mp hpure
      obtain ⟨hwidth, hsigned, _⟩ := Word.ofNat_eq_ok.mp hw
      exact ⟨.word w, by rw [Value.blank, hwidth, hsigned]; rfl⟩
    | true =>
      obtain ⟨n, _, hrest⟩ := bind_eq_ok.mp h
      obtain ⟨w, hw, hpure⟩ := bind_eq_ok.mp hrest
      cases pure_eq_ok.mp hpure
      obtain ⟨hwidth, hsigned, _⟩ := Word.ofInt_eq_ok.mp hw
      exact ⟨.word w, by rw [Value.blank, hwidth, hsigned]; rfl⟩
  | varint width =>
    obtain ⟨n, _, hrest⟩ := bind_eq_ok.mp h
    obtain ⟨m, hm, hpure⟩ := bind_eq_ok.mp hrest
    cases pure_eq_ok.mp hpure
    obtain ⟨hwidth, _⟩ := Varint.ofNat_eq_ok.mp hm
    exact ⟨.varint m, by rw [Value.blank, hwidth]; rfl⟩

theorem checkArity_eq_ok {what : Counted} {expected found : Nat} {u : Unit} :
    checkArity what expected found = .ok u ↔ found = expected := by
  unfold checkArity
  split
  next h => simp [h]
  next h => simp [h]

end Argument

namespace Interface

variable {i : Interface} {l : Limits} {depth : Nat} {id : TypeId} {d : Datum} {v : Value}

theorem fieldValues_cons_eq_ok {field : TypeId} {fields : List TypeId} {items : List Datum}
    {values : List Value} : fieldValues i l depth (field :: fields) (d :: items) = .ok values ↔
      ∃ v vs, i.valueAt l depth field d = .ok v ∧ fieldValues i l depth fields items = .ok vs ∧
        v :: vs = values := by
  rw [fieldValues]
  simp only [bind_eq_ok, pure_eq_ok, exists_and_left]

theorem itemValues_cons_eq_ok {element : TypeId} {items : List Datum} {values : List Value} :
    itemValues i l depth element (d :: items) = .ok values ↔
      ∃ v vs, i.valueAt l depth element d = .ok v ∧
        itemValues i l depth element items = .ok vs ∧ v :: vs = values := by
  rw [itemValues]
  simp only [bind_eq_ok, pure_eq_ok, exists_and_left]

/-- What the value of a layout is made of when plain data stands for it. -/
inductive Stands (i : Interface) (l : Limits) (depth : Nat) (id : TypeId) :
    Layout → Datum → Value → Prop
  | primitive {p : Primitive} {d : Datum} {v : Value} (h : Argument.primitive p d = .ok v) :
      Stands i l depth id (.primitive p) d v
  | struct {fields : List TypeId} {items : List Datum} {vs : List Value}
      (length : items.length = fields.length)
      (values : fieldValues i l (depth + 1) fields items = .ok vs) :
      Stands i l depth id (.struct fields) (.list items) (.struct vs)
  | tuple {fields : List TypeId} {items : List Datum} {vs : List Value}
      (length : items.length = fields.length)
      (values : fieldValues i l (depth + 1) fields items = .ok vs) :
      Stands i l depth id (.tuple fields) (.list items) (.tuple vs)
  | vector {element : TypeId} {items : List Datum} {t v : Value} {vs : List Value}
      (template : i.templateAt l (depth + 1) element = .ok t)
      (values : itemValues i l (depth + 1) element items = .ok vs)
      (built : Value.vectorOf t vs = .ok v) : Stands i l depth id (.vector element) (.list items) v
  | array {element : TypeId} {n : Nat} {items : List Datum} {t v : Value} {vs : List Value}
      (length : items.length = n) (template : i.templateAt l (depth + 1) element = .ok t)
      (values : itemValues i l (depth + 1) element items = .ok vs)
      (built : Value.arrayOf t n vs = .ok v) :
      Stands i l depth id (.array element n) (.list items) v
  | enum {variants : List (List TypeId)} {fields : List TypeId} {first : Datum}
      {items : List Datum} {tag : Nat} {t v : Value} {payload : List Value}
      (natural : Argument.natural .w8 "u8" first = .ok tag)
      (variant : variants[tag]? = some fields) (length : items.length = fields.length)
      (values : fieldValues i l (depth + 1) fields items = .ok payload)
      (template : i.templateAt l depth id = .ok t)
      (built : t.select (UInt8.ofNat tag) payload = .ok v) :
      Stands i l depth id (.enum variants) (.list (first :: items)) v

theorem valueAt_eq_ok : i.valueAt l depth id d = .ok v ↔
    l.checkDepth depth = .ok () ∧ ∃ decl, i.resolve id = .ok decl ∧
      Stands i l depth id decl.layout d v := by
  rw [valueAt, bind_eq_ok]
  constructor
  · intro h
    obtain ⟨_, hdepth, hrun⟩ := h
    obtain ⟨decl, hd, h⟩ := bind_eq_ok.mp hrun
    refine ⟨hdepth, decl, hd, ?_⟩
    split at h
    next hl =>
      rw [hl]
      exact .primitive h
    next fields items hl =>
      obtain ⟨_, hn, h⟩ := bind_eq_ok.mp h
      obtain ⟨vs, hvs, h⟩ := bind_eq_ok.mp h
      cases pure_eq_ok.mp h
      rw [hl]
      exact .struct (Argument.checkArity_eq_ok.mp hn) hvs
    next => cases h
    next fields items hl =>
      obtain ⟨_, hn, h⟩ := bind_eq_ok.mp h
      obtain ⟨vs, hvs, h⟩ := bind_eq_ok.mp h
      cases pure_eq_ok.mp h
      rw [hl]
      exact .tuple (Argument.checkArity_eq_ok.mp hn) hvs
    next => cases h
    next element items hl =>
      obtain ⟨t, ht, h⟩ := bind_eq_ok.mp h
      obtain ⟨vs, hvs, h⟩ := bind_eq_ok.mp h
      rw [hl]
      exact .vector ht hvs h
    next => cases h
    next element n items hl =>
      obtain ⟨_, hn, h⟩ := bind_eq_ok.mp h
      obtain ⟨t, ht, h⟩ := bind_eq_ok.mp h
      obtain ⟨vs, hvs, h⟩ := bind_eq_ok.mp h
      rw [hl]
      exact .array (Argument.checkArity_eq_ok.mp hn) ht hvs h
    next => cases h
    next => cases h
    next variants first items hl =>
      obtain ⟨tag, htag, h⟩ := bind_eq_ok.mp h
      split at h
      next fields hf =>
        obtain ⟨_, hn, h⟩ := bind_eq_ok.mp h
        obtain ⟨payload, hp, h⟩ := bind_eq_ok.mp h
        obtain ⟨t, ht, h⟩ := bind_eq_ok.mp h
        rw [hl]
        exact .enum htag hf (Argument.checkArity_eq_ok.mp hn) hp ht h
      next => cases h
    next => cases h
  · intro h
    obtain ⟨hdepth, decl, hd, h⟩ := h
    refine ⟨(), hdepth, bind_eq_ok.mpr ⟨decl, hd, ?_⟩⟩
    obtain ⟨_, layout⟩ := decl
    cases h with
    | primitive h => exact h
    | struct hn hvs | tuple hn hvs =>
      refine bind_eq_ok.mpr ⟨(), Argument.checkArity_eq_ok.mpr hn, ?_⟩
      exact bind_eq_ok.mpr ⟨_, hvs, rfl⟩
    | vector ht hvs hb =>
      exact bind_eq_ok.mpr ⟨_, ht, bind_eq_ok.mpr ⟨_, hvs, hb⟩⟩
    | array hn ht hvs hb =>
      refine bind_eq_ok.mpr ⟨(), Argument.checkArity_eq_ok.mpr hn, ?_⟩
      exact bind_eq_ok.mpr ⟨_, ht, bind_eq_ok.mpr ⟨_, hvs, hb⟩⟩
    | enum htag hf hn hp ht hb =>
      refine bind_eq_ok.mpr ⟨_, htag, ?_⟩
      simp only [hf]
      refine bind_eq_ok.mpr ⟨(), Argument.checkArity_eq_ok.mpr hn, ?_⟩
      exact bind_eq_ok.mpr ⟨_, hp, bind_eq_ok.mpr ⟨_, ht, hb⟩⟩

end Interface

end CallWire
