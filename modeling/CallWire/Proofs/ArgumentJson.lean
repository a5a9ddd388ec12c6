import CallWire.Proofs.ArgumentDatum
import CallWire.Proofs.DatumJson

namespace CallWire

namespace Argument

variable {width : Width} {target : String} {d : Datum}

theorem unsignedMax_le_maxNatural (width : Width) : width.unsignedMax ≤ maxNatural := by
  cases width <;> decide

theorem signed_bounds (width : Width) :
    -(maxInteger : Int) - 1 ≤ width.signedMin ∧ width.signedMax ≤ maxInteger := by
  cases width <;> decide

theorem toString_toNat {n : Int} (h : 0 ≤ n) : toString n.toNat = toString n := by
  rw [Int.toString_eq_repr, Int.repr_eq_if, if_pos h, Nat.toString_eq_repr]

theorem toString_natCast (n : Nat) : toString (n : Int) = toString n := by
  rw [← toString_toNat (Int.natCast_nonneg n), Int.toNat_natCast]

theorem natural_eq_ok {n : Nat} : natural width target d = .ok n ↔
    naturalOf width target d = .ok n ∧ n ≤ width.unsignedMax := by
  unfold natural
  rw [bind_eq_ok]
  constructor
  · intro h
    obtain ⟨m, hm, hpure⟩ := h
    split at hpure
    next hle =>
      cases pure_eq_ok.mp hpure
      exact ⟨hm, hle⟩
    next => cases hpure
  · intro h
    exact ⟨n, h.1, if_pos h.2⟩

theorem naturalOf_reread {n : Nat} (hn : n ≤ maxNatural) (h : naturalOf width target d = .ok n) :
    naturalOf width target d.reread = .ok n := by
  cases d with
  | bool | list => cases h
  | text s => exact h
  | natural m =>
    cases h
    rw [Datum.reread, Datum.rereadNatural]
    split
    next => rfl
    next => exact naturalText_toString width target hn
  | integer m =>
    rw [naturalOf] at h
    split at h
    next hm =>
      cases h
      rw [Datum.reread, Datum.rereadInteger, if_neg (Int.not_lt.mpr hm), ← toString_toNat hm]
      split
      next => rfl
      next => exact naturalText_toString width target hn
    next => cases h

theorem natural_reread {n : Nat} (h : natural width target d = .ok n) :
    natural width target d.reread = .ok n := by
  obtain ⟨hn, hle⟩ := natural_eq_ok.mp h
  have hmax := Nat.le_trans hle (unsignedMax_le_maxNatural width)
  exact natural_eq_ok.mpr ⟨naturalOf_reread hmax hn, hle⟩

theorem integer_toString {n : Int} (hlo : -(maxInteger : Int) - 1 ≤ n) (hhi : n ≤ maxInteger) :
    integer width target (.text (toString n)) = .ok n := by
  have hsigned : Numeral.signed maxInteger (Blank.trim (toString n).toList) = .ok n := by
    rw [trim_toString, Numeral.signed_toString hlo hhi]
  simp only [integer, hsigned]

theorem integer_natural {m : Nat} (h : m ≤ maxInteger) :
    integer width target (.natural m) = .ok (m : Int) := if_pos h

theorem eq_of_integer_natural {m : Nat} {n : Int} (h : integer width target (.natural m) = .ok n) :
    n = m := by
  rw [integer] at h
  split at h
  next => exact (Except.ok.inj h).symm
  next => cases h

theorem integer_reread {n : Int} (hlo : -(maxInteger : Int) - 1 ≤ n) (hhi : n ≤ maxInteger)
    (h : integer width target d = .ok n) : integer width target d.reread = .ok n := by
  cases d with
  | bool | list => cases h
  | text s => exact h
  | natural m =>
    rw [Datum.reread, Datum.rereadNatural]
    split
    next => exact h
    next =>
      obtain rfl := eq_of_integer_natural h
      rw [← toString_natCast]
      exact integer_toString hlo hhi
  | integer m =>
    cases h
    rw [Datum.reread, Datum.rereadInteger]
    split
    next =>
      split
      next => rfl
      next => exact integer_toString hlo hhi
    next hn =>
      split
      next =>
        have hnat : (n.toNat : Int) = n := Int.toNat_of_nonneg (Int.not_lt.mp hn)
        rw [integer_natural (by omega), hnat]
      next => exact integer_toString hlo hhi

theorem text_reread {s : String} (h : text d = .ok s) : text d.reread = .ok s := by
  cases d with
  | bool | list => cases h
  | text s => exact h
  | natural n =>
    cases h
    rw [Datum.reread, Datum.rereadNatural]
    split
    next => rfl
    next => rfl
  | integer n =>
    cases h
    rw [Datum.reread, Datum.rereadInteger]
    split
    next =>
      split
      next => rfl
      next => rfl
    next hn =>
      split
      next => exact congrArg Except.ok (toString_toNat (Int.not_lt.mp hn))
      next => rfl

theorem bool_reread {b : Bool} (h : bool d = .ok b) : bool d.reread = .ok b := by
  cases d with
  | bool | text => exact h
  | natural | integer | list => cases h

theorem primitive_reread {p : Primitive} {v : Value} (h : primitive p d = .ok v) :
    primitive p d.reread = .ok v := by
  cases p with
  | bool =>
    obtain ⟨b, hb, rfl⟩ := map_eq_ok.mp h
    exact map_eq_ok.mpr ⟨b, bool_reread hb, rfl⟩
  | text =>
    obtain ⟨s, hs, rfl⟩ := map_eq_ok.mp h
    exact map_eq_ok.mpr ⟨s, text_reread hs, rfl⟩
  | word width signed =>
    cases signed with
    | false =>
      obtain ⟨n, hn, hrest⟩ := bind_eq_ok.mp h
      exact bind_eq_ok.mpr ⟨n, natural_reread hn, hrest⟩
    | true =>
      obtain ⟨n, hn, hrest⟩ := bind_eq_ok.mp h
      obtain ⟨w, hw, hpure⟩ := bind_eq_ok.mp hrest
      obtain ⟨hwidth, hsigned, rfl⟩ := Word.ofInt_eq_ok.mp hw
      obtain ⟨hmin, hmax⟩ := signed_bounds w.width
      have hleast : w.width.signedMin ≤ w.val := by simpa [Width.least, hsigned] using w.least_le
      have hgreatest : w.val ≤ w.width.signedMax := by
        simpa [Width.greatest, hsigned] using w.le_greatest
      have hlo : -(maxInteger : Int) - 1 ≤ w.val := Int.le_trans hmin hleast
      have hhi : w.val ≤ maxInteger := Int.le_trans hgreatest hmax
      exact bind_eq_ok.mpr ⟨w.val, integer_reread hlo hhi hn, hrest⟩
  | varint width =>
    obtain ⟨n, hn, hrest⟩ := bind_eq_ok.mp h
    exact bind_eq_ok.mpr ⟨n, natural_reread hn, hrest⟩

end Argument

namespace Interface

variable {i : Interface} {l : Limits} {depth : Nat} {id : TypeId} {d : Datum} {v : Value}

theorem length_rereadItems (items : List Datum) :
    (Datum.rereadItems items).length = items.length := by
  rw [Datum.rereadItems_eq_map, List.length_map]

theorem fieldValues_reread {fields : List TypeId} {items : List Datum} {vs : List Value}
    (hd : ∀ d ∈ items, ∀ id v, i.valueAt l depth id d = .ok v →
      i.valueAt l depth id d.reread = .ok v)
    (h : fieldValues i l depth fields items = .ok vs) :
    fieldValues i l depth fields (Datum.rereadItems items) = .ok vs := by
  induction items generalizing fields vs with
  | nil => exact h
  | cons d ds ih =>
    obtain ⟨hhead, htail⟩ := List.forall_mem_cons.mp hd
    rw [Datum.rereadItems]
    cases fields with
    | nil =>
      rw [fieldValues] at h ⊢
      exact h
    | cons field fields =>
      obtain ⟨v, ws, hv, hws, rfl⟩ := fieldValues_cons_eq_ok.mp h
      exact fieldValues_cons_eq_ok.mpr ⟨v, ws, hhead field v hv, ih htail hws, rfl⟩

theorem itemValues_reread {element : TypeId} {items : List Datum} {vs : List Value}
    (hd : ∀ d ∈ items, ∀ id v, i.valueAt l depth id d = .ok v →
      i.valueAt l depth id d.reread = .ok v)
    (h : itemValues i l depth element items = .ok vs) :
    itemValues i l depth element (Datum.rereadItems items) = .ok vs := by
  induction items generalizing vs with
  | nil => exact h
  | cons d ds ih =>
    obtain ⟨hhead, htail⟩ := List.forall_mem_cons.mp hd
    obtain ⟨v, ws, hv, hws, rfl⟩ := itemValues_cons_eq_ok.mp h
    rw [Datum.rereadItems]
    exact itemValues_cons_eq_ok.mpr ⟨v, ws, hhead element v hv, ih htail hws, rfl⟩

theorem stands_reread {layout : Layout}
    (hd : ∀ items, d = .list items → ∀ x ∈ items, ∀ depth id v,
      i.valueAt l depth id x = .ok v → i.valueAt l depth id x.reread = .ok v)
    (h : Stands i l depth id layout d v) : Stands i l depth id layout d.reread v := by
  cases h with
  | primitive h => exact .primitive (Argument.primitive_reread h)
  | struct hn hvs | tuple hn hvs =>
    constructor
    · exact (length_rereadItems _).trans hn
    · exact fieldValues_reread (fun x hm => hd _ rfl x hm _) hvs
  | vector ht hvs hb =>
    exact .vector ht (itemValues_reread (fun x hm => hd _ rfl x hm _) hvs) hb
  | array hn ht hvs hb =>
    exact .array ((length_rereadItems _).trans hn) ht
      (itemValues_reread (fun x hm => hd _ rfl x hm _) hvs) hb
  | enum htag hf hn hp ht hb =>
    exact .enum (Argument.natural_reread htag) hf ((length_rereadItems _).trans hn)
      (fieldValues_reread (fun x hm => hd _ rfl x (List.mem_cons_of_mem _ hm) _) hp) ht hb

/-- The value that plain data stands for is also what its document stands for. -/
theorem valueAt_reread (h : i.valueAt l depth id d = .ok v) :
    i.valueAt l depth id d.reread = .ok v := by
  induction d using Datum.items_induction generalizing depth id v with
  | bool | text | natural | integer =>
    obtain ⟨hdepth, decl, hr, hstands⟩ := valueAt_eq_ok.mp h
    refine valueAt_eq_ok.mpr ⟨hdepth, decl, hr, stands_reread ?_ hstands⟩
    intro _ he
    cases he
  | list items ih =>
    obtain ⟨hdepth, decl, hr, hstands⟩ := valueAt_eq_ok.mp h
    refine valueAt_eq_ok.mpr ⟨hdepth, decl, hr, stands_reread ?_ hstands⟩
    intro others he x hm depth id v hv
    cases he
    exact ih x hm hv

/-- Sound values of the shape of a type stand for themselves once their types are taken away. -/
theorem valueAt_of_sameShape {t : Value} (ht : i.templateAt l depth id = .ok t)
    (hv : Value.Sound v) (hs : v.sameShape t = true) : i.valueAt l depth id v.datum = .ok v := by
  obtain ⟨hsound, hplain⟩ := templateAt_plain ht
  have hblank : v.blank = t := ((hv.sameShape_iff hsound).mp hs).trans hplain
  exact valueAt_datum (by rwa [hblank]) hv

/-- A value that a caller can hold: one that was built, or read at a type of some interface. -/
inductive Held : Value → Prop
  | built {v : Value} (built : Value.Built v) : Held v
  | read {source : Interface} {limits : Limits} {id : TypeId} {t v : Value} {c c' : Cursor}
      (template : source.template limits id = .ok t) (scan : t.scan c = .ok v c') : Held v

theorem Held.sound (h : Held v) : Value.Sound v := by
  cases h with
  | built hb => exact hb.sound
  | read ht hscan =>
    obtain ⟨_, ⟨hv, _⟩, _⟩ := Value.scan_spells (templateAt_plain ht).1 _ _ _ hscan
    exact hv

/-- Plain data loses nothing that the type does not say: a value of the shape of a type, whether
it was built or read, stands for itself there. -/
theorem value_of_datum {t : Value} (ht : i.template l id = .ok t) (hv : Held v)
    (hs : v.sameShape t = true) : i.value l id v.datum = .ok v :=
  valueAt_of_sameShape ht hv.sound hs

def recordTypes : TypeTable :=
  #[⟨0, .primitive (.word .w128 false)⟩, ⟨1, .primitive (.word .w128 true)⟩, ⟨2, .primitive .text⟩,
    ⟨3, .enum [[0], [2, 1]]⟩, ⟨4, .vector 3⟩, ⟨5, .struct [0, 4]⟩]

theorem survey_recordTypes : Walk.survey recordTypes =
    .ok #[.done 1, .done 1, .done 1, .done 5, .done 6, .done 8] := by cbv

/-- A number and a list of entries, each of them a number or a text with a signed number. -/
def recordInterface : Interface :=
  ⟨none, recordTypes, [], none, Walk.wellFounded_of_survey survey_recordTypes⟩

def blankEntry : Value :=
  .enum [[.word (Word.zero .w128 false)], [.text "", .word (Word.zero .w128 true)]] 0
    [.word (Word.zero .w128 false)]

def noteParts : List Value := [.text "17", .word ⟨.w128, true, -(2 ^ 100), by decide, by decide⟩]

def record : Value :=
  .struct [.word ⟨.w128, false, 2 ^ 100, by decide, by decide⟩,
    .vector blankEntry [.enum [[.word (Word.zero .w128 false)],
      [.text "", .word (Word.zero .w128 true)]] 1 noteParts]]

theorem template_record : recordInterface.template .unbounded 5 = .ok record.blank := by cbv

theorem built_record : Value.Built record := by
  have hnew : Value.newEnum [[.word (Word.zero .w128 false)],
      [.text "", .word (Word.zero .w128 true)]] = .ok blankEntry := rfl
  have hentry : Value.Built blankEntry := by
    refine .newEnum ?_ hnew
    simp [Value.Built.word, Value.Built.text]
  have hparts : ∀ p ∈ noteParts, Value.Built p := by
    simp [noteParts, Value.Built.word, Value.Built.text]
  have hchosen : blankEntry.select 1 noteParts = .ok (.enum [[.word (Word.zero .w128 false)],
      [.text "", .word (Word.zero .w128 true)]] 1 noteParts) := rfl
  have hvector := (Value.Built.newVector hentry).push (.select hentry hparts hchosen) rfl
  exact .struct (List.forall_mem_cons.mpr ⟨.word _, List.forall_mem_singleton.mpr hvector⟩)

theorem sameShape_record : record.sameShape record.blank = true := by decide

theorem value_of_datum_record : recordInterface.template .unbounded 5 = .ok record.blank ∧
    recordInterface.value .unbounded 5 record.datum = .ok record :=
  ⟨template_record, value_of_datum template_record (.built built_record) sameShape_record⟩

/-- Plain data is written the same at once, piece by piece and as a document, and a value of the
shape of a type stands for itself there once its document has been read. -/
theorem value_of_json :
    (∀ d : Datum, d.json.write = d.write ∧ d.serialize .toText = d.write ∧
      d.serialize .toDocument = d.json) ∧
    ∀ (i : Interface) (l : Limits) (id : TypeId) (t v : Value), i.template l id = .ok t →
      Held v → v.sameShape t = true →
        ∃ d, Datum.ofJson v.datum.json = .ok d ∧ i.value l id d = .ok v := by
  constructor
  · exact fun d => ⟨d.write_json, d.serialize_toText, d.serialize_toDocument⟩
  · intro i l id t v ht hv hs
    have hdatum : i.valueAt l 0 id v.datum = .ok v := valueAt_of_sameShape ht hv.sound hs
    exact ⟨v.datum.reread, Datum.ofJson_json _, valueAt_reread hdatum⟩

theorem value_of_json_record :
    ∃ d, Datum.ofJson record.datum.json = .ok d ∧ recordInterface.value .unbounded 5 d = .ok record :=
  value_of_json.2 recordInterface .unbounded 5 record.blank record template_record
    (.built built_record) sameShape_record

end Interface

end CallWire
