import CallWire.Proofs.CodecFraming
import CallWire.Proofs.ScanNarrows

namespace CallWire

namespace Interface

variable {i : Interface} {l m : Limits} {depth : Nat} {id : TypeId} {d : Datum}

theorem templateAt_within (h : l.Within m) :
    Narrows Fault.IsLimit (i.templateAt l depth id) (i.templateAt m depth id) :=
  templateAt_narrows h.checkDepth h.checkCollection

theorem fieldValues_within {items : List Datum}
    (hd : ∀ d ∈ items, ∀ id,
      Narrows Fault.IsLimit (i.valueAt l depth id d) (i.valueAt m depth id d))
    (fields : List TypeId) : Narrows Fault.IsLimit (fieldValues i l depth fields items)
      (fieldValues i m depth fields items) := by
  induction items generalizing fields with
  | nil =>
    rw [fieldValues, fieldValues]
    exact .refl _
  | cons d ds ih =>
    obtain ⟨hhead, htail⟩ := List.forall_mem_cons.mp hd
    cases fields with
    | nil =>
      rw [fieldValues, fieldValues]
      exact .refl _
    | cons field fields =>
      rw [fieldValues, fieldValues]
      exact (hhead field).bind fun v => (ih htail fields).bind fun vs => .refl _

theorem itemValues_within {element : TypeId} {items : List Datum}
    (hd : ∀ d ∈ items,
      Narrows Fault.IsLimit (i.valueAt l depth element d) (i.valueAt m depth element d)) :
    Narrows Fault.IsLimit (itemValues i l depth element items)
      (itemValues i m depth element items) := by
  induction items with
  | nil =>
    rw [itemValues, itemValues]
    exact .refl _
  | cons d ds ih =>
    obtain ⟨hhead, htail⟩ := List.forall_mem_cons.mp hd
    rw [itemValues, itemValues]
    exact hhead.bind fun v => (ih htail).bind fun vs => .refl _

theorem valueAt_within_of_items (h : l.Within m)
    (hd : ∀ items, d = .list items → ∀ x ∈ items, ∀ depth id,
      Narrows Fault.IsLimit (i.valueAt l depth id x) (i.valueAt m depth id x)) :
    Narrows Fault.IsLimit (i.valueAt l depth id d) (i.valueAt m depth id d) := by
  rw [valueAt, valueAt]
  refine (h.checkDepth depth).bind fun _ => (Narrows.refl _).bind fun decl => ?_
  obtain ⟨_, layout⟩ := decl
  cases layout with
  | primitive p => exact .refl _
  | struct fields =>
    cases d with
    | list items =>
      refine (Narrows.refl _).bind fun _ => ?_
      exact (fieldValues_within (fun x hm => hd items rfl x hm _) fields).bind fun _ => .refl _
    | _ => exact .refl _
  | tuple fields =>
    cases d with
    | list items =>
      refine (Narrows.refl _).bind fun _ => ?_
      exact (fieldValues_within (fun x hm => hd items rfl x hm _) fields).bind fun _ => .refl _
    | _ => exact .refl _
  | vector element =>
    cases d with
    | list items =>
      refine (templateAt_within h).bind fun _ => ?_
      exact (itemValues_within fun x hm => hd items rfl x hm _ _).bind fun _ => .refl _
    | _ => exact .refl _
  | array element length =>
    cases d with
    | list items =>
      refine (Narrows.refl _).bind fun _ => (templateAt_within h).bind fun _ => ?_
      exact (itemValues_within fun x hm => hd items rfl x hm _ _).bind fun _ => .refl _
    | _ => exact .refl _
  | enum variants =>
    cases d with
    | list items =>
      cases items with
      | nil => exact .refl _
      | cons first items =>
        refine (Narrows.refl _).bind fun tag => ?_
        cases variants[tag]? with
        | none => exact .refl _
        | some fields =>
          refine (Narrows.refl _).bind fun _ => ?_
          refine (fieldValues_within (fun x hm => hd _ rfl x (List.mem_cons_of_mem _ hm) _)
            fields).bind fun _ => ?_
          exact (templateAt_within h).bind fun _ => .refl _
    | _ => exact .refl _

theorem valueAt_within (h : l.Within m) (depth : Nat) (id : TypeId) (d : Datum) :
    Narrows Fault.IsLimit (i.valueAt l depth id d) (i.valueAt m depth id d) := by
  induction d using Datum.items_induction generalizing depth id with
  | bool | text | natural | integer =>
    refine valueAt_within_of_items h ?_
    intro _ he
    cases he
  | list items ih =>
    refine valueAt_within_of_items h ?_
    intro others he x hm depth id
    cases he
    exact ih x hm depth id

end Interface

namespace Codec

variable {α β : Type} {l m : Limits}

/-- The same codec under other limits. -/
def under (c : Codec) (l : Limits) : Codec :=
  ⟨c.interface, { c.settings with limits := l }, c.fits⟩

theorem encodeEach_within (c : Codec) (h : l.Within m) (ids : List TypeId) (args : List Datum) :
    Narrows Fault.IsLimit ((c.under l).encodeEach ids args) ((c.under m).encodeEach ids args) := by
  induction ids generalizing args with
  | nil => exact .refl _
  | cons id ids ih =>
    cases args with
    | nil => exact .refl _
    | cons d ds =>
      rw [encodeEach, encodeEach]
      refine (Interface.valueAt_within h 0 id d).bind fun v => (Narrows.refl _).bind fun head => ?_
      exact (ih ds).bind fun _ => .refl _

theorem encodeArguments_within (c : Codec) (h : l.Within m) (method : Method) (args : List Datum) :
    Narrows Fault.IsLimit ((c.under l).encodeArguments method args)
      ((c.under m).encodeArguments method args) :=
  (Narrows.refl _).bind fun _ => encodeEach_within c h method.inputs args

theorem constructorSection_within (c : Codec) (h : l.Within m) (args : List Datum) :
    Narrows Fault.IsLimit ((c.under l).constructorSection args)
      ((c.under m).constructorSection args) :=
  (Narrows.refl _).bind fun method => (encodeArguments_within c h method args).bind fun _ =>
    .refl _

theorem encodeTyped_narrows {bad : Fault → Prop} (c : Codec) {ids : List TypeId}
    (h : ∀ id ∈ ids,
      Narrows bad (c.interface.templateAt l 0 id) (c.interface.templateAt m 0 id))
    (values : List Value) :
    Narrows bad ((c.under l).encodeTyped ids values) ((c.under m).encodeTyped ids values) := by
  induction ids generalizing values with
  | nil => exact .refl _
  | cons id ids ih =>
    obtain ⟨hhead, htail⟩ := List.forall_mem_cons.mp h
    cases values with
    | nil => exact .refl _
    | cons v vs =>
      rw [encodeTyped, encodeTyped]
      refine hhead.bind fun t => (Narrows.refl _).bind fun _ => ?_
      exact (Narrows.refl _).bind fun head => (ih htail vs).bind fun _ => .refl _

theorem scanType_narrows (c : Codec) (h : l.Within m) (id : TypeId) :
    ((c.under l).scanType id).Narrows l m ((c.under m).scanType id) :=
  (Scan.Narrows.ofExcept (Interface.templateAt_within h)).bind fun t =>
    (Value.scan_assembled t).narrows h

theorem scanTypes_narrows (c : Codec) (h : l.Within m) (ids : List TypeId) :
    ((c.under l).scanTypes ids).Narrows l m ((c.under m).scanTypes ids) := by
  induction ids with
  | nil => exact .pure []
  | cons id ids ih =>
    rw [scanTypes, scanTypes]
    exact (scanType_narrows c h id).bind fun v => ih.bind fun vs => .pure (v :: vs)

theorem scanWhole_narrows (c : Codec) (h : l.Within m) (ids : List TypeId) :
    ((c.under l).scanWhole ids).Narrows l m ((c.under m).scanWhole ids) := by
  refine (scanTypes_narrows c h ids).bind fun values => ?_
  change Scan.Narrows l m (if (!c.settings.allowTrailing) = true then _ else _)
    (if (!c.settings.allowTrailing) = true then _ else _)
  split
  · exact Scan.finish_narrows.bind fun _ => .pure values
  · exact .pure values

/-- Two runs of which one narrows the other go on alike when what follows does not look at the
limits that they leave. -/
theorem run_narrows (c : Codec) (h : l.Within m) {x y : Scan α} (hs : x.Narrows l m y)
    {f g : α × Cursor → Except Fault β}
    (hn : ∀ a cursor,
      Narrows Fault.IsLimit (f (a, cursor)) (g (a, cursor.under m cursor.expansion)))
    (bytes : Bytes) :
    Narrows Fault.IsLimit ((c.under l).run x bytes >>= f) ((c.under m).run y bytes >>= g) := by
  rcases h.checkFrame bytes.length with hsame | ⟨fault, hf, hlimit⟩
  · cases hm : m.checkFrame bytes.length with
    | ok u =>
      have hl := hsame.trans hm
      rcases hs (Cursor.start bytes l) rfl with
        ⟨a, cursor, hx, _, hy⟩ | ⟨fault, cursor, cursor', hx, hy⟩ | ⟨fault, cursor, hx, hlimit⟩
      · rw [run_of_ok (c := c.under l) hl hx, run_of_ok (c := c.under m) hm hy]
        exact hn a cursor
      · rw [run_of_error (c := c.under l) hl hx, run_of_error (c := c.under m) hm hy]
        exact .refl _
      · rw [run_of_error (c := c.under l) hl hx]
        exact .inr ⟨fault, rfl, hlimit⟩
    | error fault =>
      rw [run_of_overframe (c := c.under l) (hsame.trans hm), run_of_overframe (c := c.under m) hm]
      exact .refl _
  · rw [run_of_overframe (c := c.under l) hf]
    exact .inr ⟨fault, rfl, hlimit⟩

theorem decodeTypes_within (c : Codec) (h : l.Within m) (ids : List TypeId) (bytes : Bytes) :
    Narrows Fault.IsLimit ((c.under l).decodeTypes ids bytes)
      ((c.under m).decodeTypes ids bytes) :=
  run_narrows c h (scanWhole_narrows c h ids) (fun values _ => .refl (.ok values)) bytes

/-- What a codec may be asked to do. -/
inductive Request
  | encode (name : String) (args : List Datum)
  | encodeInvocation (name : String) (args : List Datum)
  | encodeConstructor (args : List Datum)
  | encodeDeployment (code : Bytes) (args : List Datum)
  | encodeValues (ids : List TypeId) (values : List Value)
  | decode (name : String) (bytes : Bytes)
  | decodeInputs (name : String) (bytes : Bytes)
  | decodeInvocation (bytes : Bytes)
  | decodeType (id : TypeId) (bytes : Bytes)

/-- What is given when the request is met. -/
def Request.Answer : Request → Type
  | encode .. | encodeInvocation .. | encodeConstructor .. | encodeDeployment .. => Bytes
  | encodeValues .. => Bytes
  | decode .. | decodeInputs .. => List Value
  | decodeInvocation .. => String × List Value
  | decodeType .. => Value × Nat

def answer (c : Codec) : (r : Request) → Except Fault r.Answer
  | .encode name args => c.encode name args
  | .encodeInvocation name args => c.encodeInvocation name args
  | .encodeConstructor args => c.encodeConstructor args
  | .encodeDeployment code args => c.encodeDeployment code args
  | .encodeValues ids values => c.encodeValues ids values
  | .decode name bytes => c.decode name bytes
  | .decodeInputs name bytes => c.decodeInputs name bytes
  | .decodeInvocation bytes => c.decodeInvocation bytes
  | .decodeType id bytes => c.decodeType id bytes

theorem answer_within (c : Codec) (h : l.Within m) (r : Request) :
    Narrows Fault.IsLimit ((c.under l).answer r) ((c.under m).answer r) := by
  cases r with
  | encode name args =>
    exact (Narrows.refl _).bind fun method => encodeArguments_within c h method args
  | encodeInvocation name args =>
    refine (Narrows.refl _).bind fun method => (Narrows.refl _).bind fun head => ?_
    exact (encodeArguments_within c h method args).bind fun _ => .refl _
  | encodeConstructor args =>
    exact (constructorSection_within c h args).bind fun _ => .refl _
  | encodeDeployment code args =>
    exact (constructorSection_within c h args).bind fun _ => .refl _
  | encodeValues ids values =>
    refine (Narrows.refl _).bind fun _ => ?_
    exact encodeTyped_narrows c (fun id _ => Interface.templateAt_within h) values
  | decode name bytes =>
    exact (Narrows.refl _).bind fun method => decodeTypes_within c h method.outputs bytes
  | decodeInputs name bytes =>
    exact (Narrows.refl _).bind fun method => decodeTypes_within c h method.inputs bytes
  | decodeInvocation bytes =>
    refine run_narrows c h (Scan.text_assembled.narrows h) (fun name cursor => ?_) bytes
    refine (Narrows.refl _).bind fun method => ?_
    exact (decodeTypes_within c h method.inputs cursor.rest).bind fun _ => .refl _
  | decodeType id bytes =>
    exact run_narrows c h (scanType_narrows c h id) (fun value cursor => .refl _) bytes

/-- A codec under stricter limits answers every request as one under laxer limits does, or
refuses it over a limit; so what it accepts the laxer one accepts with the same answer. -/
theorem answer_of_stricter (c : Codec) (h : l.Within m) (r : Request) :
    ((c.under l).answer r = (c.under m).answer r ∨
      ∃ bound value max, (c.under l).answer r = .error (.limitExceeded bound value max)) ∧
    ∀ a, (c.under l).answer r = .ok a → (c.under m).answer r = .ok a := by
  have hnarrows := answer_within c h r
  refine ⟨?_, fun a => hnarrows.of_ok⟩
  rcases hnarrows with hsame | ⟨_, hf, bound, value, max, rfl⟩
  · exact .inl hsame
  · exact .inr ⟨bound, value, max, hf⟩

theorem answer_of_stricter_load :
    (loadCodec.under {}).answer (.decode "load" [8, 0, 1, 1, 0]) = .ok loadedValues := by
  have hwithin : Limits.Within { collection := some 2, expansion := some 4 } {} := by
    refine ⟨?_, ?_, ?_, ?_⟩ <;> simp
  have hstrict := (answer_of_stricter loadCodec hwithin (.decode "load" [8, 0, 1, 1, 0])).2
  exact hstrict loadedValues (by cbv)

end Codec

end CallWire
