import CallWire.Proofs.ValueParts
import CallWire.Proofs.ValuePlain

namespace CallWire

/-- A value in its place, and the cursor that it is decoded from. -/
structure Place where
  value : Value
  cursor : Cursor

/-- An operation on a value in its place, which is written bit by bit. What has been written stays
when a later step fails. -/
abbrev InPlace := EStateM Fault Place

namespace InPlace

variable {α β : Type}

/-- Reads from the cursor and leaves the value alone. -/
def read (step : Scan α) : InPlace α := fun p =>
  match step p.cursor with
  | .ok a c => .ok a ⟨p.value, c⟩
  | .error f c => .error f ⟨p.value, c⟩

def require (e : Except Fault α) : InPlace α := read (Scan.ofExcept e)

def write (v : Value) : InPlace Unit := modify fun p => ⟨v, p.cursor⟩

def push (item : Value) : InPlace Unit := do
  match (← get).value with
  | .vector t items =>
    require (item.requireShape t)
    write (.vector t (items ++ [item]))
  | v => throw (.typeMismatch "vec" v.shape)

/-- The field at a place, which is there to be replaced by one of its shape. -/
def setField (what : Counted) (g : List Value → Value) (fields : List Value) (index : Nat)
    (field : Value) : InPlace Unit :=
  match fields[index]? with
  | none => throw (.arityMismatch what fields.length (Count.next index))
  | some old => do
    require (field.requireShape old)
    write (g (fields.set index field))

def set (index : Nat) (item : Value) : InPlace Unit := do
  match (← get).value with
  | .array t n items =>
    require (item.requireShape t)
    if index < items.length then write (.array t n (items.set index item))
    else throw (.arityMismatch .arrayIndex n (Count.next index))
  | .struct fields => setField .structFields .struct fields index item
  | .tuple fields => setField .tupleFields .tuple fields index item
  | v => throw (.typeMismatch "array, struct or tuple" v.shape)

def fieldsOf (variants : List (List Value)) (tag : UInt8) : Except Fault (List Value) :=
  match variants[tag.toNat]? with
  | none => .error (.invalidEnumTag tag.toNat variants.length)
  | some fields => .ok fields

/-- The tag is written before the payload. -/
def select (tag : UInt8) (payload : List Value) : InPlace Unit := do
  match (← get).value with
  | .enum variants _ old =>
    let fields ← require (fieldsOf variants tag)
    if payload.length ≠ fields.length then
      throw (.arityMismatch (.payload tag) fields.length payload.length)
    require (Value.requireShapes payload fields)
    write (.enum variants tag old)
    write (.enum variants tag payload)
  | v => throw (.typeMismatch "enum" v.shape)

/-- The place that a decoding leaves. -/
def settle : Refill Value → EStateM.Result Fault Place Unit
  | ⟨v, none, c⟩ => .ok () ⟨v, c⟩
  | ⟨v, some f, c⟩ => .error f ⟨v, c⟩

/-- Decodes each part in its place, up to the first that fails. -/
def decodeParts (g : List Value → Value) (parts : List Value) : InPlace Unit := fun p =>
  let r := Value.refillAll parts p.cursor
  settle ⟨g r.value, r.fault, r.cursor⟩

/-- Decodes in place. The items of a vector and the payload of an enum are fresh copies, decoded
aside and written at the end. -/
def decode : InPlace Unit := do
  match (← get).value with
  | .bool _ => write (.bool (← read Scan.bool))
  | .text _ => write (.text (← read Scan.text))
  | .word n => write (.word (← read (Word.scan n.width n.signed)))
  | .varint n => write (.varint (← read (Varint.scan n.width)))
  | .vector t _ =>
    let length ← read (Scan.vectorLength t.minSize t.nodes)
    write (.vector t (← read (Scan.times (Value.refillStep t.blank) length)))
  | .enum variants _ old =>
    let tag ← read Scan.byte
    let fields ← require (fieldsOf variants tag)
    let payload ← read (fields.mapM fun field => Value.refillStep field.blank)
    write (.enum variants tag old)
    write (.enum variants tag payload)
  | .array t n items => decodeParts (.array t n) items
  | .struct fields => decodeParts .struct fields
  | .tuple fields => decodeParts .tuple fields

theorem read_bind (step : Scan α) (next : α → Scan β) :
    read (step >>= next) = read step >>= fun a => read (next a) := by
  funext p
  change read (step >>= next) p = EStateM.bind (read step) (fun a => read (next a)) p
  unfold read EStateM.bind
  cases h : step p.cursor with
  | ok a c => simp only [h, Scan.bind_of_ok h]
  | error f c => simp only [h, Scan.bind_of_error h]

theorem require_bind (e : Except Fault α) (next : α → Except Fault β) :
    require (e >>= next) = require e >>= fun a => require (next a) := by
  cases e with
  | ok a => rfl
  | error f => rfl

/-- A read value that is written after a change is read with the change. -/
theorem read_write (step : Scan α) (g : α → Value) :
    (read step >>= fun a => write (g a)) = read (g <$> step) >>= write := by
  rw [Scan.map_eq_bind, read_bind, bind_assoc]
  rfl

theorem require_write {e : Except Fault Value} {p q : Place} {f : Fault} :
    (require e >>= write) p = .error f q ↔ e = .error f ∧ q = p := by
  cases e with
  | ok v => exact ⟨nofun, nofun⟩
  | error g =>
    change EStateM.Result.error g p = EStateM.Result.error f q ↔ _
    simp [eq_comm]

theorem push_eq (item v : Value) (c : Cursor) :
    push item ⟨v, c⟩ = (require (v.push item) >>= write) ⟨v, c⟩ := by
  cases v with
  | vector t items =>
    rw [Value.push, require_bind, bind_assoc]
    rfl
  | _ => rfl

theorem setField_eq (what : Counted) (g : List Value → Value) (fields : List Value) (index : Nat)
    (field : Value) : setField what g fields index field =
      require (g <$> Value.setField what fields index field) >>= write := by
  unfold setField Value.setField
  cases fields[index]? with
  | none => rfl
  | some old =>
    dsimp only
    rw [map_eq_pure_bind, bind_assoc, require_bind, bind_assoc]
    rfl

theorem set_eq (index : Nat) (item v : Value) (c : Cursor) :
    set index item ⟨v, c⟩ = (require (v.set index item) >>= write) ⟨v, c⟩ := by
  cases v with
  | array t n items =>
    rw [Value.set, require_bind, bind_assoc]
    change (require (item.requireShape t) >>= fun _ => if index < items.length then _ else _) _ = _
    by_cases h : index < items.length
    · simp only [if_pos h]
      rfl
    · simp only [if_neg h]
      rfl
  | struct fields => exact congrFun (setField_eq .structFields .struct fields index item) ⟨_, c⟩
  | tuple fields => exact congrFun (setField_eq .tupleFields .tuple fields index item) ⟨_, c⟩
  | _ => rfl

theorem select_eq (tag : UInt8) (payload : List Value) (v : Value) (c : Cursor) :
    select tag payload ⟨v, c⟩ = (require (v.select tag payload) >>= write) ⟨v, c⟩ := by
  cases v with
  | enum variants oldTag old =>
    change (require (fieldsOf variants tag) >>= fun fields =>
      if payload.length ≠ fields.length then _ else _) _ = _
    rw [Value.select]
    unfold fieldsOf
    cases variants[tag.toNat]? with
    | none => rfl
    | some fields =>
      dsimp only
      by_cases h : payload.length = fields.length
      · rw [if_neg (not_not.mpr h), require_bind, bind_assoc]
        change (if payload.length ≠ fields.length then _ else _ : InPlace Unit) _ = _
        rw [if_neg (not_not.mpr h)]
        rfl
      · rw [if_pos h]
        change (if payload.length ≠ fields.length then _ else _ : InPlace Unit) _ = _
        rw [if_pos h]
        rfl
  | _ => rfl

theorem settle_whole (v : Value) (hv : v.Whole) (c : Cursor) :
    settle (v.refill c) = (read (Value.scan v) >>= write) ⟨v, c⟩ := by
  rw [hv.refill_eq c]
  change _ = EStateM.bind (read (Value.scan v)) write ⟨v, c⟩
  unfold EStateM.bind read
  cases h : Value.scan v c with
  | ok w c' => rfl
  | error f c' => rfl

/-- Fresh copies of fields, each decoded in its place, are what reading the fields gives. -/
theorem mapM_refillStep {fields : List Value} (h : ∀ v ∈ fields, Value.Sound v) :
    (fields.mapM fun field => Value.refillStep field.blank) = Value.scanAll fields := by
  induction fields with
  | nil => rfl
  | cons v vs ih =>
    obtain ⟨hv, hvs⟩ := List.forall_mem_cons.mp h
    rw [List.mapM_cons, Value.scanAll, hv.blank.refillStep_eq_scan, Value.scan_blank, ih hvs]

theorem decode_payload {variants : List (List Value)}
    (h : ∀ fields ∈ variants, ∀ v ∈ fields, Value.Sound v) (old : List Value) (tag : UInt8) :
    (require (fieldsOf variants tag) >>= fun fields =>
      read (fields.mapM fun field => Value.refillStep field.blank) >>= fun payload =>
        write (.enum variants tag old) >>= fun _ => write (.enum variants tag payload)) =
    read (do
      if variants.length ≤ tag.toNat then throw (.invalidEnumTag tag.toNat variants.length)
      return Value.enum variants tag (← Value.scanVariant variants tag.toNat)) >>= write := by
  unfold fieldsOf
  by_cases hlt : variants.length ≤ tag.toNat
  · rw [if_pos hlt, List.getElem?_eq_none hlt]
    rfl
  · have hget := List.getElem?_eq_getElem (Nat.not_le.mp hlt)
    have hsound := h _ (List.mem_of_getElem? hget)
    rw [if_neg hlt, hget, Value.scanVariant_eq hget, ← mapM_refillStep hsound, read_bind, bind_assoc]
    rfl

/-- Decoding in place, write by write, does what decoding into a value does. -/
theorem decode_eq {v : Value} (hv : v.Sound) (c : Cursor) :
    decode ⟨v, c⟩ = settle (v.refill c) := by
  cases hv with
  | bool b =>
    rw [settle_whole (.bool b) trivial, Value.scan, ← read_write]
    rfl
  | text s =>
    rw [settle_whole (.text s) trivial, Value.scan, ← read_write]
    rfl
  | word n =>
    rw [settle_whole (.word n) trivial, Value.scan, ← read_write]
    rfl
  | varint n =>
    rw [settle_whole (.varint n) trivial, Value.scan, ← read_write]
    rfl
  | @vector t items ht =>
    rw [settle_whole (.vector t items) trivial, Value.scan, ← Value.scan_blank t, ← ht.blank.refillStep_eq_scan,
      read_bind, bind_assoc]
    simp only [read_bind, bind_assoc]
    rfl
  | @enum variants tag _ old _ hvs =>
    rw [settle_whole (.enum variants tag old) trivial, Value.scan, read_bind, bind_assoc]
    simp only [← decode_payload hvs old]
    rfl
  | array | struct | tuple => rfl

theorem settle_eq_ok {r : Refill Value} {v : Value} {c : Cursor} :
    settle r = .ok () ⟨v, c⟩ ↔ r = ⟨v, none, c⟩ := by
  obtain ⟨w, fault, c'⟩ := r
  cases fault <;> simp [settle]

theorem settle_eq_error {r : Refill Value} {v : Value} {c : Cursor} {f : Fault} :
    settle r = .error f ⟨v, c⟩ ↔ r = ⟨v, some f, c⟩ := by
  obtain ⟨w, fault, c'⟩ := r
  cases fault <;> simp [settle, and_left_comm]

theorem read_write_error {step : Scan Value} {p q : Place} {f : Fault}
    (h : (read step >>= write) p = .error f q) : q.value = p.value := by
  change EStateM.bind (read step) write p = _ at h
  unfold EStateM.bind read at h
  cases hs : step p.cursor with
  | ok v c =>
    rw [hs] at h
    cases h
  | error g c =>
    rw [hs] at h
    cases h
    rfl

theorem decodeParts_eq_error {g : List Value → Value} {parts : List Value} {p : Place} {w : Value}
    {f : Fault} {c : Cursor} : decodeParts g parts p = .error f ⟨w, c⟩ ↔
      ∃ left, Value.refillAll parts p.cursor = ⟨left, some f, c⟩ ∧ g left = w := by
  unfold decodeParts
  dsimp only
  rw [settle_eq_error]
  constructor
  · intro h
    injection h with hw hfault hc
    exact ⟨_, by rw [← hfault, ← hc], hw⟩
  · intro h
    obtain ⟨left, hleft, rfl⟩ := h
    rw [hleft]

end InPlace

end CallWire
