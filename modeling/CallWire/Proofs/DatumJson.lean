import CallWire.Proofs.ArgumentCases
import CallWire.Proofs.NumeralText

namespace CallWire

theorem Json.writeItems_eq_map (items : List Json) : writeItems items = items.map write := by
  induction items with
  | nil => rfl
  | cons j js ih => rw [writeItems, ih, List.map_cons]

/-- What becomes of each kind of plain data when it is handed over piece by piece. Numbers are
handed over in 64 bits, natural ones without a sign. -/
structure Serializer (α : Type) where
  bool : Bool → α
  text : String → α
  natural : Nat → α
  integer : Int → α
  list : List α → α

namespace Serializer

def toText : Serializer String where
  bool b := if b then "true" else "false"
  text := Json.quote
  natural n := toString n
  integer n := toString n
  list items := "[" ++ ",".intercalate items ++ "]"

def toDocument : Serializer Json where
  bool := .bool
  text := .string
  natural n := .number (.natural n)
  integer n := .number (if n < 0 then .negative n.natAbs else .natural n.toNat)
  list := .array

end Serializer

namespace Datum

variable {α : Type}

mutual

/-- Hands plain data over; a number that 64 bits do not hold goes as the text of its digits. -/
def serialize (s : Serializer α) : Datum → α
  | bool b => s.bool b
  | text t => s.text t
  | natural n => if n < 2 ^ 64 then s.natural n else s.text (toString n)
  | integer n => if -(2 ^ 63) ≤ n ∧ n < 2 ^ 63 then s.integer n else s.text (toString n)
  | list items => s.list (serializeItems s items)

def serializeItems (s : Serializer α) : List Datum → List α
  | [] => []
  | d :: ds => serialize s d :: serializeItems s ds

end

theorem serializeItems_eq_map (s : Serializer α) (items : List Datum) :
    serializeItems s items = items.map (serialize s) := by
  induction items with
  | nil => rfl
  | cons d ds ih => rw [serializeItems, ih, List.map_cons]

theorem writeItems_eq_map (items : List Datum) : writeItems items = items.map write := by
  induction items with
  | nil => rfl
  | cons d ds ih => rw [writeItems, ih, List.map_cons]

theorem jsonItems_eq_map (items : List Datum) : jsonItems items = items.map json := by
  induction items with
  | nil => rfl
  | cons d ds ih => rw [jsonItems, ih, List.map_cons]

theorem serialize_toText (d : Datum) : d.serialize .toText = d.write := by
  induction d using items_induction with
  | bool | text | natural | integer => rfl
  | list items ih =>
    rw [serialize, write, serializeItems_eq_map, writeItems_eq_map, List.map_congr_left ih]
    rfl

theorem serialize_integer (n : Int) : (integer n).serialize .toDocument = integerJson n := by
  unfold integerJson
  rw [serialize]
  split
  next h =>
    change Json.number _ = _
    split
    next => rw [if_pos h.1]
    next => rw [if_pos h.2]
  next h =>
    change Json.string _ = _
    split
    next => rw [if_neg (by omega)]
    next => rw [if_neg (by omega)]

theorem serialize_toDocument (d : Datum) : d.serialize .toDocument = d.json := by
  induction d using items_induction with
  | bool | text | natural => rfl
  | integer n => exact serialize_integer n
  | list items ih =>
    rw [serialize, json, serializeItems_eq_map, jsonItems_eq_map, List.map_congr_left ih]
    rfl

theorem write_naturalJson (n : Nat) : (naturalJson n).write = (natural n).write := by
  unfold naturalJson
  rw [write]
  split
  next => rfl
  next => rfl

theorem write_integerJson (n : Int) : (integerJson n).write = (integer n).write := by
  have htext : toString n = n.repr := Int.toString_eq_repr
  unfold integerJson
  rw [write]
  split
  next hneg =>
    split
    next hlow =>
      have habs : (-n).toNat = n.natAbs := by omega
      rw [if_pos ⟨hlow, by omega⟩, htext, Int.repr_eq_if, if_neg (by omega), habs]
      rfl
    next hlow => rw [if_neg (by omega)]; rfl
  next hneg =>
    split
    next hhigh =>
      rw [if_pos ⟨by omega, hhigh⟩, htext, Int.repr_eq_if, if_pos (by omega)]
      rfl
    next hhigh => rw [if_neg (by omega)]; rfl

/-- Written at once or as a document first, plain data comes to the same text. -/
theorem write_json (d : Datum) : d.json.write = d.write := by
  induction d using items_induction with
  | bool | text => rfl
  | natural n => exact write_naturalJson n
  | integer n => exact write_integerJson n
  | list items ih =>
    have hitems : (items.map json).map Json.write = items.map write := by
      rw [List.map_map]
      exact List.map_congr_left ih
    rw [json, Json.write, write, jsonItems_eq_map, Json.writeItems_eq_map, hitems,
      writeItems_eq_map]

def rereadNatural (n : Nat) : Datum := if n < 2 ^ 64 then natural n else text (toString n)

def rereadInteger (n : Int) : Datum :=
  if n < 0 then if -(2 ^ 63) ≤ n then integer n else text (toString n)
  else if n < 2 ^ 63 then natural n.toNat
  else text (toString n)

mutual

/-- What a reader of its document makes of plain data. A number comes back by its sign alone, and
as a text where 64 bits do not hold it. -/
def reread : Datum → Datum
  | bool b => bool b
  | text s => text s
  | natural n => rereadNatural n
  | integer n => rereadInteger n
  | list items => list (rereadItems items)

def rereadItems : List Datum → List Datum
  | [] => []
  | d :: ds => reread d :: rereadItems ds

end

theorem rereadItems_eq_map (items : List Datum) : rereadItems items = items.map reread := by
  induction items with
  | nil => rfl
  | cons d ds ih => rw [rereadItems, ih, List.map_cons]

theorem ofJson_naturalJson (n : Nat) : ofJson (naturalJson n) = .ok (rereadNatural n) := by
  unfold naturalJson rereadNatural
  split
  next => rfl
  next => rfl

theorem ofJson_integerJson (n : Int) : ofJson (integerJson n) = .ok (rereadInteger n) := by
  unfold integerJson rereadInteger
  split
  next hneg =>
    split
    next =>
      have habs : -(n.natAbs : Int) = n := by omega
      rw [ofJson, habs]
    next => rfl
  next =>
    split
    next => rfl
    next => rfl

theorem ofJson_jsonItems {items : List Datum} (h : ∀ d ∈ items, ofJson d.json = .ok d.reread) :
    ofJsonItems (jsonItems items) = .ok (rereadItems items) := by
  induction items with
  | nil => rfl
  | cons d ds ih =>
    obtain ⟨hd, hds⟩ := List.forall_mem_cons.mp h
    rw [jsonItems, ofJsonItems, bind_eq_ok]
    exact ⟨_, hd, bind_eq_ok.mpr ⟨_, ih hds, rfl⟩⟩

theorem ofJson_json (d : Datum) : ofJson d.json = .ok d.reread := by
  induction d using items_induction with
  | bool | text => rfl
  | natural n => exact ofJson_naturalJson n
  | integer n => exact ofJson_integerJson n
  | list items ih =>
    rw [json, ofJson, map_eq_ok]
    exact ⟨_, ofJson_jsonItems ih, rfl⟩

end Datum

end CallWire
