import CallWire.Interface
import CallWire.JsonText

namespace CallWire

namespace JsonText

/-- The parts of a record, one for each declared name. As an object it names its parts; others are
passed over, and none may come twice. As an array it gives them in declared order. -/
def parts (names : List String) : JsonText → Option (List (Option JsonText))
  | object members => do
    let keyed ← members.mapM fun (key, j) => (unquote key).map (·, j)
    let declared := (keyed.map (·.1)).filter names.contains
    if declared.eraseDups.length = declared.length then
      some (names.map fun name => (keyed.find? (·.1 == name)).map (·.2))
    else none
  | array items =>
    if items.length ≤ names.length then
      some ((List.range names.length).map fun k => items[k]?)
    else none
  | _ => none

def text? : JsonText → Option String
  | quoted q => unquote q
  | _ => none

def natural? (bound : Nat) : JsonText → Option Nat
  | number n => n.natural? bound
  | _ => none

def list? (item : JsonText → Option α) : JsonText → Option (List α)
  | array items => items.mapM item
  | _ => none

def partOr (absent : α) (read : JsonText → Option α) : Option JsonText → Option α
  | none => some absent
  | some j => read j

/-- A part that may be left out or null. -/
def optional (read : JsonText → Option α) : Option JsonText → Option (Option α)
  | none => some none
  | some null => some none
  | some j => (read j).map some

end JsonText

/-- A type as a schema document declares it. Which parts have to be there depends on its kind. -/
structure TypeEntry where
  id : TypeId
  kind : String
  primitive : Option String
  fields : List TypeId
  arrayLength : Option Nat
  variants : Option (List (List TypeId))

structure Document where
  contract : Option Contract
  methods : List Method
  types : List TypeEntry

namespace Document

open JsonText

def typeId? : JsonText → Option TypeId := natural? (2 ^ 32)

def typeIds? : JsonText → Option (List TypeId) := list? typeId?

def constructor? (j : JsonText) : Option (List TypeId) := do
  let [input] ← parts ["input"] j | none
  partOr [] typeIds? input

def contract? (j : JsonText) : Option Contract := do
  let [name, made] ← parts ["name", "constructor"] j | none
  return ⟨← partOr "" text? name, ← optional constructor? made⟩

def method? (j : JsonText) : Option Method := do
  let [some name, input, output] ← parts ["name", "input", "output"] j | none
  return ⟨← text? name, ← partOr [] typeIds? input, ← partOr [] typeIds? output⟩

def typeEntry? (j : JsonText) : Option TypeEntry := do
  let [some id, some kind, primitive, fields, arrayLength, variants] ←
    parts ["id", "type", "primitive", "fields", "array_len", "variants"] j | none
  return {
    id := ← typeId? id
    kind := ← text? kind
    primitive := ← optional text? primitive
    fields := ← partOr [] typeIds? fields
    arrayLength := ← optional (natural? (2 ^ 64)) arrayLength
    variants := ← optional (list? typeIds?) variants }

def ofText? (j : JsonText) : Option Document := do
  let [contract, methods, types] ← parts ["contract", "methods", "types"] j | none
  return {
    contract := ← optional contract? contract
    methods := ← partOr [] (list? method?) methods
    types := ← partOr [] (list? typeEntry?) types }

end Document

namespace TypeEntry

def element (e : TypeEntry) (kind : String) : Except Fault TypeId :=
  match e.fields with
  | [element] => .ok element
  | fields => .error (.invalidSchema (.elementCount kind e.id fields.length))

/-- The layout that the entry's kind, in any case of its letters, asks for. -/
def layout (e : TypeEntry) : Except Fault Layout :=
  match String.ofList (e.kind.toList.map Char.toLower) with
  | "primitive" =>
    match e.primitive with
    | some name => .primitive <$> Primitive.parse name
    | none => .error (.invalidSchema (.unnamedPrimitive e.id))
  | "struct" => .ok (.struct e.fields)
  | "tuple" => .ok (.tuple e.fields)
  | "vec" => .vector <$> e.element "vec"
  | "array" => do
    let element ← e.element "array"
    match e.arrayLength with
    | some length => return .array element length
    | none => throw (.invalidSchema (.noArrayLength e.id))
  | "enum" =>
    match e.variants with
    | some variants => .ok (.enum variants)
    | none => .error (.invalidSchema (.noVariants e.id))
  | _ => .error (.unsupportedType e.kind)

def decl (e : TypeEntry) : Except Fault TypeDecl := (TypeDecl.mk e.id ·) <$> e.layout

end TypeEntry

namespace Interface

def ofDocument (d : Document) : Except Fault Interface := do
  ofParts (← d.types.mapM TypeEntry.decl) d.methods d.contract

/-- Loads a document. What its reader says of bytes that are none is left to `words`. -/
def ofBytes (words : Bytes → String) (bytes : Bytes) : Except Fault Interface :=
  match (JsonText.parse bytes).bind Document.ofText? with
  | some d => ofDocument d
  | none => .error (.invalidSchema (.malformed (words bytes)))

end Interface

end CallWire
