import CallWire.Primitive
import CallWire.Count

namespace CallWire

inductive Layout where
  | primitive (p : Primitive)
  | struct (fields : List TypeId)
  | tuple (fields : List TypeId)
  | vector (element : TypeId)
  | array (element : TypeId) (length : Nat)
  | enum (variants : List (List TypeId))
  deriving DecidableEq, Repr

namespace Layout

def kindName : Layout → String
  | primitive _ => "primitive"
  | struct _ => "struct"
  | tuple _ => "tuple"
  | vector _ => "vec"
  | array .. => "array"
  | enum _ => "enum"

/-- The types referred to, in order and as often as they are. -/
def references : Layout → List TypeId
  | primitive _ => []
  | struct fields => fields
  | tuple fields => fields
  | vector element => [element]
  | array element _ => [element]
  | enum variants => variants.flatten

def fieldNodes (nodes : TypeId → Nat) (fields : List TypeId) : Nat :=
  fields.foldl (fun total field => Count.add total (nodes field)) 0

/-- How many nodes the blank value of a type has, from those of the types it refers to. A blank
enum holds the first variant twice, among its variants and as its payload. -/
def nodes (nodes : TypeId → Nat) : Layout → Nat
  | primitive _ => 1
  | struct fields => Count.add (fieldNodes nodes fields) 1
  | tuple fields => Count.add (fieldNodes nodes fields) 1
  | vector element => Count.add (nodes element) 1
  | array element length =>
    Count.add (Count.add (nodes element) (Count.mul length (nodes element))) 1
  | enum variants =>
    let payload := fieldNodes nodes (variants.headD [])
    Count.add (variants.foldl (fun total fs => Count.add total (fieldNodes nodes fs)) payload) 1

end Layout

structure TypeDecl where
  id : TypeId
  layout : Layout
  deriving DecidableEq, Repr

abbrev TypeTable := Array TypeDecl

namespace TypeTable

/-- The types that the type at a place refers to; none for a place beyond the table. -/
def references (types : TypeTable) (id : TypeId) : List TypeId :=
  match types[id]? with
  | some decl => decl.layout.references
  | none => []

def Refers (types : TypeTable) (child parent : TypeId) : Prop := child ∈ types.references parent

theorem references_of_getElem? {types : TypeTable} {id : TypeId} {decl : TypeDecl}
    (hd : types[id]? = some decl) : types.references id = decl.layout.references := by
  rw [references, hd]

theorem references_of_size_le {types : TypeTable} {id : TypeId} (h : types.size ≤ id) :
    types.references id = [] := by
  rw [references, Array.getElem?_eq_none h]

/-- Each type stands at the place that its number says. -/
def checkIds : Nat → List TypeDecl → Except Fault Unit
  | _, [] => .ok ()
  | position, decl :: decls =>
    if decl.id = position then checkIds (position + 1) decls
    else .error (.invalidSchema (.idGap decl.id position))

def checkReferences (count : Nat) : List TypeId → Except Fault Unit
  | [] => .ok ()
  | id :: ids => if id < count then checkReferences count ids else .error (.unknownType id)

def checkSize : TypeDecl → Except Fault Unit
  | ⟨id, .array _ length⟩ =>
    if length ≤ maxArrayLength then .ok () else .error (.invalidSchema (.longArray id length))
  | ⟨id, .enum variants⟩ =>
    if 0 < variants.length ∧ variants.length ≤ maxVariants then .ok ()
    else .error (.invalidSchema (.variantCount id variants.length))
  | _ => .ok ()

def checkDecls (count : Nat) : List TypeDecl → Except Fault Unit
  | [] => .ok ()
  | decl :: decls => do
    checkSize decl
    checkReferences count decl.layout.references
    checkDecls count decls

end TypeTable

end CallWire
