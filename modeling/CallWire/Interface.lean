import CallWire.WalkGrounded

namespace CallWire

/-- A method by name, with the types of what it takes and gives. The empty name is the
constructor's. -/
structure Method where
  name : String
  inputs : List TypeId
  outputs : List TypeId
  deriving DecidableEq, Repr

namespace Method

def isConstructor (m : Method) : Bool := m.name.isEmpty

end Method

structure Contract where
  name : String
  constructorInputs : Option (List TypeId)
  deriving DecidableEq, Repr

/-- A contract's types and methods, checked as a whole. Types refer to each other by number and
never in a circle. -/
structure Interface where
  contract : Option Contract
  types : TypeTable
  methods : List Method
  constructor? : Option Method
  acyclic : WellFounded types.Refers

namespace Interface

/-- Each method has a name of its own and refers to types of the table. -/
def checkMethods (count : Nat) : List String → List Method → Except Fault Unit
  | _, [] => .ok ()
  | seen, m :: ms => do
    if m.name.isEmpty then throw (.invalidSchema .namelessMethod)
    if seen.contains m.name then throw (.invalidSchema (.duplicateMethod m.name))
    TypeTable.checkReferences count (m.inputs ++ m.outputs)
    checkMethods count (m.name :: seen) ms

/-- The constructor takes what the contract says; a contract that says nothing has none. -/
def constructorOf (count : Nat) (contract : Option Contract) : Except Fault (Option Method) :=
  match contract.bind Contract.constructorInputs with
  | none => .ok none
  | some inputs => do
    TypeTable.checkReferences count inputs
    return some ⟨"", inputs, []⟩

/-- A walk over the whole table that comes to its end shows that no reference lies on a cycle. -/
def acyclicity (types : TypeTable) : Except Fault (PLift (WellFounded types.Refers)) :=
  match h : Walk.survey types with
  | .error f => .error (.invalidSchema f)
  | .ok _ => .ok ⟨Walk.wellFounded_of_survey h⟩

/-- Checks types, methods and constructor, in this order. Types may come in any order. -/
def ofParts (types : List TypeDecl) (methods : List Method) (contract : Option Contract) :
    Except Fault Interface := do
  let decls := types.mergeSort fun a b => decide (a.id ≤ b.id)
  let count := decls.length
  TypeTable.checkIds 0 decls
  TypeTable.checkDecls count decls
  let acyclic ← acyclicity decls.toArray
  checkMethods count [] methods
  let constructor? ← constructorOf count contract
  return ⟨contract, decls.toArray, methods, constructor?, acyclic.down⟩

def method (i : Interface) (name : String) : Except Fault Method :=
  match i.methods.find? (·.name == name) with
  | some m => .ok m
  | none => .error (.unknownMethod name)

def constructor (i : Interface) : Except Fault Method :=
  match i.constructor? with
  | some m => .ok m
  | none => .error (.unknownMethod "")

def methodOrConstructor (i : Interface) (name : String) : Except Fault Method :=
  if name.isEmpty then i.constructor else i.method name

def resolve (i : Interface) (id : TypeId) : Except Fault TypeDecl :=
  match i.types[id]? with
  | some decl => .ok decl
  | none => .error (.unknownType id)

end Interface

end CallWire
