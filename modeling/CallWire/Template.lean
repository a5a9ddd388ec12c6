import CallWire.Interface
import CallWire.ValueUpdate

namespace CallWire

namespace TypeTable

theorem refers_of_mem {types : TypeTable} {id child : TypeId} {decl : TypeDecl}
    (hd : types[id]? = some decl) (hc : child ∈ decl.layout.references) :
    types.Refers child id := by
  rwa [Refers, references_of_getElem? hd]

end TypeTable

namespace Interface

/-- The blank value of a type, `depth` references below the type asked for. -/
def templateAt (i : Interface) (limits : Limits) (depth : Nat) (id : TypeId) :
    Except Fault Value := do
  limits.checkDepth depth
  match hd : i.types[id]? with
  | none => throw (.unknownType id)
  | some ⟨_, .primitive p⟩ => return Value.ofPrimitive p
  | some ⟨_, .struct fields⟩ =>
    return .struct (← fields.attach.mapM fun ⟨c, _⟩ => templateAt i limits (depth + 1) c)
  | some ⟨_, .tuple fields⟩ =>
    return .tuple (← fields.attach.mapM fun ⟨c, _⟩ => templateAt i limits (depth + 1) c)
  | some ⟨_, .vector element⟩ =>
    return Value.newVector (← templateAt i limits (depth + 1) element)
  | some ⟨_, .array element length⟩ =>
    limits.checkCollection length
    Value.newArray (← templateAt i limits (depth + 1) element) length
  | some ⟨_, .enum variants⟩ =>
    Value.newEnum (← variants.attach.mapM fun ⟨fields, _⟩ =>
      fields.attach.mapM fun ⟨c, _⟩ => templateAt i limits (depth + 1) c)
termination_by i.acyclic.wrap id
decreasing_by
  · next hc => exact TypeTable.refers_of_mem hd hc
  · next hc => exact TypeTable.refers_of_mem hd hc
  · exact TypeTable.refers_of_mem hd (List.mem_singleton.mpr rfl)
  · exact TypeTable.refers_of_mem hd (List.mem_singleton.mpr rfl)
  · next hf hc =>
    exact TypeTable.refers_of_mem hd (List.mem_flatten.mpr ⟨_, hf, hc⟩)

def template (i : Interface) (limits : Limits) (id : TypeId) : Except Fault Value :=
  i.templateAt limits 0 id

end Interface

end CallWire
