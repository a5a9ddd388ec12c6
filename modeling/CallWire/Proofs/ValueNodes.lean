import CallWire.Value
import Mathlib.Algebra.Ring.Nat

namespace CallWire

namespace Value

/-- A count of nodes is the full one as far as it goes. -/
theorem nodesAll_eq_min {vs : List Value} {total : Nat} (h : total ≤ Count.max) :
    nodesAll vs total = min (total + (vs.map nodes).sum) Count.max := by
  induction vs generalizing total with
  | nil => exact (Nat.min_eq_left h).symm
  | cons v vs ih =>
    rw [nodesAll, ih (Count.add_le_max _ _), Count.add, List.map_cons, List.sum_cons]
    omega

theorem nodesVariants_eq_min {variants : List (List Value)} {total : Nat}
    (h : total ≤ Count.max) : nodesVariants variants total =
      min (total + (variants.flatten.map nodes).sum) Count.max := by
  induction variants generalizing total with
  | nil => exact (Nat.min_eq_left h).symm
  | cons fields variants ih =>
    rw [nodesVariants, ih (Count.add_le_max _ _), nodesAll_eq_min (Nat.zero_le _), Count.add,
      List.flatten_cons, List.map_append, List.sum_append]
    omega

theorem nodes_vector (t : Value) (items : List Value) :
    (vector t items).nodes = min (t.nodes + (items.map nodes).sum + 1) Count.max := by
  rw [nodes, nodesAll_eq_min (Nat.zero_le _), Count.add, Count.add]
  omega

theorem nodes_array (t : Value) (n : Nat) (items : List Value) :
    (array t n items).nodes = min (t.nodes + (items.map nodes).sum + 1) Count.max := by
  rw [nodes, nodesAll_eq_min (Nat.zero_le _), Count.add, Count.add]
  omega

theorem nodes_struct (fields : List Value) :
    (struct fields).nodes = min ((fields.map nodes).sum + 1) Count.max := by
  rw [nodes, nodesAll_eq_min (Nat.zero_le _), Count.add]
  omega

theorem nodes_tuple (fields : List Value) :
    (tuple fields).nodes = min ((fields.map nodes).sum + 1) Count.max := by
  rw [nodes, nodesAll_eq_min (Nat.zero_le _), Count.add]
  omega

theorem nodes_enum (variants : List (List Value)) (tag : UInt8) (payload : List Value) :
    (enum variants tag payload).nodes =
      min ((payload.map nodes).sum + (variants.flatten.map nodes).sum + 1) Count.max := by
  have hpayload : nodesAll payload 0 ≤ Count.max := by
    rw [nodesAll_eq_min (Nat.zero_le _)]
    exact Nat.min_le_right _ _
  rw [nodes, nodesVariants_eq_min hpayload, nodesAll_eq_min (Nat.zero_le _), Count.add]
  omega

theorem nodes_le_max (v : Value) : v.nodes ≤ Count.max := by
  cases v with
  | bool | text | word | varint => exact (by decide : 1 ≤ Count.max)
  | vector | array | struct | tuple | enum => exact Count.add_le_max _ _

theorem nodes_pos (v : Value) : 0 < v.nodes := by
  have hadd (n : Nat) : 0 < Count.add n 1 := by
    unfold Count.add Count.max
    omega
  cases v with
  | bool | text | word | varint => exact Nat.one_pos
  | vector | array | struct | tuple | enum => exact hadd _

end Value

end CallWire
