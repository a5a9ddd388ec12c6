import CallWire.TypeTable
import Mathlib

namespace CallWire

namespace Count

theorem min_add_min (a b m : Nat) : min (min a m + min b m) m = min (a + b) m := by omega

theorem foldl_add {α : Type} (f : α → Nat) (as : List α) (total : Nat) :
    as.foldl (fun t a => add t (f a)) (min total max) = min (total + (as.map f).sum) max := by
  induction as generalizing total with
  | nil => rfl
  | cons a as ih =>
    have hstep : add (min total max) (f a) = min (total + f a) max := by
      unfold add
      omega
    rw [List.foldl_cons, hstep, ih, List.map_cons, List.sum_cons, Nat.add_assoc]

end Count

namespace Layout

/-- The nodes of the blank value of a type, counted in full. -/
def templateNodes (count : TypeId → Nat) : Layout → Nat
  | primitive _ => 1
  | struct fields => (fields.map count).sum + 1
  | tuple fields => (fields.map count).sum + 1
  | vector element => count element + 1
  | array element length => count element * (length + 1) + 1
  | enum variants =>
    (variants.flatten.map count).sum + ((variants.headD []).map count).sum + 1

theorem fieldNodes_eq (count : TypeId → Nat) (fields : List TypeId) :
    fieldNodes count fields = min (fields.map count).sum Count.max := by
  have h := Count.foldl_add count fields 0
  rwa [Nat.zero_min, Nat.zero_add] at h

theorem variantNodes_eq (count : TypeId → Nat) (variants : List (List TypeId)) (total : Nat) :
    variants.foldl (fun t fields => Count.add t (fieldNodes count fields)) (min total Count.max) =
      min (total + (variants.flatten.map count).sum) Count.max := by
  induction variants generalizing total with
  | nil => rfl
  | cons fields variants ih =>
    have hstep : Count.add (min total Count.max) (fieldNodes count fields) =
        min (total + (fields.map count).sum) Count.max := by
      rw [fieldNodes_eq, Count.add, Count.min_add_min]
    rw [List.foldl_cons, hstep, ih, List.flatten_cons, List.map_append, List.sum_append,
      Nat.add_assoc]

/-- The capped count is the full one as far as it goes. -/
theorem nodes_eq_min (count : TypeId → Nat) (layout : Layout) :
    layout.nodes count = min (layout.templateNodes count) Count.max := by
  have hone : 1 = min 1 Count.max := rfl
  cases layout with
  | primitive p => exact hone
  | struct fields | tuple fields =>
    rw [nodes, templateNodes, fieldNodes_eq, Count.add]
    omega
  | vector element => rfl
  | array element length =>
    have hmul : count element * (length + 1) = length * count element + count element := by
      rw [Nat.mul_succ, Nat.mul_comm]
    rw [nodes, templateNodes, hmul]
    unfold Count.add Count.mul
    omega
  | enum variants =>
    simp only [nodes, templateNodes]
    rw [fieldNodes_eq, variantNodes_eq]
    unfold Count.add
    omega

theorem nodes_le_iff {count : TypeId → Nat} {layout : Layout} :
    layout.nodes count ≤ maxTypeNodes ↔ layout.templateNodes count ≤ maxTypeNodes := by
  have hlt : maxTypeNodes < Count.max := by decide
  rw [nodes_eq_min]
  omega

theorem nodes_eq_of_le {count : TypeId → Nat} {layout : Layout}
    (h : layout.nodes count ≤ maxTypeNodes) :
    layout.nodes count = layout.templateNodes count := by
  have hlt : maxTypeNodes < Count.max := by decide
  rw [nodes_eq_min] at h ⊢
  omega

theorem templateNodes_congr {f g : TypeId → Nat} {layout : Layout}
    (h : ∀ child ∈ layout.references, f child = g child) :
    layout.templateNodes f = layout.templateNodes g := by
  cases layout with
  | primitive p => rfl
  | struct fields | tuple fields =>
    have hfields : fields.map f = fields.map g := List.map_congr_left h
    rw [templateNodes, templateNodes, hfields]
  | vector element => rw [templateNodes, templateNodes, h element (by simp [references])]
  | array element length => rw [templateNodes, templateNodes, h element (by simp [references])]
  | enum variants =>
    have hfirst : ∀ child ∈ variants.headD [], f child = g child := by
      intro child hc
      cases variants with
      | nil => simp at hc
      | cons fields others => exact h child (List.mem_append_left _ hc)
    have hall : variants.flatten.map f = variants.flatten.map g := List.map_congr_left h
    rw [templateNodes, templateNodes, hall, List.map_congr_left hfirst]

end Layout

end CallWire
