import CallWire.Proofs.WalkComplete

namespace CallWire

namespace TypeDecl

/-- The sizes that a declared type states are within bounds. -/
structure Sized (decl : TypeDecl) : Prop where
  array : ∀ element length, decl.layout = .array element length → length ≤ maxArrayLength
  enum : ∀ variants, decl.layout = .enum variants →
    1 ≤ variants.length ∧ variants.length ≤ maxVariants

end TypeDecl

namespace TypeTable

theorem checkSize_eq_ok {decl : TypeDecl} {u : Unit} :
    checkSize decl = .ok u ↔ decl.Sized := by
  obtain ⟨id, layout⟩ := decl
  unfold checkSize
  cases layout with
  | array element length =>
    dsimp only
    split
    next h =>
      have hsized : TypeDecl.Sized ⟨id, .array element length⟩ := by
        refine ⟨?_, nofun⟩
        intro element' length' he
        cases he
        exact h
      exact ⟨fun _ => hsized, fun _ => rfl⟩
    next h => exact ⟨nofun, fun hs => absurd (hs.array element length rfl) h⟩
  | enum variants =>
    dsimp only
    split
    next h =>
      have hsized : TypeDecl.Sized ⟨id, .enum variants⟩ := by
        refine ⟨nofun, ?_⟩
        intro variants' he
        cases he
        exact h
      exact ⟨fun _ => hsized, fun _ => rfl⟩
    next h => exact ⟨nofun, fun hs => absurd (hs.enum variants rfl) h⟩
  | primitive | struct | tuple | vector => exact ⟨fun _ => ⟨nofun, nofun⟩, fun _ => rfl⟩

theorem checkDecls_eq_ok {count : Nat} {decls : List TypeDecl} {u : Unit} :
    checkDecls count decls = .ok u ↔
      ∀ decl ∈ decls, decl.Sized ∧ ∀ child ∈ decl.layout.references, child < count := by
  induction decls with
  | nil => simp [checkDecls]
  | cons decl decls ih =>
    rw [checkDecls, bind_eq_ok, List.forall_mem_cons]
    constructor
    · intro h
      obtain ⟨_, hs, hrest⟩ := h
      obtain ⟨_, hr, hdecls⟩ := bind_eq_ok.mp hrest
      exact ⟨⟨checkSize_eq_ok.mp hs, checkReferences_eq_ok.mp hr⟩, ih.mp hdecls⟩
    · intro h
      obtain ⟨⟨hs, hr⟩, hdecls⟩ := h
      refine ⟨(), checkSize_eq_ok.mpr hs, ?_⟩
      exact bind_eq_ok.mpr ⟨(), checkReferences_eq_ok.mpr hr, ih.mpr hdecls⟩

theorem mergeSort_sorted (types : List TypeDecl) :
    (types.mergeSort fun a b => decide (a.id ≤ b.id)).Pairwise fun a b => a.id ≤ b.id := by
  have hsorted : (types.mergeSort fun a b => decide (a.id ≤ b.id)).Pairwise
      fun a b => decide (a.id ≤ b.id) = true := by
    refine List.pairwise_mergeSort ?_ ?_ types
    · intro a b c hab hbc
      rw [decide_eq_true_eq] at hab hbc ⊢
      exact Nat.le_trans hab hbc
    · intro a b
      rw [Bool.or_eq_true, decide_eq_true_eq, decide_eq_true_eq]
      exact Nat.le_total a.id b.id
  exact hsorted.imp fun hab => of_decide_eq_true hab

/-- Sorting by number puts each type at its place just when the numbers are all those below the
count of types. -/
theorem numbered_mergeSort {types : List TypeDecl} :
    Numbered (types.mergeSort fun a b => decide (a.id ≤ b.id)) ↔
      (types.map TypeDecl.id).Perm (List.range types.length) := by
  have hperm := List.mergeSort_perm types fun a b => decide (a.id ≤ b.id)
  unfold Numbered
  rw [List.length_mergeSort]
  constructor
  · intro h
    rw [← h]
    exact (hperm.map TypeDecl.id).symm
  · intro h
    have hids := List.pairwise_map.mpr (mergeSort_sorted types)
    have hrange : (List.range types.length).Pairwise (· ≤ ·) := by
      rw [List.range_eq_range']
      exact List.pairwise_le_range'
    exact List.Perm.eq_of_pairwise (fun _ _ _ _ => Nat.le_antisymm) hids hrange
      ((hperm.map TypeDecl.id).trans h)

end TypeTable

namespace Interface

theorem checkMethods_eq_ok {count : Nat} {seen : List String} {methods : List Method} {u : Unit} :
    checkMethods count seen methods = .ok u ↔
      (∀ m ∈ methods, m.name ≠ "" ∧ m.name ∉ seen ∧ ∀ id ∈ m.inputs ++ m.outputs, id < count) ∧
        (methods.map Method.name).Nodup := by
  induction methods generalizing seen with
  | nil => simp [checkMethods]
  | cons m ms ih =>
    rw [checkMethods, guard_eq_ok, guard_eq_ok, bind_eq_ok, List.forall_mem_cons, List.map_cons,
      List.nodup_cons, String.isEmpty_iff, List.contains_iff_mem]
    constructor
    · intro h
      obtain ⟨hname, hseen, _, hcheck, hrest⟩ := h
      have hr := TypeTable.checkReferences_eq_ok.mp hcheck
      obtain ⟨hms, hnodup⟩ := ih.mp hrest
      refine ⟨⟨⟨hname, hseen, hr⟩, ?_⟩, ?_, hnodup⟩
      · intro n hn
        obtain ⟨hnn, hns, hnr⟩ := hms n hn
        exact ⟨hnn, fun hc => hns (List.mem_cons_of_mem _ hc), hnr⟩
      · intro hm
        obtain ⟨n, hn, he⟩ := List.mem_map.mp hm
        exact (hms n hn).2.1 (by rw [he]; exact List.mem_cons_self)
    · intro h
      obtain ⟨⟨⟨hname, hseen, hr⟩, hms⟩, hfresh, hnodup⟩ := h
      refine ⟨hname, hseen, (), TypeTable.checkReferences_eq_ok.mpr hr, ih.mpr ⟨?_, hnodup⟩⟩
      intro n hn
      obtain ⟨hnn, hns, hnr⟩ := hms n hn
      refine ⟨hnn, ?_, hnr⟩
      intro hc
      rcases List.mem_cons.mp hc with he | hc
      · exact hfresh (he ▸ List.mem_map_of_mem hn)
      · exact hns hc

theorem constructorOf_ok {count : Nat} {contract : Option Contract} :
    (∃ m, constructorOf count contract = .ok m) ↔
      ∀ c, contract = some c → ∀ inputs, c.constructorInputs = some inputs →
        ∀ id ∈ inputs, id < count := by
  unfold constructorOf
  split
  next h =>
    refine ⟨?_, fun _ => ⟨none, rfl⟩⟩
    intro _ c hc inputs hi
    rw [hc, Option.bind_some, hi] at h
    cases h
  next inputs h =>
    obtain ⟨c, rfl, hc⟩ := Option.bind_eq_some_iff.mp h
    constructor
    · intro hok c' he others ho
      cases he
      obtain ⟨m, hm⟩ := hok
      obtain ⟨_, hr, _⟩ := bind_eq_ok.mp hm
      cases hc.symm.trans ho
      exact TypeTable.checkReferences_eq_ok.mp hr
    · intro hr
      have hall : TypeTable.checkReferences count inputs = .ok () :=
        TypeTable.checkReferences_eq_ok.mpr (hr c rfl inputs hc)
      exact ⟨_, bind_eq_ok.mpr ⟨(), hall, rfl⟩⟩

end Interface

end CallWire
