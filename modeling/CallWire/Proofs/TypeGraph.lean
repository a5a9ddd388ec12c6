import CallWire.Interface
import CallWire.Proofs.Outcome
import CallWire.Proofs.TypeNodes

namespace CallWire

def RefersAmong (types : List TypeDecl) (child parent : TypeId) : Prop :=
  ∃ decl ∈ types, decl.id = parent ∧ child ∈ decl.layout.references

/-- How many nodes the blank value of a declared type has. -/
inductive HasNodes (types : List TypeDecl) : TypeId → Nat → Prop
  | intro {decl : TypeDecl} {count : TypeId → Nat} (hd : decl ∈ types)
      (hc : ∀ child ∈ decl.layout.references, HasNodes types child (count child)) :
      HasNodes types decl.id (decl.layout.templateNodes count)

/-- Each type stands at the place that its number says. -/
def Numbered (decls : List TypeDecl) : Prop :=
  decls.map TypeDecl.id = List.range decls.length

theorem HasNodes.mono {types decls : List TypeDecl} (h : ∀ decl ∈ types, decl ∈ decls)
    {id : TypeId} {n : Nat} (hn : HasNodes types id n) : HasNodes decls id n := by
  induction hn with
  | intro hd _ ih => exact .intro (h _ hd) ih

theorem RefersAmong.mono {types decls : List TypeDecl} (h : ∀ decl ∈ types, decl ∈ decls)
    {child parent : TypeId} (hr : RefersAmong types child parent) : RefersAmong decls child parent := by
  obtain ⟨decl, hd, hid, hc⟩ := hr
  exact ⟨decl, h decl hd, hid, hc⟩

namespace Numbered

variable {decls : List TypeDecl} {decl : TypeDecl} {id : TypeId}

theorem getElem?_eq (h : Numbered decls) :
    decls[id]? = some decl ↔ decl ∈ decls ∧ decl.id = id := by
  have hplace : ∀ (place : Nat) (d : TypeDecl), decls[place]? = some d → d.id = place := by
    intro place d hd
    obtain ⟨hlt, _⟩ := List.getElem?_eq_some_iff.mp hd
    have hmap : (decls.map TypeDecl.id)[place]? = some d.id := by rw [List.getElem?_map, hd]; rfl
    rw [h, List.getElem?_range hlt] at hmap
    exact (Option.some.inj hmap).symm
  constructor
  · intro hd
    exact ⟨List.mem_of_getElem? hd, hplace id decl hd⟩
  · intro hd
    obtain ⟨hm, rfl⟩ := hd
    obtain ⟨place, hd⟩ := List.getElem?_of_mem hm
    rwa [hplace place decl hd]

theorem eq_of_id_eq (h : Numbered decls) {other : TypeDecl} (hd : decl ∈ decls)
    (ho : other ∈ decls) (hid : decl.id = other.id) : decl = other := by
  have h₁ := h.getElem?_eq.mpr ⟨hd, rfl⟩
  have h₂ := h.getElem?_eq.mpr ⟨ho, hid.symm⟩
  exact Option.some.inj (h₁.symm.trans h₂)

theorem lt_length (h : Numbered decls) (hd : decl ∈ decls) : decl.id < decls.length := by
  obtain ⟨hlt, _⟩ := List.getElem?_eq_some_iff.mp (h.getElem?_eq.mpr ⟨hd, rfl⟩)
  exact hlt

theorem exists_decl (h : Numbered decls) (hid : id < decls.length) :
    ∃ decl ∈ decls, decl.id = id :=
  ⟨decls[id], h.getElem?_eq.mp (List.getElem?_eq_getElem hid)⟩

theorem hasNodes_unique (h : Numbered decls) {n m : Nat} (hn : HasNodes decls id n)
    (hm : HasNodes decls id m) : n = m := by
  induction hn generalizing m with
  | @intro decl count hd hc ih =>
    obtain ⟨other, hother⟩ : ∃ other : TypeId, other = decl.id := ⟨_, rfl⟩
    rw [← hother] at hm
    cases hm with
    | @intro decl' count' hd' hc' =>
      cases h.eq_of_id_eq hd' hd hother
      exact Layout.templateNodes_congr fun child hm => ih child hm (hc' child hm)

end Numbered

namespace TypeTable

theorem checkIds_eq_ok {position : Nat} {decls : List TypeDecl} {u : Unit} :
    checkIds position decls = .ok u ↔
      decls.map TypeDecl.id = List.range' position decls.length := by
  induction decls generalizing position with
  | nil => simp [checkIds]
  | cons decl decls ih =>
    rw [checkIds, List.map_cons, List.length_cons, List.range'_succ, List.cons.injEq]
    split
    next h => rw [ih, and_iff_right h]
    next h => exact ⟨nofun, fun hc => absurd hc.1 h⟩

theorem checkIds_zero_eq_ok {decls : List TypeDecl} {u : Unit} :
    checkIds 0 decls = .ok u ↔ Numbered decls := by
  rw [checkIds_eq_ok, Numbered, List.range_eq_range']

theorem checkReferences_eq_ok {count : Nat} {ids : List TypeId} {u : Unit} :
    checkReferences count ids = .ok u ↔ ∀ id ∈ ids, id < count := by
  induction ids with
  | nil => simp [checkReferences]
  | cons id ids ih =>
    rw [checkReferences, List.forall_mem_cons]
    split
    next h => rw [ih, and_iff_right h]
    next h => exact ⟨nofun, fun hc => absurd hc.1 h⟩

theorem references_toArray {decls : List TypeDecl} {id : TypeId} {decl : TypeDecl}
    (h : decls[id]? = some decl) : references decls.toArray id = decl.layout.references := by
  simp [references, h]

theorem refers_toArray {decls : List TypeDecl} (h : Numbered decls) {child parent : TypeId} :
    TypeTable.Refers decls.toArray child parent ↔ RefersAmong decls child parent := by
  constructor
  · intro hr
    unfold Refers references at hr
    split at hr
    next decl hd =>
      rw [List.getElem?_toArray] at hd
      obtain ⟨hm, hid⟩ := h.getElem?_eq.mp hd
      exact ⟨decl, hm, hid, hr⟩
    next => simp at hr
  · intro hr
    obtain ⟨decl, hm, hid, hc⟩ := hr
    have hd := h.getElem?_eq.mpr ⟨hm, hid⟩
    unfold Refers
    rwa [references_toArray hd]

end TypeTable

end CallWire
