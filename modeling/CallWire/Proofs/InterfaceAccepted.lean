import CallWire.Proofs.InterfaceChecks

namespace CallWire

/-- What types, methods and a contract have to be for an interface to be made of them. -/
structure WellFormed (types : List TypeDecl) (methods : List Method)
    (contract : Option Contract) : Prop where
  ids : (types.map TypeDecl.id).Perm (List.range types.length)
  references : ∀ decl ∈ types, ∀ child ∈ decl.layout.references, child < types.length
  arrays : ∀ decl ∈ types, ∀ element length, decl.layout = .array element length →
    length ≤ maxArrayLength
  enums : ∀ decl ∈ types, ∀ variants, decl.layout = .enum variants →
    1 ≤ variants.length ∧ variants.length ≤ maxVariants
  acyclic : ∀ id, ¬ Relation.TransGen (RefersAmong types) id id
  nodes : ∀ decl ∈ types, ∃ n ≤ maxTypeNodes, HasNodes types decl.id n
  named : ∀ m ∈ methods, m.name ≠ ""
  distinct : (methods.map Method.name).Nodup
  methodReferences : ∀ m ∈ methods, ∀ id ∈ m.inputs ++ m.outputs, id < types.length
  constructorReferences : ∀ c, contract = some c → ∀ inputs, c.constructorInputs = some inputs →
    ∀ id ∈ inputs, id < types.length

namespace Interface

variable {types : List TypeDecl} {methods : List Method} {contract : Option Contract}
  {i : Interface}

/-- The types in the order of their numbers. -/
def inOrder (types : List TypeDecl) : List TypeDecl :=
  types.mergeSort fun a b => decide (a.id ≤ b.id)

theorem mem_inOrder {decl : TypeDecl} : decl ∈ inOrder types ↔ decl ∈ types := List.mem_mergeSort

theorem length_inOrder (types : List TypeDecl) : (inOrder types).length = types.length :=
  List.length_mergeSort types

theorem checkDecls_inOrder {u : Unit} :
    TypeTable.checkDecls (inOrder types).length (inOrder types) = .ok u ↔
      ∀ decl ∈ types, decl.Sized ∧ ∀ child ∈ decl.layout.references, child < types.length := by
  rw [TypeTable.checkDecls_eq_ok, length_inOrder]
  exact forall_congr' fun decl => imp_congr_left mem_inOrder

theorem checkMethods_nil {count : Nat} {u : Unit} : checkMethods count [] methods = .ok u ↔
    (∀ m ∈ methods, m.name ≠ "" ∧ ∀ id ∈ m.inputs ++ m.outputs, id < count) ∧
      (methods.map Method.name).Nodup := by
  simp only [checkMethods_eq_ok, List.not_mem_nil, not_false_eq_true, true_and]

/-- An interface is made just when each check passes, and it keeps what it was made of. -/
theorem ofParts_eq_ok : ofParts types methods contract = .ok i ↔
    Numbered (inOrder types) ∧
    (∀ decl ∈ types, decl.Sized ∧ ∀ child ∈ decl.layout.references, child < types.length) ∧
    ((∀ m ∈ methods, m.name ≠ "" ∧ ∀ id ∈ m.inputs ++ m.outputs, id < types.length) ∧
      (methods.map Method.name).Nodup) ∧
    ∃ acyclic, acyclicity (inOrder types).toArray = .ok acyclic ∧
    ∃ m, constructorOf types.length contract = .ok m ∧
      ⟨contract, (inOrder types).toArray, methods, m, acyclic.down⟩ = i := by
  unfold ofParts
  constructor
  · intro h
    obtain ⟨_, hids, h⟩ := bind_eq_ok.mp h
    obtain ⟨_, hdecls, h⟩ := bind_eq_ok.mp h
    obtain ⟨acyclic, ha, h⟩ := bind_eq_ok.mp h
    obtain ⟨_, hmethods, h⟩ := bind_eq_ok.mp h
    obtain ⟨m, hm, h⟩ := bind_eq_ok.mp h
    rw [List.length_mergeSort] at hmethods hm
    have hnumbered := TypeTable.checkIds_zero_eq_ok.mp hids
    have hsized := checkDecls_inOrder.mp hdecls
    have hnamed := checkMethods_nil.mp hmethods
    exact ⟨hnumbered, hsized, hnamed, acyclic, ha, m, hm, pure_eq_ok.mp h⟩
  · intro h
    obtain ⟨hids, hdecls, hmethods, acyclic, ha, m, hm, h⟩ := h
    rw [← length_inOrder types] at hmethods hm
    refine bind_eq_ok.mpr ⟨(), TypeTable.checkIds_zero_eq_ok.mpr hids, ?_⟩
    refine bind_eq_ok.mpr ⟨(), checkDecls_inOrder.mpr hdecls, ?_⟩
    refine bind_eq_ok.mpr ⟨acyclic, ha, ?_⟩
    refine bind_eq_ok.mpr ⟨(), checkMethods_nil.mpr hmethods, ?_⟩
    exact bind_eq_ok.mpr ⟨m, hm, pure_eq_ok.mpr h⟩

theorem closed_inOrder (hids : Numbered (inOrder types))
    (hrefs : ∀ decl ∈ types, ∀ child ∈ decl.layout.references, child < types.length) :
    Walk.Closed (inOrder types).toArray := by
  refine ⟨hids, ?_⟩
  intro id c hc
  obtain ⟨decl, hd, _, hm⟩ := (TypeTable.refers_toArray hids).mp hc
  rw [List.size_toArray, length_inOrder]
  exact hrefs decl (mem_inOrder.mp hd) c hm

theorem refers_inOrder (hids : Numbered (inOrder types)) :
    TypeTable.Refers (inOrder types).toArray = RefersAmong types := by
  funext child parent
  apply propext
  rw [TypeTable.refers_toArray hids]
  exact ⟨.mono fun _ => mem_inOrder.mp, .mono fun _ => mem_inOrder.mpr⟩

theorem hasNodes_inOrder {id : TypeId} {n : Nat} :
    HasNodes (inOrder types) id n ↔ HasNodes types id n :=
  ⟨.mono fun _ => mem_inOrder.mp, .mono fun _ => mem_inOrder.mpr⟩

theorem acyclicity_inOrder (hids : Numbered (inOrder types))
    (hrefs : ∀ decl ∈ types, ∀ child ∈ decl.layout.references, child < types.length) :
    (∃ acyclic, acyclicity (inOrder types).toArray = .ok acyclic) ↔
      (∀ id, ¬ Relation.TransGen (RefersAmong types) id id) ∧
        ∀ decl ∈ types, ∃ n ≤ maxTypeNodes, HasNodes types decl.id n := by
  rw [acyclicity_ok (closed_inOrder hids hrefs), refers_inOrder hids]
  simp only [hasNodes_inOrder, mem_inOrder]

theorem ofParts_ok_iff :
    (∃ i, ofParts types methods contract = .ok i) ↔ WellFormed types methods contract := by
  constructor
  · intro hok
    obtain ⟨i, h⟩ := hok
    obtain ⟨hids, hdecls, ⟨hmethods, hdistinct⟩, acyclic, ha, m, hm, _⟩ := ofParts_eq_ok.mp h
    have hperm := TypeTable.numbered_mergeSort.mp hids
    have hsized : ∀ decl ∈ types, decl.Sized := fun decl hd => (hdecls decl hd).1
    have hrefs : ∀ decl ∈ types, ∀ child ∈ decl.layout.references, child < types.length :=
      fun decl hd => (hdecls decl hd).2
    obtain ⟨hacyclic, hnodes⟩ := (acyclicity_inOrder hids hrefs).mp ⟨acyclic, ha⟩
    have hconstructor := constructorOf_ok.mp ⟨m, hm⟩
    exact ⟨hperm, hrefs, fun decl hd => (hsized decl hd).array,
      fun decl hd => (hsized decl hd).enum, hacyclic, hnodes, fun m hm => (hmethods m hm).1,
      hdistinct, fun m hm => (hmethods m hm).2, hconstructor⟩
  · intro h
    have hids : Numbered (inOrder types) := TypeTable.numbered_mergeSort.mpr h.ids
    obtain ⟨acyclic, ha⟩ := (acyclicity_inOrder hids h.references).mpr ⟨h.acyclic, h.nodes⟩
    obtain ⟨m, hm⟩ := constructorOf_ok.mpr h.constructorReferences
    refine ⟨_, ofParts_eq_ok.mpr ⟨hids, ?_, ⟨?_, h.distinct⟩, acyclic, ha, m, hm, rfl⟩⟩
    · exact fun decl hd => ⟨⟨h.arrays decl hd, h.enums decl hd⟩, h.references decl hd⟩
    · exact fun m hm => ⟨h.named m hm, h.methodReferences m hm⟩

/-- Parts that are in order pass when the walk over their types is known. -/
theorem ofParts_of_survey {decls : List TypeDecl} {marks : Array Mark} {m : Option Method}
    (horder : inOrder types = decls) (hids : TypeTable.checkIds 0 decls = .ok ())
    (hdecls : TypeTable.checkDecls decls.length decls = .ok ())
    (hsurvey : Walk.survey decls.toArray = .ok marks)
    (hmethods : checkMethods decls.length [] methods = .ok ())
    (hconstructor : constructorOf decls.length contract = .ok m) :
    ofParts types methods contract = .ok ⟨contract, decls.toArray, methods, m,
      Walk.wellFounded_of_survey hsurvey⟩ := by
  subst horder
  unfold ofParts
  refine bind_eq_ok.mpr ⟨(), hids, bind_eq_ok.mpr ⟨(), hdecls, ?_⟩⟩
  refine bind_eq_ok.mpr ⟨_, acyclicity_of_survey hsurvey, ?_⟩
  exact bind_eq_ok.mpr ⟨(), hmethods, bind_eq_ok.mpr ⟨m, hconstructor, rfl⟩⟩

theorem resolve_eq_ok (h : ofParts types methods contract = .ok i) {id : TypeId}
    {decl : TypeDecl} : i.resolve id = .ok decl ↔ decl ∈ types ∧ decl.id = id := by
  obtain ⟨hids, _, _, acyclic, _, m, _, rfl⟩ := ofParts_eq_ok.mp h
  rw [← mem_inOrder, ← hids.getElem?_eq]
  unfold resolve
  rw [List.getElem?_toArray]
  split
  next d hd => simp [hd]
  next hd => simp [hd]

theorem exists_resolve (h : ofParts types methods contract = .ok i) {id : TypeId}
    (hid : id < types.length) : ∃ decl, i.resolve id = .ok decl := by
  obtain ⟨hids, _⟩ := ofParts_eq_ok.mp h
  obtain ⟨decl, hd, rfl⟩ := hids.exists_decl (by rwa [length_inOrder])
  exact ⟨decl, (resolve_eq_ok h).mpr ⟨mem_inOrder.mp hd, rfl⟩⟩

theorem resolve_of_le (h : ofParts types methods contract = .ok i) {id : TypeId}
    (hid : types.length ≤ id) : i.resolve id = .error (.unknownType id) := by
  obtain ⟨_, _, _, acyclic, _, m, _, rfl⟩ := ofParts_eq_ok.mp h
  have hnone : (inOrder types)[id]? = none :=
    List.getElem?_eq_none (by rw [length_inOrder]; exact hid)
  simp only [resolve, List.getElem?_toArray, hnone]

theorem method_eq_ok (h : ofParts types methods contract = .ok i) {name : String} {m : Method} :
    i.method name = .ok m ↔ m ∈ methods ∧ m.name = name := by
  obtain ⟨_, _, ⟨_, hdistinct⟩, acyclic, _, _, _, rfl⟩ := ofParts_eq_ok.mp h
  unfold method
  split
  next found hf =>
    have hmem := List.mem_of_find?_eq_some hf
    have hname : found.name = name := by simpa using List.find?_some hf
    rw [Except.ok.injEq]
    constructor
    · intro hsame
      rw [← hsame]
      exact ⟨hmem, hname⟩
    · intro hfound
      obtain ⟨hm, he⟩ := hfound
      have hnames : found.name = m.name := hname.trans he.symm
      exact List.inj_on_of_nodup_map hdistinct hmem hm hnames
  next hf =>
    refine ⟨nofun, ?_⟩
    intro hfound
    obtain ⟨hm, he⟩ := hfound
    have hne : m.name ≠ name := by simpa using List.find?_eq_none.mp hf m hm
    exact absurd he hne

theorem method_of_absent (h : ofParts types methods contract = .ok i) {name : String}
    (hn : ∀ m ∈ methods, m.name ≠ name) : i.method name = .error (.unknownMethod name) := by
  obtain ⟨_, _, _, acyclic, _, _, _, rfl⟩ := ofParts_eq_ok.mp h
  have hnone : methods.find? (·.name == name) = none := by simpa using hn
  simp only [method, hnone]

/-- An interface is made of well-formed parts and of no others, and it finds each type by its
number and each method by its name. -/
theorem ofParts_accepts (types : List TypeDecl) (methods : List Method)
    (contract : Option Contract) :
    ((∃ i, ofParts types methods contract = .ok i) ↔ WellFormed types methods contract) ∧
    ∀ i, ofParts types methods contract = .ok i →
      (∀ id < types.length, ∃ decl ∈ types, decl.id = id ∧ i.resolve id = .ok decl) ∧
      (∀ id, types.length ≤ id → i.resolve id = .error (.unknownType id)) ∧
      i.methods = methods ∧
      (∀ name m, i.method name = .ok m ↔ m ∈ methods ∧ m.name = name) ∧
      ∀ name, (∀ m ∈ methods, m.name ≠ name) → i.method name = .error (.unknownMethod name) := by
  refine ⟨ofParts_ok_iff, ?_⟩
  intro i h
  refine ⟨?_, fun id => resolve_of_le h, ?_, fun name m => method_eq_ok h,
    fun name => method_of_absent h⟩
  · intro id hid
    obtain ⟨hids, _⟩ := ofParts_eq_ok.mp h
    obtain ⟨decl, hd, rfl⟩ := hids.exists_decl (by rwa [length_inOrder])
    rw [mem_inOrder] at hd
    exact ⟨decl, hd, rfl, (resolve_eq_ok h).mpr ⟨hd, rfl⟩⟩
  · obtain ⟨_, _, _, acyclic, _, m, _, rfl⟩ := ofParts_eq_ok.mp h
    rfl

def sampleTypes : List TypeDecl :=
  [⟨2, .struct [1, 0]⟩, ⟨0, .primitive .bool⟩, ⟨1, .enum [[], [0]]⟩]

def sampleMethods : List Method := [⟨"store", [2, 0], []⟩]

def sampleMarks : Array Mark := #[.done 1, .done 2, .done 4]

def sampleTable : TypeTable :=
  #[⟨0, .primitive .bool⟩, ⟨1, .enum [[], [0]]⟩, ⟨2, .struct [1, 0]⟩]

theorem survey_sampleTable : Walk.survey sampleTable = .ok sampleMarks := by cbv

def sampleInterface : Interface :=
  ⟨none, sampleTable, sampleMethods, none, Walk.wellFounded_of_survey survey_sampleTable⟩

theorem ofParts_sample : ofParts sampleTypes sampleMethods none = .ok sampleInterface := by
  have horder : inOrder sampleTypes =
      [⟨0, .primitive .bool⟩, ⟨1, .enum [[], [0]]⟩, ⟨2, .struct [1, 0]⟩] := by cbv
  exact ofParts_of_survey horder rfl rfl survey_sampleTable (by cbv) rfl

theorem ofParts_accepts_sample :
    WellFormed sampleTypes sampleMethods none ∧
      sampleInterface.resolve 3 = .error (.unknownType 3) ∧
      sampleInterface.method "store" = .ok ⟨"store", [2, 0], []⟩ := by
  obtain ⟨hiff, hfound⟩ := ofParts_accepts sampleTypes sampleMethods none
  obtain ⟨_, hunknown, _, hmethod, _⟩ := hfound sampleInterface ofParts_sample
  have hstore : (⟨"store", [2, 0], []⟩ : Method) ∈ sampleMethods := List.mem_singleton_self _
  exact ⟨hiff.mp ⟨sampleInterface, ofParts_sample⟩, hunknown 3 (Nat.le_refl 3),
    (hmethod _ _).mpr ⟨hstore, rfl⟩⟩

end Interface

end CallWire
