import CallWire.Document
import CallWire.Proofs.InterfaceAccepted

namespace CallWire

theorem TypeTable.checkIds_congr {decls others : List TypeDecl} {position : Nat}
    (h : decls.map TypeDecl.id = others.map TypeDecl.id) :
    checkIds position decls = checkIds position others := by
  induction decls generalizing others position with
  | nil =>
    cases List.map_eq_nil_iff.mp h.symm
    rfl
  | cons decl decls ih =>
    obtain ⟨other, others, rfl, hid, hids⟩ := List.map_eq_cons_iff.mp h.symm
    rw [checkIds, checkIds, hid, ih hids.symm]

namespace Interface

variable {types others : List TypeDecl} {methods : List Method} {contract : Option Contract}

theorem perm_inOrder (h : types.Perm others) : (inOrder types).Perm (inOrder others) :=
  (List.mergeSort_perm types _).trans (h.trans (List.mergeSort_perm others _).symm)

/-- The numbers come out in the same order even when some of them come more than once. -/
theorem ids_inOrder (h : types.Perm others) :
    (inOrder types).map TypeDecl.id = (inOrder others).map TypeDecl.id :=
  List.Perm.eq_of_pairwise (fun _ _ _ _ => Nat.le_antisymm)
    (List.pairwise_map.mpr (TypeTable.mergeSort_sorted types))
    (List.pairwise_map.mpr (TypeTable.mergeSort_sorted others))
    ((perm_inOrder h).map TypeDecl.id)

theorem inOrder_eq (h : types.Perm others) (hn : Numbered (inOrder types)) :
    inOrder types = inOrder others := by
  refine List.Perm.eq_of_pairwise ?_ (TypeTable.mergeSort_sorted types)
    (TypeTable.mergeSort_sorted others) (perm_inOrder h)
  intro a b ha hb hab hba
  exact hn.eq_of_id_eq ha ((perm_inOrder h).mem_iff.mpr hb) (Nat.le_antisymm hab hba)

/-- What is checked once the types are in order. -/
def ofOrdered (decls : List TypeDecl) (methods : List Method) (contract : Option Contract) :
    Except Fault Interface := do
  let count := decls.length
  TypeTable.checkIds 0 decls
  TypeTable.checkDecls count decls
  let acyclic ← acyclicity decls.toArray
  checkMethods count [] methods
  let constructor? ← constructorOf count contract
  return ⟨contract, decls.toArray, methods, constructor?, acyclic.down⟩

theorem ofParts_eq_ofOrdered : ofParts types methods contract =
    ofOrdered (inOrder types) methods contract := rfl

theorem ofOrdered_of_misnumbered {decls : List TypeDecl} {f : Fault}
    (h : TypeTable.checkIds 0 decls = .error f) : ofOrdered decls methods contract = .error f :=
  bind_eq_error.mpr (.inl h)

/-- Types in another order make the same interface, or are refused over the same fault. -/
theorem ofParts_perm (h : types.Perm others) :
    ofParts types methods contract = ofParts others methods contract := by
  rw [ofParts_eq_ofOrdered, ofParts_eq_ofOrdered]
  cases hids : TypeTable.checkIds 0 (inOrder types) with
  | ok u => rw [inOrder_eq h (TypeTable.checkIds_zero_eq_ok.mp hids)]
  | error f =>
    have hothers := hids
    rw [TypeTable.checkIds_congr (ids_inOrder h)] at hothers
    rw [ofOrdered_of_misnumbered hids, ofOrdered_of_misnumbered hothers]

end Interface

namespace JsonText

variable {items others : List JsonText} {j k : JsonText}

/-- Two documents that differ only in the lists that they give as their types. As an array a
document gives its types in the third place. -/
inductive TypesReplaced (items others : List JsonText) : JsonText → JsonText → Prop where
  | object {before after : List (JsonQuoted × JsonText)} {key : JsonQuoted}
      (h : unquote key = some "types") :
      TypesReplaced items others (object (before ++ (key, array items) :: after))
        (object (before ++ (key, array others) :: after))
  | array {contract methods : JsonText} {rest : List JsonText} :
      TypesReplaced items others (array (contract :: methods :: array items :: rest))
        (array (contract :: methods :: array others :: rest))

def keyed (members : List (JsonQuoted × JsonText)) : Option (List (String × JsonText)) :=
  members.mapM fun (key, j) => (unquote key).map (·, j)

def partsOf (names : List String) (keyed : List (String × JsonText)) :
    Option (List (Option JsonText)) :=
  let declared := (keyed.map (·.1)).filter names.contains
  if declared.eraseDups.length = declared.length then
    some (names.map fun name => (keyed.find? (·.1 == name)).map (·.2))
  else none

theorem parts_object {names : List String} {members : List (JsonQuoted × JsonText)} :
    parts names (object members) = (keyed members).bind (partsOf names) := rfl

theorem keyed_append_cons {before after : List (JsonQuoted × JsonText)} {key : JsonQuoted}
    {name : String} (h : unquote key = some name) :
    keyed (before ++ (key, j) :: after) = (keyed before).bind fun xs =>
      (keyed after).bind fun ys => some (xs ++ (name, j) :: ys) := by
  simp only [keyed, List.mapM_append, List.mapM_cons, h, Option.map_some]
  cases before.mapM fun (key, j) => (unquote key).map (·, j) with
  | none => rfl
  | some xs =>
    cases after.mapM fun (key, j) => (unquote key).map (·, j) with
    | none => rfl
    | some ys => rfl

/-- Parts of two documents, the same but for the types. -/
inductive PartsReplaced (j k : JsonText) :
    List (Option JsonText) → List (Option JsonText) → Prop where
  | same {contract methods types : Option JsonText} :
      PartsReplaced j k [contract, methods, types] [contract, methods, types]
  | types {contract methods : Option JsonText} :
      PartsReplaced j k [contract, methods, some j] [contract, methods, some k]

theorem partsOf_replaced {before after : List (String × JsonText)} :
    Option.Rel (PartsReplaced j k)
      (partsOf ["contract", "methods", "types"] (before ++ ("types", j) :: after))
      (partsOf ["contract", "methods", "types"] (before ++ ("types", k) :: after)) := by
  have hnames : (before ++ ("types", k) :: after).map (·.1) =
      (before ++ ("types", j) :: after).map (·.1) := by
    rw [List.map_append, List.map_append, List.map_cons, List.map_cons]
  rw [partsOf, partsOf, hnames]
  split
  next =>
    refine .some ?_
    cases hb : before.find? (·.1 == "types") with
    | none => simpa [List.find?_append, hb] using .types
    | some found => simpa [List.find?_append, hb] using .same
  next => exact .none

theorem parts_replaced (h : TypesReplaced items others j k) :
    Option.Rel (PartsReplaced (array items) (array others))
      (parts ["contract", "methods", "types"] j) (parts ["contract", "methods", "types"] k) := by
  cases h with
  | @object before after key hkey =>
    rw [parts_object, parts_object, keyed_append_cons hkey, keyed_append_cons hkey]
    cases keyed before with
    | none => exact .none
    | some xs =>
      cases keyed after with
      | none => exact .none
      | some ys => exact partsOf_replaced
  | @array contract methods rest =>
    cases rest with
    | nil => exact .some .types
    | cons j rest => simpa [parts] using .none

end JsonText

namespace Document

open JsonText

def ofParts? : List (Option JsonText) → Option Document
  | [contract, methods, types] =>
    (optional contract? contract).bind fun c =>
      (partOr [] (list? method?) methods).bind fun ms =>
        (partOr [] (list? typeEntry?) types).bind fun es => some ⟨c, ms, es⟩
  | _ => none

theorem ofText?_eq {j : JsonText} :
    ofText? j = (parts ["contract", "methods", "types"] j).bind ofParts? := by
  rfl

theorem ofParts?_eq_some {contract methods types : Option JsonText} {d : Document} :
    ofParts? [contract, methods, types] = some d ↔ optional contract? contract = some d.contract ∧
      partOr [] (list? method?) methods = some d.methods ∧
      partOr [] (list? typeEntry?) types = some d.types := by
  obtain ⟨c, ms, es⟩ := d
  simp [ofParts?, Option.bind_eq_some_iff]

/-- A document with its types in another order is read as the same but for the order of entries. -/
theorem ofText?_replaced {items others : List JsonText} {j k : JsonText} {d : Document}
    (h : TypesReplaced items others j k) (hperm : items.Perm others) (hd : ofText? j = some d) :
    ∃ entries, d.types.Perm entries ∧ ofText? k = some ⟨d.contract, d.methods, entries⟩ := by
  have hparts := parts_replaced h
  rw [ofText?_eq] at hd ⊢
  generalize parts ["contract", "methods", "types"] j = ps at hparts hd
  generalize parts ["contract", "methods", "types"] k = qs at hparts ⊢
  cases hparts with
  | none => cases hd
  | some hparts =>
    cases hparts with
    | same => exact ⟨d.types, .refl _, hd⟩
    | @types contract methods =>
      obtain ⟨hcontract, hmethods, hentries⟩ := ofParts?_eq_some.mp hd
      obtain ⟨entries, hothers, hentries⟩ := mapM_perm_some hperm hentries
      exact ⟨entries, hentries, ofParts?_eq_some.mpr ⟨hcontract, hmethods, hothers⟩⟩

end Document

namespace Interface

open JsonText Document

theorem ofDocument_perm {entries others : List TypeEntry} {methods : List Method}
    {contract : Option Contract} (h : entries.Perm others)
    (hdecl : ∀ e ∈ entries, ∃ decl, e.decl = .ok decl) :
    ofDocument ⟨contract, methods, entries⟩ = ofDocument ⟨contract, methods, others⟩ := by
  obtain ⟨decls, hdecls⟩ := exists_mapM hdecl
  obtain ⟨decls', hdecls', hperm⟩ := mapM_perm h hdecls
  rw [ofDocument, ofDocument, hdecls, hdecls']
  exact ofParts_perm hperm

theorem ofBytes_of_document {words : Bytes → String} {bytes : Bytes} {j : JsonText} {d : Document}
    (hj : JsonText.parse bytes = some j) (hd : ofText? j = some d) :
    ofBytes words bytes = ofDocument d := by
  rw [ofBytes, hj, Option.bind_some, hd]

/-- Neither the types nor the entries of a document come in an order that is seen in the interface,
or in the fault it is refused over. -/
theorem same_of_reordered :
    (∀ (types others : List TypeDecl) (methods : List Method) (contract : Option Contract),
      types.Perm others → ofParts types methods contract = ofParts others methods contract) ∧
    (∀ (entries others : List TypeEntry) (methods : List Method) (contract : Option Contract),
      entries.Perm others → (∀ e ∈ entries, ∃ decl, e.decl = .ok decl) →
      ofDocument ⟨contract, methods, entries⟩ = ofDocument ⟨contract, methods, others⟩) ∧
    ∀ (words : Bytes → String) (bytes bytes' : Bytes) (j k : JsonText)
      (items others : List JsonText) (d : Document),
      JsonText.parse bytes = some j → JsonText.parse bytes' = some k →
      TypesReplaced items others j k → items.Perm others →
      Document.ofText? j = some d → (∀ e ∈ d.types, ∃ decl, e.decl = .ok decl) →
      ofBytes words bytes = ofBytes words bytes' := by
  refine ⟨fun _ _ _ _ => ofParts_perm, fun _ _ _ _ => ofDocument_perm, ?_⟩
  intro words bytes bytes' j k items others d hj hk h hperm hd hdecl
  obtain ⟨entries, hentries, hd'⟩ := ofText?_replaced h hperm hd
  rw [ofBytes_of_document hj hd, ofBytes_of_document hk hd']
  exact ofDocument_perm hentries hdecl

/-- Two types under one number. -/
def doubled : List TypeEntry :=
  [⟨1, "Vec", none, [0], none, none⟩, ⟨1, "tuple", none, [], none, none⟩]

theorem same_of_reordered_pair :
    ofParts [⟨0, .tuple []⟩, ⟨0, .vector 1⟩] [] none =
      ofParts [⟨0, .vector 1⟩, ⟨0, .tuple []⟩] [] none ∧
    ofDocument ⟨none, [], doubled⟩ = ofDocument ⟨none, [], doubled.reverse⟩ ∧
    ofBytes (fun _ => "") (Utf8.encode "[null, [], [[1, \"vec\", null, [0]], [0, \"tuple\"]]]") =
      ofBytes (fun _ => "")
        (Utf8.encode "[null, [], [[0, \"tuple\"], [1, \"vec\", null, [0]]]]") := by
  obtain ⟨hparts, hdocument, hbytes⟩ := same_of_reordered
  refine ⟨hparts _ _ _ _ (.swap ..), hdocument _ _ _ _ (.swap ..) ?_, ?_⟩
  · refine List.forall_mem_cons.mpr ⟨⟨_, rfl⟩, ?_⟩
    exact List.forall_mem_singleton.mpr ⟨_, rfl⟩
  · refine hbytes _ _ _ _ _ [_, _] [_, _] _ rfl rfl .array (.swap ..) rfl ?_
    refine List.forall_mem_cons.mpr ⟨⟨_, rfl⟩, ?_⟩
    exact List.forall_mem_singleton.mpr ⟨_, rfl⟩

end Interface

end CallWire
