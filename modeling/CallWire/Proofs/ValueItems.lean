import CallWire.Proofs.ValueAccounts
import CallWire.Proofs.ValueBuilt
import CallWire.Proofs.ValueNodes

namespace CallWire

namespace Value

mutual

/-- How many items the vectors in a value hold together, at every depth. -/
def vectorItems : Value → Nat
  | vector _ items => items.length + vectorItemsAll items
  | array _ _ items => vectorItemsAll items
  | struct fields => vectorItemsAll fields
  | tuple fields => vectorItemsAll fields
  | enum _ _ payload => vectorItemsAll payload
  | _ => 0

def vectorItemsAll : List Value → Nat
  | [] => 0
  | v :: vs => vectorItems v + vectorItemsAll vs

end

theorem vectorItemsAll_eq_sum (vs : List Value) :
    vectorItemsAll vs = (vs.map vectorItems).sum := by
  induction vs with
  | nil => rfl
  | cons v vs ih => rw [vectorItemsAll, ih, List.map_cons, List.sum_cons]

theorem fields_vectorItems_accounts {vs : List Value}
    (h : ∀ v ∈ vs, Affords vectorItems (fun _ => 0) v) :
    (scanAll vs).Accounts fun ws bytes charged =>
      vectorItemsAll ws + minSizes vs 0 ≤ 0 + bytes + charged := by
  refine (scan_fields_accounts h).mono fun ws bytes charged hws => ?_
  rw [vectorItemsAll_eq_sum]
  simpa using hws

/-- Each item of a vector is paid for: it takes at least a byte, or it is charged for. -/
theorem Sound.affords_vectorItems {v : Value} (hv : Sound v) :
    Affords vectorItems (fun _ => 0) v := by
  induction hv with
  | bool b =>
    exact Sound.affords_leaf (.bool b) rfl Scan.bool_elementary (fun _ => Nat.le.refl)
  | text s =>
    exact Sound.affords_leaf (.text s) rfl Scan.text_elementary (fun _ => Nat.le.refl)
  | word n =>
    refine Sound.affords_leaf (.word n) rfl ?_ (fun _ => Nat.le.refl)
    exact Word.scan_elementary n.width n.signed
  | varint n =>
    refine Sound.affords_leaf (.varint n) rfl ?_ (fun _ => Nat.le.refl)
    exact Varint.scan_elementary n.width
  | @vector t items _ _ _ _ ih =>
    refine (scan_vector_accounts items ih).mono fun w bytes charged hw => ?_
    obtain ⟨ws, rfl, hsum⟩ := hw
    have hitem : ws.length ≤ ws.length * t.nodes := Nat.le_mul_of_pos_right _ (nodes_pos t)
    rw [vectorItems, vectorItemsAll_eq_sum, minSize]
    omega
  | @array t n items _ _ hl _ _ ih =>
    refine (scan_array_accounts n items ih).mono fun w bytes charged hw => ?_
    obtain ⟨ws, rfl, _, hsum⟩ := hw
    have hsize : Count.mul n t.minSize ≤ items.length * t.minSize := hl ▸ Nat.min_le_left _ _
    rw [vectorItems, vectorItemsAll_eq_sum, minSize]
    omega
  | struct _ ih => exact (fields_vectorItems_accounts ih).map fun ws bytes charged hws => hws
  | tuple _ ih => exact (fields_vectorItems_accounts ih).map fun ws bytes charged hws => hws
  | @enum variants tag _ payload _ _ _ _ _ _ ih =>
    refine (scan_enum_accounts tag payload ih).mono fun w bytes charged hw => ?_
    obtain ⟨chosen, fields, ws, n, _, rfl, rfl, hsum⟩ := hw
    have hnone : (fields.map fun _ => 0).sum = 0 := by simp
    rw [vectorItems, vectorItemsAll_eq_sum, minSize]
    omega

/-- Whatever lengths the bytes tell, a decoding under a limit of nodes makes no more vector items
than it reads bytes and charges nodes. -/
theorem Built.vectorItems_of_refill {t v : Value} {c c' : Cursor} {m : Nat} (ht : Built t)
    (hz : c.expansion = 0) (hm : c.limits.expansion = some m) (hlt : m < Count.max)
    (h : t.refill c = ⟨v, none, c'⟩) :
    ∃ consumed, c'.position = c.position + consumed ∧
      v.vectorItems ≤ consumed + c'.expansion ∧ v.vectorItems ≤ c.rest.length + m := by
  obtain ⟨consumed, charged, hspends, hitems⟩ :=
    ht.sound.affords_vectorItems _ _ _ (ht.sound.scan_of_refill h)
  have hpaid : v.vectorItems + t.minSize ≤ 0 + consumed + charged := hitems
  have hbounded : c'.expansion ≤ m := hspends.bounded m hm (by omega)
  have hexact := hspends.expansion (by omega)
  have hrest := hspends.rest
  exact ⟨consumed, hspends.position, by omega, by omega⟩

def emptyRows : Value := newVector (newVector (tuple []))

/-- Three bytes that stand for five items. -/
theorem vectorItems_of_refill_rows :
    let c := Cursor.start [8, 4, 8] ⟨none, none, none, some 6⟩
    let v := vector (vector (tuple []) [])
      [vector (tuple []) [tuple []], vector (tuple []) [tuple [], tuple []]]
    let c' : Cursor := ⟨[], 3, 5, c.limits⟩
    emptyRows.refill c = ⟨v, none, c'⟩ ∧ v.vectorItems = 5 ∧
      ∃ consumed, 3 = 0 + consumed ∧ v.vectorItems ≤ consumed + 5 ∧ v.vectorItems ≤ 3 + 6 := by
  intro c v c'
  have hbuilt : Built emptyRows := .newVector (.newVector (.tuple nofun))
  have hdecoded : emptyRows.refill c = ⟨v, none, c'⟩ := rfl
  exact ⟨hdecoded, rfl, hbuilt.vectorItems_of_refill rfl rfl (by decide) hdecoded⟩

end Value

end CallWire
