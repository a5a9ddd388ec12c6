import CallWire.Proofs.ValueAccounts

namespace CallWire

namespace Value

mutual

/-- The nodes that a value is charged with when it is decoded. For each item of a vector these
are as many as its element has beyond its fewest bytes. -/
def charge : Value → Nat
  | vector t items => items.length * (t.nodes - t.minSize) + chargeAll items
  | array _ _ items => chargeAll items
  | struct fields => chargeAll fields
  | tuple fields => chargeAll fields
  | enum _ _ payload => chargeAll payload
  | _ => 0

def chargeAll : List Value → Nat
  | [] => 0
  | v :: vs => charge v + chargeAll vs

end

/-- Decoding charges what it says of the value that it gives. -/
def Charged (v : Value) : Prop := (scan v).Accounts fun w _ charged => charged = w.charge

theorem leaf_charged {α : Type} {v : Value} {step : Scan α} {leaf : α → Value}
    (hs : scan v = leaf <$> step) (he : step.Elementary) (hleaf : ∀ a, (leaf a).charge = 0) :
    Charged v := by
  unfold Charged
  rw [hs]
  exact he.accounts.map fun a _ charged h => h.trans (hleaf a).symm

theorem scanAll_charged {vs : List Value} (h : ∀ v ∈ vs, Charged v) :
    (scanAll vs).Accounts fun ws _ charged => ws.length = vs.length ∧ charged = chargeAll ws := by
  induction vs with
  | nil => exact .pure ⟨rfl, rfl⟩
  | cons v vs ih =>
    obtain ⟨hv, hvs⟩ := List.forall_mem_cons.mp h
    rw [scanAll]
    refine hv.bind fun w m k hw => (ih hvs).bind fun ws n l hws => .pure ?_
    obtain ⟨hlen, hcharge⟩ := hws
    refine ⟨congrArg Nat.succ hlen, ?_⟩
    rw [hw, hcharge, chargeAll, Nat.add_zero]

theorem times_charged {t : Value} (h : Charged t) (n : Nat) :
    (Scan.times (scan t) n).Accounts fun ws _ charged =>
      ws.length = n ∧ charged = chargeAll ws := by
  rw [times_eq_scanAll_replicate]
  have hall : ∀ v ∈ List.replicate n t, Charged v := by
    intro v hv
    rw [List.eq_of_mem_replicate hv]
    exact h
  refine (scanAll_charged hall).mono fun ws _ charged hws => ?_
  rwa [List.length_replicate] at hws

theorem scan_charged (v : Value) : Charged v := by
  induction v using parts_induction with
  | bool b => exact leaf_charged rfl Scan.bool_elementary fun _ => rfl
  | text s => exact leaf_charged rfl Scan.text_elementary fun _ => rfl
  | word n => exact leaf_charged rfl (Word.scan_elementary _ _) fun _ => rfl
  | varint n => exact leaf_charged rfl (Varint.scan_elementary _) fun _ => rfl
  | vector t items ht _ =>
    unfold Charged
    rw [scan, Scan.vectorLength_bind]
    refine Varint.scanLength_elementary.accounts.bind fun n m k hk => .demanding ?_
    refine (Scan.charge_accounts n _).bind fun _ m' k' hcharge => ?_
    refine (times_charged ht n).bind fun ws _ l hws => .pure ?_
    obtain ⟨_, hcharge⟩ := hcharge
    obtain ⟨rfl, hl⟩ := hws
    rw [hk, hcharge, hl, charge, Nat.zero_add, Nat.add_zero]
  | array t n items ht _ =>
    unfold Charged
    rw [scan]
    exact (times_charged ht items.length).map fun ws _ charged hws => hws.2
  | struct fields hf =>
    unfold Charged
    rw [scan]
    exact (scanAll_charged hf).map fun ws _ charged hws => hws.2
  | tuple fields hf =>
    unfold Charged
    rw [scan]
    exact (scanAll_charged hf).map fun ws _ charged hws => hws.2
  | enum variants tag payload hv _ =>
    unfold Charged
    rw [scan]
    refine Scan.byte_accounts.bind fun chosen m k hbyte => .guard fun hlt => ?_
    obtain ⟨_, rfl⟩ := hbyte
    have hget := List.getElem?_eq_getElem (Nat.not_le.mp hlt)
    rw [scanVariant_eq hget]
    refine (scanAll_charged (hv _ (List.mem_of_getElem? hget))).bind fun ws _ l hws => .pure ?_
    rw [hws.2, charge, Nat.zero_add, Nat.add_zero]

end Value

end CallWire
