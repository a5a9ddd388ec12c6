import CallWire.Proofs.ScanAccounts
import CallWire.Proofs.ValueSize

namespace CallWire

namespace Value

variable {measure allowance : Value → Nat}

/-- Every value read by a shape measures, together with the fewest bytes of the shape, no more
than an allowance for the shape, the bytes read and the nodes charged. With the fewest bytes on
the left, a byte that a vector has demanded for an item cannot pay once more within the item. -/
def Affords (measure allowance : Value → Nat) (v : Value) : Prop :=
  (scan v).Accounts fun w bytes charged => measure w + v.minSize ≤ allowance v + bytes + charged

/-- What is read took as many bytes as its shape asks for. -/
theorem Sound.accounts {v : Value} {cost : Value → Nat → Nat → Prop} (hv : Sound v)
    (h : (scan v).Accounts cost) : (scan v).Accounts fun w bytes charged =>
      cost w bytes charged ∧ v.minSize ≤ bytes := by
  refine (h.spelled (scan_spells hv)).mono fun w bytes charged hw => ?_
  obtain ⟨hcost, xs, ⟨hsound, hb, he⟩, rfl⟩ := hw
  have hsize := minSize_eq_of_blank_eq hb
  exact ⟨hcost, hsize ▸ hsound.paid xs he⟩

theorem Sound.affords_leaf {α : Type} {v : Value} {step : Scan α} {leaf : α → Value}
    (hv : Sound v) (hs : scan v = leaf <$> step) (he : step.Elementary)
    (hm : ∀ a, measure (leaf a) ≤ allowance v) : Affords measure allowance v := by
  have hleaf : (scan v).Accounts fun w _ _ => ∃ a, leaf a = w := by
    rw [hs]
    exact he.accounts.map fun a _ _ _ => ⟨a, rfl⟩
  refine (hv.accounts hleaf).mono fun w bytes charged hw => ?_
  obtain ⟨⟨a, rfl⟩, hpaid⟩ := hw
  have hle := hm a
  omega

theorem scanAll_accounts {vs : List Value} (h : ∀ v ∈ vs, Affords measure allowance v) :
    (scanAll vs).Accounts fun ws bytes charged => ws.length = vs.length ∧
      (ws.map measure).sum + (vs.map minSize).sum ≤
        (vs.map allowance).sum + bytes + charged := by
  induction vs with
  | nil => exact .pure ⟨rfl, Nat.zero_le _⟩
  | cons v vs ih =>
    obtain ⟨hv, hvs⟩ := List.forall_mem_cons.mp h
    rw [scanAll]
    refine hv.bind fun w m k hw => (ih hvs).bind fun ws n l hws => .pure ?_
    obtain ⟨hlen, hsum⟩ := hws
    refine ⟨congrArg Nat.succ hlen, ?_⟩
    simp only [List.map_cons, List.sum_cons, Nat.add_zero]
    omega

theorem scan_fields_accounts {vs : List Value} (h : ∀ v ∈ vs, Affords measure allowance v) :
    (scanAll vs).Accounts fun ws bytes charged =>
      (ws.map measure).sum + minSizes vs 0 ≤ (vs.map allowance).sum + bytes + charged := by
  refine (scanAll_accounts h).mono fun ws bytes charged hws => ?_
  have hsize := minSizes_le_sum vs 0
  omega

theorem times_accounts {t : Value} (h : Affords measure allowance t) (n : Nat) :
    (Scan.times (scan t) n).Accounts fun ws bytes charged => ws.length = n ∧
      (ws.map measure).sum + n * t.minSize ≤ n * allowance t + bytes + charged := by
  rw [times_eq_scanAll_replicate]
  have hall : ∀ v ∈ List.replicate n t, Affords measure allowance v := by
    intro v hv
    rw [List.eq_of_mem_replicate hv]
    exact h
  refine (scanAll_accounts hall).mono fun ws bytes charged hws => ?_
  simpa using hws

/-- For each item of a vector the bytes and the charge pay as many nodes as the element has,
whether that has more nodes than bytes or not. -/
theorem scan_vector_accounts {t : Value} (items : List Value) (h : Affords measure allowance t) :
    (scan (vector t items)).Accounts fun w bytes charged => ∃ ws, w = vector t ws ∧
      (ws.map measure).sum + ws.length * t.nodes + 1 ≤
        ws.length * allowance t + bytes + charged := by
  rw [scan, Scan.vectorLength_bind]
  refine (Varint.scanLength_elementary.accounts.spelled Varint.scanLength_spells).bind
    fun len m k hlen => .demanding ?_
  obtain ⟨rfl, _, ⟨_, rfl⟩, rfl⟩ := hlen
  refine (Scan.charge_accounts len _).bind fun _ m' k' hcharge => ?_
  obtain ⟨rfl, rfl⟩ := hcharge
  refine (times_accounts h len).bind fun ws n l hws => .pure ⟨ws, rfl, ?_⟩
  obtain ⟨rfl, hsum⟩ := hws
  have hpos := Varint.length_bytes_pos ws.length
  have hnodes : ws.length * t.nodes ≤
      ws.length * (t.nodes - t.minSize) + ws.length * t.minSize := by
    rw [← Nat.mul_add]
    exact Nat.mul_le_mul_left _ (by omega)
  omega

theorem scan_array_accounts {t : Value} (n : Nat) (items : List Value)
    (h : Affords measure allowance t) :
    (scan (array t n items)).Accounts fun w bytes charged => ∃ ws, w = array t n ws ∧
      ws.length = items.length ∧
        (ws.map measure).sum + items.length * t.minSize ≤
          items.length * allowance t + bytes + charged := by
  rw [scan]
  exact (times_accounts h items.length).map fun ws bytes charged hws => ⟨ws, rfl, hws⟩

/-- The payload of an enum is that of the variant chosen; the tag is a byte of its own. -/
theorem scan_enum_accounts {variants : List (List Value)} (tag : UInt8) (payload : List Value)
    (h : ∀ fields ∈ variants, ∀ v ∈ fields, Affords measure allowance v) :
    (scan (enum variants tag payload)).Accounts fun w bytes charged =>
      ∃ chosen fields ws n, variants[chosen.toNat]? = some fields ∧
        w = enum variants chosen ws ∧ bytes = 1 + n ∧
          (ws.map measure).sum + (fields.map minSize).sum ≤
            (fields.map allowance).sum + n + charged := by
  rw [scan]
  refine Scan.byte_accounts.bind fun chosen m k hbyte => .guard fun hlt => ?_
  obtain ⟨rfl, rfl⟩ := hbyte
  have hget := List.getElem?_eq_getElem (Nat.not_le.mp hlt)
  rw [scanVariant_eq hget]
  refine (scanAll_accounts (h _ (List.mem_of_getElem? hget))).bind fun ws n l hws => .pure ?_
  refine ⟨chosen, _, ws, n, hget, rfl, rfl, ?_⟩
  rw [Nat.zero_add, Nat.add_zero]
  exact hws.2

end Value

end CallWire
