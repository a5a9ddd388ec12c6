import CallWire.Proofs.ValueAccounts
import CallWire.Proofs.ValueBuilt
import CallWire.Proofs.ValueNodes

namespace CallWire

namespace Value

/-- The nodes of a variant beyond those of the first variant and the fewest bytes of its own. -/
def surplus (first fields : List Value) : Nat :=
  (fields.map nodes).sum - ((first.map nodes).sum + (fields.map minSize).sum)

mutual

/-- How many nodes the enums in a value, at every depth, have in surplus. -/
def growth : Value → Nat
  | vector _ items => growthAll items
  | array _ _ items => growthAll items
  | struct fields => growthAll fields
  | tuple fields => growthAll fields
  | enum variants tag payload =>
    surplus (variants.headD []) (variants.getD tag.toNat []) + growthAll payload
  | _ => 0

def growthAll : List Value → Nat
  | [] => 0
  | v :: vs => growth v + growthAll vs

end

/-- What a value would have for nodes had its enums no surplus. -/
def settledNodes (v : Value) : Nat := v.nodes - v.growth

theorem sum_nodes_le (vs : List Value) :
    (vs.map nodes).sum ≤ (vs.map settledNodes).sum + growthAll vs := by
  induction vs with
  | nil => exact Nat.le_refl _
  | cons v vs ih =>
    have hv : v.nodes ≤ v.settledNodes + v.growth :=
      Nat.le_add_of_sub_le (Nat.le_refl _)
    rw [List.map_cons, List.sum_cons, List.map_cons, List.sum_cons, growthAll]
    omega

/-- The nodes of a value are paid for by those of its blank, by bytes and by charges, except for
the surplus of its enums. -/
def Frugal (v : Value) : Prop := Affords settledNodes (fun t => t.blank.nodes) v

/-- Counting in full is enough, since a blank whose count is no longer exact pays for any value. -/
theorem Sound.frugal_of_full {v : Value} {base : Nat} (hv : Sound v)
    (hb : v.blank.nodes = min base Count.max)
    (h : (scan v).Accounts fun w bytes charged => ∃ full, w.nodes = min full Count.max ∧
      full + v.minSize ≤ base + w.growth + bytes + charged) : Frugal v := by
  refine (hv.accounts h).mono fun w bytes charged hw => ?_
  obtain ⟨⟨full, hn, hfull⟩, hpaid⟩ := hw
  dsimp only
  rw [settledNodes, hn, hb]
  omega

theorem Frugal.fields_accounts {vs : List Value} (h : ∀ v ∈ vs, Frugal v) :
    (scanAll vs).Accounts fun ws bytes charged =>
      (ws.map nodes).sum + 1 + minSizes vs 0 ≤
        ((blankAll vs).map nodes).sum + 1 + growthAll ws + bytes + charged := by
  refine (scan_fields_accounts h).mono fun ws bytes charged hws => ?_
  have hnodes := sum_nodes_le ws
  have hblank : ((blankAll vs).map nodes).sum = (vs.map fun t => t.blank.nodes).sum := by
    rw [blankAll_eq_map, List.map_map, Function.comp_def]
  omega

theorem Sound.frugal {v : Value} (hv : Sound v) : Frugal v := by
  induction hv with
  | bool b =>
    exact Sound.affords_leaf (.bool b) rfl Scan.bool_elementary (fun _ => Nat.le.refl)
  | text s =>
    exact Sound.affords_leaf (.text s) rfl Scan.text_elementary (fun _ => Nat.le.refl)
  | word n =>
    refine Sound.affords_leaf (.word n) rfl ?_ (fun _ => Nat.le.refl)
    exact Word.scan_elementary n.width n.signed
  | varint n =>
    refine Sound.affords_leaf (.varint n) rfl ?_ (fun _ => Nat.le.refl)
    exact Varint.scan_elementary n.width
  | @vector t items ht hb hi hsh ih =>
    refine (Sound.vector ht hb hi hsh).frugal_of_full (nodes_vector t []) ?_
    refine (scan_vector_accounts items ih).mono fun w bytes charged hw => ?_
    obtain ⟨ws, rfl, hsum⟩ := hw
    refine ⟨_, nodes_vector t ws, ?_⟩
    have hnodes := sum_nodes_le ws
    rw [hb] at hsum
    rw [growth, minSize, List.map_nil, List.sum_nil]
    omega
  | @array t n items ht hb hl hi hsh ih =>
    refine (Sound.array ht hb hl hi hsh).frugal_of_full (nodes_array t n _) ?_
    refine (scan_array_accounts n items ih).mono fun w bytes charged hw => ?_
    obtain ⟨ws, rfl, _, hsum⟩ := hw
    refine ⟨_, nodes_array t n ws, ?_⟩
    have hnodes := sum_nodes_le ws
    have hsize : Count.mul n t.minSize ≤ items.length * t.minSize := hl ▸ Nat.min_le_left _ _
    rw [growth, minSize, List.map_replicate, List.sum_replicate_nat]
    omega
  | struct hf ih =>
    refine (Sound.struct hf).frugal_of_full (nodes_struct _) ?_
    exact (Frugal.fields_accounts ih).map fun ws bytes charged hws => ⟨_, nodes_struct ws, hws⟩
  | tuple hf ih =>
    refine (Sound.tuple hf).frugal_of_full (nodes_tuple _) ?_
    exact (Frugal.fields_accounts ih).map fun ws bytes charged hws => ⟨_, nodes_tuple ws, hws⟩
  | @enum variants tag fields payload hc hvs hb hv hp hsh ih =>
    refine (Sound.enum hc hvs hb hv hp hsh).frugal_of_full (nodes_enum variants 0 _) ?_
    refine (scan_enum_accounts tag payload ih).mono fun w bytes charged hw => ?_
    obtain ⟨chosen, fields, ws, n, hget, rfl, rfl, hsum⟩ := hw
    refine ⟨_, nodes_enum variants chosen ws, ?_⟩
    have hnodes := sum_nodes_le ws
    -- Variants are blank already, so that their own nodes are what is allowed for them.
    have hblank : fields.map (fun t => t.blank.nodes) = fields.map nodes :=
      List.map_congr_left fun t ht => by rw [hb fields (List.mem_of_getElem? hget) t ht]
    rw [hblank] at hsum
    rw [growth, List.getD_eq_getElem?_getD, hget, Option.getD_some, surplus, minSize]
    omega

/-- A decoding makes no more nodes than its blank has, bytes are read, the limit allows and the
decoded enums have in surplus. Nothing charges that surplus. -/
theorem Built.nodes_of_refill {t v : Value} {bytes : Bytes} {limits : Limits} {m : Nat}
    {c' : Cursor} (ht : Built t) (hm : limits.expansion = some m)
    (h : t.refill (.start bytes limits) = ⟨v, none, c'⟩) :
    v.nodes ≤ t.blank.nodes + c'.position + m + v.growth := by
  obtain ⟨consumed, charged, hspends, hnodes⟩ :=
    ht.sound.frugal _ _ _ (ht.sound.scan_of_refill h)
  have hfrugal : v.nodes - v.growth + t.minSize ≤ t.blank.nodes + consumed + charged := hnodes
  have hposition : c'.position = 0 + consumed := hspends.position
  have hbounded : c'.expansion ≤ m := hspends.bounded m hm (Nat.zero_le m)
  -- A charge that is no longer exact has reached the largest count, and so the limit has.
  by_cases hlt : c'.expansion < Count.max
  · have hexact : c'.expansion = 0 + charged := hspends.expansion hlt
    omega
  · have hmax := nodes_le_max v
    omega

/-- An enum whose second variant has nodes and no bytes. -/
def unitsEnum : Value := .enum [[], [tuple [], tuple [], tuple [], tuple []]] 0 []

def chosenUnits : Value :=
  .vector unitsEnum [.enum [[], [tuple [], tuple [], tuple [], tuple []]] 1
    [tuple [], tuple [], tuple [], tuple []]]

theorem built_unitsEnum : Built unitsEnum := by
  have h : newEnum [[], [tuple [], tuple [], tuple [], tuple []]] = .ok unitsEnum := rfl
  refine .newEnum ?_ h
  simp only [List.mem_cons, List.not_mem_nil, or_false, forall_eq_or_imp, forall_eq, or_self]
  exact ⟨nofun, .tuple nofun⟩

theorem refill_units : (newVector unitsEnum).refill (.start [4, 1] ⟨none, none, none, some 4⟩) =
    ⟨chosenUnits, none, ⟨[], 2, 4, ⟨none, none, none, some 4⟩⟩⟩ := rfl

theorem nodes_of_refill_units :
    (newVector unitsEnum).refill (.start [4, 1] ⟨none, none, none, some 4⟩) =
        ⟨chosenUnits, none, ⟨[], 2, 4, ⟨none, none, none, some 4⟩⟩⟩ ∧
      chosenUnits.growth = 4 ∧
        chosenUnits.nodes ≤ (newVector unitsEnum).blank.nodes + 2 + 4 + chosenUnits.growth := by
  have hbuilt : Built (newVector unitsEnum) := .newVector built_unitsEnum
  exact ⟨refill_units, rfl, hbuilt.nodes_of_refill rfl refill_units⟩

/-- The surplus cannot be left out: two bytes under a limit of four make fifteen nodes where the
blank has six. -/
theorem nodes_of_refill_exceeds : ¬ ∀ (t v : Value) (bytes : Bytes) (limits : Limits) (m : Nat)
    (c' : Cursor), Built t → limits.expansion = some m →
      t.refill (.start bytes limits) = ⟨v, none, c'⟩ →
        v.nodes ≤ t.blank.nodes + c'.position + m := by
  intro h
  have hbuilt : Built (newVector unitsEnum) := .newVector built_unitsEnum
  have hle : chosenUnits.nodes ≤ (newVector unitsEnum).blank.nodes + 2 + 4 :=
    h _ _ _ _ 4 _ hbuilt rfl refill_units
  exact absurd hle (by decide)

end Value

end CallWire
