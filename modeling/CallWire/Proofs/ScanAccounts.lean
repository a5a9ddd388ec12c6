import CallWire.Proofs.ScanElements
import CallWire.Proofs.ScanReads

namespace CallWire

/-- What lies between two places: the bytes read and the nodes charged. The count of nodes heeds
the limit, never runs ahead of the charge and is exact as long as it stays below the largest. -/
structure Cursor.Spends (c c' : Cursor) (bytes charged : Nat) : Prop where
  limits : c'.limits = c.limits
  rest : c.rest.length = bytes + c'.rest.length
  position : c'.position = c.position + bytes
  bounded : ∀ max ∈ c.limits.expansion, c.expansion ≤ max → c'.expansion ≤ max
  expansion_le : c'.expansion ≤ c.expansion + charged
  expansion : c'.expansion < Count.max → c'.expansion = c.expansion + charged

namespace Cursor.Spends

theorem refl (c : Cursor) : c.Spends c 0 0 :=
  ⟨rfl, (Nat.zero_add _).symm, rfl, fun _ _ h => h, Nat.le_refl _, fun _ => rfl⟩

theorem trans {c c₁ c₂ : Cursor} {m n k l : Nat} (h : c.Spends c₁ m k) (h' : c₁.Spends c₂ n l) :
    c.Spends c₂ (m + n) (k + l) := by
  refine ⟨h'.limits.trans h.limits, ?_, ?_, ?_, ?_, ?_⟩
  · have := h.rest
    have := h'.rest
    omega
  · rw [h'.position, h.position, Nat.add_assoc]
  · intro max hmax hle
    exact h'.bounded max (h.limits ▸ hmax) (h.bounded max hmax hle)
  · have := h.expansion_le
    have := h'.expansion_le
    omega
  · intro hlt
    have hlast := h'.expansion hlt
    have hfirst := h.expansion (by omega)
    omega

theorem advance {c : Cursor} {n : Nat} (h : n ≤ c.rest.length) : c.Spends (c.advance n) n 0 := by
  refine ⟨rfl, ?_, rfl, fun _ _ hle => hle, Nat.le_refl _, fun _ => rfl⟩
  simp only [Cursor.advance, List.length_drop]
  omega

end Cursor.Spends

namespace Scan

variable {α β : Type}

/-- A step that succeeds has cost what is said of its answer, in bytes read and nodes charged. -/
def Accounts (step : Scan α) (cost : α → Nat → Nat → Prop) : Prop :=
  ∀ (c c' : Cursor) (a : α), step c = .ok a c' →
    ∃ bytes charged, c.Spends c' bytes charged ∧ cost a bytes charged

theorem Accounts.pure {cost : α → Nat → Nat → Prop} {a : α} (h : cost a 0 0) :
    Accounts (Pure.pure a) cost := by
  intro c c' x hx
  obtain ⟨rfl, rfl⟩ := pure_eq_ok.mp hx
  exact ⟨0, 0, .refl c, h⟩

theorem Accounts.bind {step : Scan α} {next : α → Scan β} {first : α → Nat → Nat → Prop}
    {cost : β → Nat → Nat → Prop} (hs : Accounts step first)
    (hn : ∀ a m k, first a m k → Accounts (next a) fun b n l => cost b (m + n) (k + l)) :
    Accounts (step >>= next) cost := by
  intro c c' b hb
  obtain ⟨a, c₁, h, h'⟩ := bind_eq_ok.mp hb
  obtain ⟨m, k, hspends, hfirst⟩ := hs _ _ _ h
  obtain ⟨n, l, hspends', hcost⟩ := hn a m k hfirst _ _ _ h'
  exact ⟨m + n, k + l, hspends.trans hspends', hcost⟩

theorem Accounts.mono {step : Scan α} {first cost : α → Nat → Nat → Prop} (hs : Accounts step first)
    (h : ∀ a m k, first a m k → cost a m k) : Accounts step cost := by
  intro c c' a ha
  obtain ⟨m, k, hspends, hfirst⟩ := hs _ _ _ ha
  exact ⟨m, k, hspends, h a m k hfirst⟩

theorem Accounts.map {step : Scan α} {first : α → Nat → Nat → Prop} {cost : β → Nat → Nat → Prop}
    {g : α → β} (hs : Accounts step first) (h : ∀ a m k, first a m k → cost (g a) m k) :
    Accounts (g <$> step) cost := by
  rw [map_eq_bind]
  exact hs.bind fun a m k ha => .pure (h a m k ha)

theorem Accounts.error {cost : α → Nat → Nat → Prop} (f : Fault) :
    Accounts (throw f : Scan α) cost :=
  fun _ _ _ h => absurd h throw_ne_ok

theorem Accounts.guard {p : Prop} [Decidable p] {f : Fault} {next : Unit → Scan α}
    {cost : α → Nat → Nat → Prop} (h : ¬ p → Accounts (next ()) cost) :
    Accounts (if p then throw f >>= next else next ()) cost := by
  split
  next =>
    rw [throw_bind]
    exact .error f
  next hp => exact h hp

theorem Accounts.demanding {needed : Nat} {step : Scan α} {cost : α → Nat → Nat → Prop}
    (h : Accounts step cost) : Accounts (demanding needed step) cost := by
  intro c c' a ha
  by_cases hle : needed ≤ c.rest.length
  · rw [demanding_of_le hle] at ha
    exact h _ _ _ ha
  · rw [demanding_of_lt (Nat.not_le.mp hle)] at ha
    cases ha

theorem take_accounts (n : Nat) : Accounts (take n) fun _ _ charged => charged = 0 := by
  intro c c' a ha
  unfold take at ha
  split at ha
  next hh =>
    cases ha
    rw [Bytes.holds_eq_decide, decide_eq_true_eq] at hh
    exact ⟨n, 0, .advance hh, rfl⟩
  next => cases ha

theorem byte_accounts : Accounts byte fun _ bytes charged => bytes = 1 ∧ charged = 0 := by
  intro c c' a ha
  unfold byte at ha
  split at ha
  next => cases ha
  next hr =>
    cases ha
    exact ⟨1, 0, .advance (by simp [hr]), rfl, rfl⟩

/-- A charge for items of some nodes each is one for all of them, even where their count is no
longer exact. -/
theorem charge_accounts (n nodes : Nat) : Accounts (charge (Count.mul n nodes))
    fun _ bytes charged => bytes = 0 ∧ charged = n * nodes := by
  intro c c' a ha
  unfold charge at ha
  dsimp only at ha
  split at ha
  next hok =>
    cases ha
    refine ⟨0, n * nodes, ⟨rfl, (Nat.zero_add _).symm, rfl, ?_, ?_, ?_⟩, rfl, rfl⟩
    · exact fun max hmax _ => Limits.within_eq_ok_iff.mp hok max hmax
    · simp only [Count.add, Count.mul]
      omega
    · intro hlt
      simp only [Count.add, Count.mul] at hlt ⊢
      omega
  next => cases ha

theorem Elementary.accounts {step : Scan α} (h : Elementary step) :
    Accounts step fun _ _ charged => charged = 0 := by
  induction h with
  | pure a => exact .pure rfl
  | error f => exact .error f
  | byte => exact byte_accounts.mono fun _ _ _ h => h.2
  | take n => exact take_accounts n
  | ofLimits step _ ih => exact fun c => ih c.limits c
  | bind _ _ ihs ihn =>
    refine ihs.bind fun a m k hk => (ihn a).mono fun b n l hl => ?_
    rw [hk, hl]

/-- The bytes that are paid are those that the answer is spelled in. -/
theorem Accounts.spelled {step : Scan α} {cost : α → Nat → Nat → Prop} {spell : α → Bytes → Prop}
    (h : Accounts step cost) (hs : Spells step spell) :
    Accounts step fun a bytes charged => cost a bytes charged ∧
      ∃ xs, spell a xs ∧ xs.length = bytes := by
  intro c c' a ha
  obtain ⟨bytes, charged, hspends, hcost⟩ := h _ _ _ ha
  obtain ⟨xs, hxs, hr, _⟩ := hs _ _ _ ha
  refine ⟨bytes, charged, hspends, hcost, xs, hxs, ?_⟩
  have hrest := hspends.rest
  rw [hr, List.length_append] at hrest
  omega

end Scan

end CallWire
