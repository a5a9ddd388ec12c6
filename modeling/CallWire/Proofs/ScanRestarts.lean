import CallWire.Proofs.ScanMeters

namespace CallWire

/-- The same bytes to come under the same limits, with no more nodes charged so far. How many bytes
went before is left open. -/
structure Cursor.Lighter (d c : Cursor) : Prop where
  rest : d.rest = c.rest
  limits : d.limits = c.limits
  expansion : d.expansion ≤ c.expansion

/-- More nodes charged than the limits allow. -/
def Limits.OverExpansion (l : Limits) (f : Fault) : Prop :=
  ∃ value, ∃ max ∈ l.expansion, f = .limitExceeded .expansion value max

namespace Scan

variable {α β : Type}

/-- At a lighter place a step has the same answer or the same fault, and stops at a lighter place,
unless it was only the count of nodes that stopped it. -/
def Restarts (step : Scan α) : Prop := ∀ c d : Cursor, d.Lighter c →
  (∃ a c' d', step c = .ok a c' ∧ step d = .ok a d' ∧ c'.limits = c.limits ∧ d'.Lighter c') ∨
  (∃ f c' d', step c = .error f c' ∧ step d = .error f d') ∨
  ∃ f c', step c = .error f c' ∧ c.limits.OverExpansion f

namespace Restarts

theorem pure (a : α) : Restarts (Pure.pure a) :=
  fun c d h => .inl ⟨a, c, d, rfl, rfl, rfl, h⟩

theorem error (f : Fault) : Restarts (throw f : Scan α) :=
  fun c d _ => .inr (.inl ⟨f, c, d, rfl, rfl⟩)

theorem bind {step : Scan α} {next : α → Scan β} (hs : Restarts step)
    (hn : ∀ a, Restarts (next a)) : Restarts (step >>= next) := by
  intro c d h
  rcases hs c d h with ⟨a, c₁, d₁, hc, hd, hlimits, h₁⟩ | ⟨f, c₁, d₁, hc, hd⟩ | ⟨f, c₁, hc, hf⟩
  · rw [bind_of_ok hc, bind_of_ok hd, ← hlimits]
    exact hn a c₁ d₁ h₁
  · exact .inr (.inl ⟨f, c₁, d₁, bind_of_error hc, bind_of_error hd⟩)
  · exact .inr (.inr ⟨f, c₁, bind_of_error hc, hf⟩)

theorem ofExcept (e : Except Fault α) : Restarts (ofExcept e) := by
  cases e with
  | ok a => exact .pure a
  | error f => exact .error f

theorem ofLimits (step : Limits → Scan α) (h : ∀ l, Restarts (step l)) :
    Restarts (get >>= fun c => step c.limits) := by
  intro c d hd
  change (∃ a c' d', step c.limits c = .ok a c' ∧ step d.limits d = .ok a d' ∧ _) ∨
    (∃ f c' d', step c.limits c = .error f c' ∧ step d.limits d = .error f d') ∨
    ∃ f c', step c.limits c = .error f c' ∧ _
  rw [hd.limits]
  exact h c.limits c d hd

theorem demanding {needed : Nat} {step : Scan α} (h : Restarts step) :
    Restarts (demanding needed step) := by
  intro c d hd
  by_cases hle : needed ≤ c.rest.length
  · rw [demanding_of_le hle, demanding_of_le (by rwa [hd.rest])]
    exact h c d hd
  · have hlt := Nat.not_le.mp hle
    refine .inr (.inl ⟨_, c, d, demanding_of_lt hlt, ?_⟩)
    rw [demanding_of_lt (by rwa [hd.rest]), Cursor.remaining, hd.rest, Cursor.remaining]

end Restarts

theorem byte_restarts : Restarts byte := by
  intro c d h
  unfold byte
  rw [h.rest]
  cases c.rest with
  | nil => exact .inr (.inl ⟨_, c, d, rfl, rfl⟩)
  | cons b rest =>
    have hrest : (d.advance 1).rest = (c.advance 1).rest := congrArg (List.drop 1) h.rest
    exact .inl ⟨b, _, _, rfl, rfl, rfl, hrest, h.limits, h.expansion⟩

theorem take_restarts (n : Nat) : Restarts (take n) := by
  intro c d h
  unfold take
  rw [Cursor.remaining, Cursor.remaining, h.rest]
  split
  next =>
    have hrest : (d.advance n).rest = (c.advance n).rest := congrArg (List.drop n) h.rest
    exact .inl ⟨_, _, _, rfl, rfl, rfl, hrest, h.limits, h.expansion⟩
  next => exact .inr (.inl ⟨_, c, d, rfl, rfl⟩)

theorem Blind.restarts {step : Scan α} (h : Blind step) : Restarts step := by
  induction h with
  | pure a => exact .pure a
  | error f => exact .error f
  | byte => exact byte_restarts
  | take n => exact take_restarts n
  | bind _ _ ihs ihn => exact ihs.bind ihn

/-- A charge that passes on top of some nodes passes on top of fewer. -/
theorem charge_restarts (nodes : Nat) : Restarts (charge nodes) := by
  intro c d h
  have hfewer : Count.add d.expansion nodes ≤ Count.add c.expansion nodes := by
    have hle := h.expansion
    simp only [Count.add]
    omega
  by_cases hc : ∀ max ∈ c.limits.expansion, Count.add c.expansion nodes ≤ max
  · have hd : ∀ max ∈ d.limits.expansion, Count.add d.expansion nodes ≤ max := by
      rw [h.limits]
      exact fun max hmax => Nat.le_trans hfewer (hc max hmax)
    have hok : c.limits.checkExpansion (Count.add c.expansion nodes) = .ok () :=
      Limits.within_eq_ok_iff.mpr hc
    have hok' : d.limits.checkExpansion (Count.add d.expansion nodes) = .ok () :=
      Limits.within_eq_ok_iff.mpr hd
    unfold charge
    simp only [hok, hok']
    exact .inl ⟨(), _, _, rfl, rfl, rfl, h.rest, h.limits, hfewer⟩
  · obtain ⟨max, hover⟩ := Classical.not_forall.mp hc
    obtain ⟨hmax, hlt⟩ := Classical.not_imp.mp hover
    exact .inr (.inr ⟨_, c, charge_of_lt hmax (Nat.not_le.mp hlt), _, max, hmax, rfl⟩)

end Scan

theorem Varint.scanLength_restarts : scanLength.Restarts := by
  unfold scanLength
  refine (number_blind .w32).restarts.bind fun n => ?_
  refine .ofLimits (fun l => do Scan.ofExcept (l.checkCollection n); return n) fun l => ?_
  exact (Scan.Restarts.ofExcept _).bind fun _ => .pure n

theorem Scan.Assembled.restarts {α : Type} {step : Scan α} (h : step.Assembled) :
    step.Restarts := by
  induction h with
  | blind hb => exact hb.restarts
  | length => exact Varint.scanLength_restarts
  | charge nodes => exact charge_restarts nodes
  | demanding needed _ ih => exact ih.demanding
  | bind _ _ ihs ihn => exact ihs.bind ihn

end CallWire
