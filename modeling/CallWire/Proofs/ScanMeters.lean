import CallWire.Proofs.ScanElements
import CallWire.Proofs.ScanReads

namespace CallWire

/-- The same limits but for that on charged nodes. -/
def Limits.charging (l : Limits) (max : Option Nat) : Limits := { l with expansion := max }

/-- The same place under another limit on charged nodes. -/
def Cursor.metered (c : Cursor) (max : Nat) : Cursor :=
  c.under (c.limits.charging (some max)) c.expansion

theorem Cursor.metered_start (bytes : Bytes) {l : Limits} {max : Nat}
    (h : l.expansion = some max) :
    (Cursor.start bytes (l.charging none)).metered max = Cursor.start bytes l := by
  cases l
  cases h
  rfl

namespace Scan

variable {α β : Type} {max : Nat}

/-- Where a step comes under some limits it comes under another limit on charged nodes as well,
unless the count of nodes there is above that limit; then it is refused for that. A count above
the limit stays above it. -/
def Metered (max : Nat) (step : Scan α) : Prop := ∀ (c c' : Cursor) (a : α), step c = .ok a c' →
  c'.limits = c.limits ∧ (max < c.expansion → max < c'.expansion) ∧
  (c'.expansion ≤ max → step (c.metered max) = .ok a (c'.metered max)) ∧
  (c.expansion ≤ max → max < c'.expansion →
    ∃ value d, step (c.metered max) = .error (.limitExceeded .expansion value max) d)

namespace Metered

theorem bind {step : Scan α} {next : α → Scan β} (hs : Metered max step)
    (hn : ∀ a, Metered max (next a)) : Metered max (step >>= next) := by
  intro c c₂ b h
  obtain ⟨a, c₁, h₁, h₂⟩ := bind_eq_ok.mp h
  obtain ⟨hlimits₁, hover₁, hok₁, hrefused₁⟩ := hs c c₁ a h₁
  obtain ⟨hlimits₂, hover₂, hok₂, hrefused₂⟩ := hn a c₁ c₂ b h₂
  refine ⟨hlimits₂.trans hlimits₁, fun hc => hover₂ (hover₁ hc), ?_, ?_⟩
  · intro hle
    have hle₁ : c₁.expansion ≤ max := Nat.not_lt.mp fun hlt => Nat.not_lt.mpr hle (hover₂ hlt)
    rw [bind_of_ok (hok₁ hle₁)]
    exact hok₂ hle
  · intro hc hlt
    by_cases hle₁ : c₁.expansion ≤ max
    · rw [bind_of_ok (hok₁ hle₁)]
      exact hrefused₂ hle₁ hlt
    · obtain ⟨value, d, hf⟩ := hrefused₁ hc (Nat.not_le.mp hle₁)
      exact ⟨value, d, bind_of_error hf⟩

theorem ofLimits (step : Limits → Scan α) (h : ∀ l, Metered max (step l))
    (hsame : ∀ l : Limits, step (l.charging (some max)) = step l) :
    Metered max (get >>= fun c => step c.limits) := by
  intro c c' a ha
  change _ ∧ _ ∧ (_ → step (c.limits.charging (some max)) (c.metered max) = _) ∧
    (_ → _ → ∃ value d, step (c.limits.charging (some max)) (c.metered max) = _)
  rw [hsame]
  exact h c.limits c c' a ha

theorem demanding {needed : Nat} {step : Scan α} (h : Metered max step) :
    Metered max (demanding needed step) := by
  intro c c' a ha
  by_cases hle : needed ≤ c.rest.length
  · rw [demanding_of_le hle] at ha
    rw [demanding_of_le (c := c.metered max) hle]
    exact h c c' a ha
  · rw [demanding_of_lt (Nat.not_le.mp hle)] at ha
    cases ha

end Metered

theorem Blind.metered {step : Scan α} (h : Blind step) : Metered max step := by
  intro c c' a ha
  obtain ⟨hlimits, hexpansion⟩ := h.keeps ha
  have hrun := h.run_under c (c.limits.charging (some max)) c.expansion
  rw [ha] at hrun
  refine ⟨hlimits, ?_, fun _ => ?_, ?_⟩
  · rw [hexpansion]
    exact id
  · rw [Cursor.metered, hrun, Cursor.metered, hlimits, hexpansion]
  · intro hle hlt
    rw [hexpansion] at hlt
    exact absurd hle (Nat.not_le.mpr hlt)

theorem Metered.pure (a : α) : Metered max (Pure.pure a) := (Blind.pure a).metered

theorem charge_of_le {c : Cursor} {nodes : Nat} (hl : c.limits.expansion = some max)
    (h : Count.add c.expansion nodes ≤ max) :
    charge nodes c = .ok () { c with expansion := Count.add c.expansion nodes } := by
  have hok : c.limits.checkExpansion (Count.add c.expansion nodes) = .ok () := by
    rw [Limits.checkExpansion, hl]
    exact if_pos h
  unfold charge
  simp only [hok]

theorem charge_of_lt {c : Cursor} {nodes : Nat} (hl : c.limits.expansion = some max)
    (h : max < Count.add c.expansion nodes) : charge nodes c =
      .error (.limitExceeded .expansion (Count.add c.expansion nodes) max) c := by
  have hover : c.limits.checkExpansion (Count.add c.expansion nodes) =
      .error (.limitExceeded .expansion (Count.add c.expansion nodes) max) := by
    rw [Limits.checkExpansion, hl]
    exact if_neg (Nat.not_le.mpr h)
  unfold charge
  simp only [hover]

/-- The limit has to lie below the largest count, where counts stop. -/
theorem charge_metered (hmax : max < Count.max) (nodes : Nat) : Metered max (charge nodes) := by
  intro c c' u h
  unfold charge at h
  dsimp only at h
  split at h
  next =>
    cases h
    refine ⟨rfl, ?_, fun hle => charge_of_le (c := c.metered max) rfl hle, ?_⟩
    · intro hlt
      simp only [Count.add]
      omega
    · exact fun _ hlt => ⟨_, _, charge_of_lt (c := c.metered max) rfl hlt⟩
  next => cases h

end Scan

theorem Varint.scanLength_metered {max : Nat} : scanLength.Metered max := by
  unfold scanLength
  refine (number_blind .w32).metered.bind fun n => ?_
  refine .ofLimits (fun l => do Scan.ofExcept (l.checkCollection n); return n) ?_ fun _ => rfl
  exact fun l => (Scan.Blind.ofExcept _).metered.bind fun _ => .pure n

theorem Scan.Assembled.metered {α : Type} {max : Nat} {step : Scan α} (hs : step.Assembled)
    (hmax : max < Count.max) : step.Metered max := by
  induction hs with
  | blind hb => exact hb.metered
  | length => exact Varint.scanLength_metered
  | charge nodes => exact charge_metered hmax nodes
  | demanding needed _ ih => exact ih.demanding
  | bind _ _ ihs ihn => exact ihs.bind ihn

end CallWire
