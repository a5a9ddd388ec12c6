import CallWire.Proofs.ScanElements
import CallWire.Proofs.ScanReads

namespace CallWire

/-- Each bound of the second limits is at least as lax as that of the first; no bound is the
laxest. -/
structure Limits.Within (l m : Limits) : Prop where
  frame : ∀ n ∈ m.frame, ∃ k ∈ l.frame, k ≤ n
  collection : ∀ n ∈ m.collection, ∃ k ∈ l.collection, k ≤ n
  depth : ∀ n ∈ m.depth, ∃ k ∈ l.depth, k ≤ n
  expansion : ∀ n ∈ m.expansion, ∃ k ∈ l.expansion, k ≤ n

namespace Limits

variable {l m : Limits}

theorem within_narrows_limit {bound : Bound} {strict lax : Option Nat} (value : Nat)
    (h : ∀ n ∈ lax, ∃ k ∈ strict, k ≤ n) :
    Narrows Fault.IsLimit (within bound strict value) (within bound lax value) :=
  (within_narrows value h).mono fun _ hf => by
    obtain ⟨k, _, rfl⟩ := hf
    exact ⟨bound, value, k, rfl⟩

theorem Within.checkFrame (h : l.Within m) (n : Nat) :
    Narrows Fault.IsLimit (l.checkFrame n) (m.checkFrame n) := within_narrows_limit n h.frame

theorem Within.checkCollection (h : l.Within m) (n : Nat) :
    Narrows Fault.IsLimit (l.checkCollection n) (m.checkCollection n) :=
  within_narrows_limit n h.collection

theorem Within.checkDepth (h : l.Within m) (n : Nat) :
    Narrows Fault.IsLimit (l.checkDepth n) (m.checkDepth n) := within_narrows_limit n h.depth

theorem Within.checkExpansion (h : l.Within m) (n : Nat) :
    Narrows Fault.IsLimit (l.checkExpansion n) (m.checkExpansion n) :=
  within_narrows_limit n h.expansion

end Limits

namespace Scan

variable {α β : Type} {l m : Limits}

/-- Where the limits are the first, one step does what the other does where they are the second,
or a limit stops it. -/
def Narrows (l m : Limits) (x y : Scan α) : Prop := ∀ c : Cursor, c.limits = l →
  (∃ a c', x c = .ok a c' ∧ c'.limits = l ∧
    y (c.under m c.expansion) = .ok a (c'.under m c'.expansion)) ∨
  (∃ f c' d, x c = .error f c' ∧ y (c.under m c.expansion) = .error f d) ∨
  ∃ f c', x c = .error f c' ∧ f.IsLimit

namespace Narrows

theorem bind {x y : Scan α} {f g : α → Scan β} (h : Narrows l m x y)
    (hf : ∀ a, Narrows l m (f a) (g a)) : Narrows l m (x >>= f) (y >>= g) := by
  intro c hc
  rcases h c hc with ⟨a, c', hx, hc', hy⟩ | ⟨e, c', d, hx, hy⟩ | ⟨e, c', hx, he⟩
  · rw [bind_of_ok hx, bind_of_ok hy]
    exact hf a c' hc'
  · exact .inr (.inl ⟨e, c', d, bind_of_error hx, bind_of_error hy⟩)
  · exact .inr (.inr ⟨e, c', bind_of_error hx, he⟩)

theorem ofExcept {x y : Except Fault α} (h : CallWire.Narrows Fault.IsLimit x y) :
    Narrows l m (ofExcept x) (ofExcept y) := by
  intro c hc
  rcases h with rfl | ⟨e, rfl, he⟩
  · cases x with
    | ok a => exact .inl ⟨a, c, rfl, hc, rfl⟩
    | error e => exact .inr (.inl ⟨e, c, _, rfl, rfl⟩)
  · exact .inr (.inr ⟨e, c, rfl, he⟩)

theorem pure (a : α) : Narrows l m (Pure.pure a) (Pure.pure a) := .ofExcept (x := .ok a) (.refl _)

theorem ofLimits (step : Limits → Scan α) (h : Narrows l m (step l) (step m)) :
    Narrows l m (get >>= fun c => step c.limits) (get >>= fun c => step c.limits) := by
  intro c hc
  subst hc
  exact h c rfl

theorem demanding {x y : Scan α} (needed : Nat) (h : Narrows l m x y) :
    Narrows l m (demanding needed x) (demanding needed y) := by
  intro c hc
  by_cases hle : needed ≤ c.rest.length
  · rw [demanding_of_le hle, demanding_of_le (c := c.under m _) hle]
    exact h c hc
  · have hlt := Nat.not_le.mp hle
    exact .inr (.inl ⟨_, _, _, demanding_of_lt hlt, demanding_of_lt (c := c.under m _) hlt⟩)

end Narrows

theorem Blind.narrows {step : Scan α} (h : Blind step) : Narrows l m step step := by
  intro c hc
  have hrun := h.run_under c m c.expansion
  cases hs : step c with
  | ok a c' =>
    obtain ⟨hlimits, hexpansion⟩ := h.keeps hs
    rw [hs] at hrun
    refine .inl ⟨a, c', rfl, hlimits.trans hc, ?_⟩
    rw [hrun, hexpansion]
  | error f c' =>
    rw [hs] at hrun
    exact .inr (.inl ⟨f, c', _, rfl, hrun⟩)

theorem charge_narrows (h : l.Within m) (nodes : Nat) :
    Narrows l m (charge nodes) (charge nodes) := by
  intro c hc
  subst hc
  unfold charge
  dsimp only [Cursor.under]
  rcases h.checkExpansion (Count.add c.expansion nodes) with hsame | ⟨f, hf, hlimit⟩
  · rw [hsame]
    cases m.checkExpansion (Count.add c.expansion nodes) with
    | ok u => exact .inl ⟨(), _, rfl, rfl, rfl⟩
    | error f => exact .inr (.inl ⟨f, c, _, rfl, rfl⟩)
  · rw [hf]
    exact .inr (.inr ⟨f, c, rfl, hlimit⟩)

theorem finish_narrows : Narrows l m finish finish := by
  intro c hc
  by_cases he : c.isEmpty = true
  · exact .inl ⟨(), c, if_pos he, hc, if_pos he⟩
  · exact .inr (.inl ⟨_, c, _, if_neg he, if_neg he⟩)

end Scan

theorem Varint.scanLength_narrows {l m : Limits} (h : l.Within m) :
    scanLength.Narrows l m scanLength := by
  unfold scanLength
  refine (number_blind .w32).narrows.bind fun n => ?_
  refine .ofLimits (fun l => do Scan.ofExcept (l.checkCollection n); return n) ?_
  exact (Scan.Narrows.ofExcept (h.checkCollection n)).bind fun _ => .pure n

theorem Scan.Assembled.narrows {α : Type} {l m : Limits} {step : Scan α} (hs : step.Assembled)
    (h : l.Within m) : step.Narrows l m step := by
  induction hs with
  | blind hb => exact hb.narrows
  | length => exact Varint.scanLength_narrows h
  | charge nodes => exact charge_narrows h nodes
  | demanding needed _ ih => exact .demanding needed ih
  | bind _ _ ihs ihn => exact ihs.bind ihn

end CallWire
