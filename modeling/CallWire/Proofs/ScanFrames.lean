import CallWire.Proofs.ScanElements
import CallWire.Proofs.ScanReads

namespace CallWire

def Fault.IsTruncated (f : Fault) : Prop := ∃ needed remaining, f = .truncated needed remaining

namespace Cursor

/-- The same place with other bytes to come. -/
def before (c : Cursor) (rest : Bytes) : Cursor := { c with rest := rest }

@[simp] theorem before_rest (c : Cursor) (rest : Bytes) : (c.before rest).rest = rest := rfl

end Cursor

namespace Scan

variable {α β : Type}

/-- On every proper start of these bytes the step runs out of bytes. -/
def Starves (step : Scan α) (c : Cursor) (bytes : Bytes) : Prop :=
  ∀ start rest, start ++ rest = bytes → rest ≠ [] →
    ∃ f c', step (c.before start) = .error f c' ∧ f.IsTruncated

/-- A step that succeeds has read certain bytes, reads them alike whatever follows them, and runs
out of bytes on every proper start of them. -/
def Framed (step : Scan α) : Prop :=
  ∀ (c c' : Cursor) (a : α), step c = .ok a c' → ∃ bytes, c.rest = bytes ++ c'.rest ∧
    (∀ rest, step (c.before (bytes ++ rest)) = .ok a (c'.before rest)) ∧ Starves step c bytes

theorem starves_nil (step : Scan α) (c : Cursor) : Starves step c [] := by
  intro start rest h hne
  exact absurd (List.append_eq_nil_iff.mp h).2 hne

theorem Framed.pure (a : α) : Framed (Pure.pure a) := by
  intro c c' x hx
  obtain ⟨rfl, rfl⟩ := pure_eq_ok.mp hx
  exact ⟨[], rfl, fun rest => rfl, starves_nil _ _⟩

theorem Framed.error (f : Fault) : Framed (throw f : Scan α) :=
  fun _ _ _ h => absurd h throw_ne_ok

theorem Starves.bind {step : Scan α} {next : α → Scan β} {c c₁ : Cursor} {xs ys : Bytes} {a : α}
    (hs : Starves step c xs) (hread : ∀ rest, step (c.before (xs ++ rest)) = .ok a (c₁.before rest))
    (hn : Starves (next a) c₁ ys) : Starves (step >>= next) c (xs ++ ys) := by
  intro start rest h hne
  -- The cut falls after the bytes of the first step, or among them.
  rcases List.append_eq_append_iff.mp h with ⟨mid, hxs, hrest⟩ | ⟨mid, hstart, hys⟩
  · by_cases hmid : mid = []
    · subst hmid
      obtain ⟨f, c', hf, ht⟩ := hn [] ys rfl (by rw [← List.nil_append ys, ← hrest]; exact hne)
      refine ⟨f, c', ?_, ht⟩
      have hr := hread []
      rw [hxs, List.append_nil, List.append_nil] at hr
      rw [bind_of_ok hr, hf]
    · obtain ⟨f, c', hf, ht⟩ := hs start mid hxs.symm hmid
      exact ⟨f, c', bind_of_error hf, ht⟩
  · obtain ⟨f, c', hf, ht⟩ := hn mid rest hys.symm hne
    refine ⟨f, c', ?_, ht⟩
    rw [hstart, bind_of_ok (hread mid), hf]

theorem Framed.bind {step : Scan α} {next : α → Scan β} (hs : Framed step)
    (hn : ∀ a, Framed (next a)) : Framed (step >>= next) := by
  intro c c' b hb
  obtain ⟨a, c₁, h, h'⟩ := bind_eq_ok.mp hb
  obtain ⟨xs, hx, hreadx, hstarvex⟩ := hs _ _ _ h
  obtain ⟨ys, hy, hready, hstarvey⟩ := hn a _ _ _ h'
  refine ⟨xs ++ ys, by rw [hx, hy, List.append_assoc], fun rest => ?_,
    hstarvex.bind hreadx hstarvey⟩
  rw [List.append_assoc, bind_of_ok (hreadx _), hready]

theorem Framed.map {step : Scan α} (g : α → β) (hs : Framed step) : Framed (g <$> step) := by
  rw [map_eq_bind]
  exact hs.bind fun a => .pure (g a)

theorem Framed.guard {p : Prop} [Decidable p] {f : Fault} {next : Unit → Scan α}
    (h : ¬ p → Framed (next ())) : Framed (if p then throw f >>= next else next ()) := by
  split
  next =>
    rw [throw_bind]
    exact .error f
  next hp => exact h hp

theorem take_framed (n : Nat) : Framed (take n) := by
  intro c c' a ha
  unfold take at ha
  split at ha
  next hh =>
    cases ha
    rw [Bytes.holds_eq_decide, decide_eq_true_eq] at hh
    have hn : (c.rest.take n).length = n := List.length_take_of_le hh
    refine ⟨c.rest.take n, (List.take_append_drop n c.rest).symm, fun rest => ?_, ?_⟩
    · have hholds : Bytes.holds n (c.rest.take n ++ rest) = true := by
        rw [Bytes.holds_eq_decide, decide_eq_true_eq, List.length_append]
        omega
      unfold take
      rw [Cursor.before_rest, if_pos hholds, List.take_left' hn]
      simp only [Cursor.advance, Cursor.before, List.drop_left' hn]
    · intro start rest hsplit hne
      have hshort : start.length < n := by
        have hlen := congrArg List.length hsplit
        have hpos := List.length_pos_iff.mpr hne
        rw [List.length_append, hn] at hlen
        omega
      have hholds : ¬ Bytes.holds n start = true := by
        rw [Bytes.holds_eq_decide, decide_eq_true_eq]
        omega
      exact ⟨_, _, if_neg hholds, n, start.length, rfl⟩
  next => cases ha

theorem byte_framed : Framed byte := by
  intro c c' a ha
  unfold byte at ha
  split at ha
  next => cases ha
  next tail hr =>
    cases ha
    refine ⟨[a], by simp [Cursor.advance, hr], fun rest => ?_, ?_⟩
    · rfl
    · intro start rest hsplit hne
      have hstart : start = [] := by
        rcases List.append_eq_singleton_iff.mp hsplit with ⟨h, _⟩ | ⟨_, h⟩
        · exact h
        · exact absurd h hne
      subst hstart
      exact ⟨_, _, rfl, 1, 0, rfl⟩

theorem Elementary.framed {step : Scan α} (h : Elementary step) : Framed step := by
  induction h with
  | pure a => exact .pure a
  | error f => exact .error f
  | byte => exact byte_framed
  | take n => exact take_framed n
  | ofLimits step _ ih => exact fun c => ih c.limits c
  | bind _ _ ihs ihn => exact ihs.bind ihn

theorem charge_framed (nodes : Nat) : Framed (charge nodes) := by
  intro c c' a ha
  refine ⟨[], ?_, fun rest => ?_, starves_nil _ _⟩
  · unfold charge at ha
    dsimp only at ha
    split at ha
    next => cases ha; rfl
    next => cases ha
  · unfold charge at ha ⊢
    dsimp only [Cursor.before] at ha ⊢
    split at ha
    next => cases ha; rfl
    next => cases ha

/-- It makes no difference to what a step reads that bytes are demanded beforehand which it reads
anyway. -/
theorem Framed.demanding {needed : Nat} {step : Scan α} (h : Framed step)
    (hs : step.Spells fun _ xs => needed ≤ xs.length) : Framed (demanding needed step) := by
  intro c c' a ha
  have hle : needed ≤ c.rest.length := by
    by_contra hlt
    rw [demanding_of_lt (Nat.not_le.mp hlt)] at ha
    cases ha
  rw [demanding_of_le hle] at ha
  obtain ⟨bytes, hr, hread, hstarve⟩ := h _ _ _ ha
  obtain ⟨xs, hxs, hrx, _⟩ := hs _ _ _ ha
  have hsame : xs = bytes := List.append_cancel_right (hrx.symm.trans hr)
  subst hsame
  refine ⟨xs, hr, fun rest => ?_, ?_⟩
  · rw [demanding_of_le (by rw [Cursor.before_rest, List.length_append]; omega), hread]
  · intro start rest hsplit hne
    by_cases hstart : needed ≤ start.length
    · rw [demanding_of_le hstart]
      exact hstarve start rest hsplit hne
    · rw [demanding_of_lt (Nat.not_le.mp hstart)]
      exact ⟨_, _, rfl, needed, start.length, rfl⟩

end Scan

end CallWire
