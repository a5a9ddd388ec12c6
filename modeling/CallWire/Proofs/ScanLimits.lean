import CallWire.Proofs.ValueSpells

namespace CallWire

namespace Scan

variable {α β : Type} {l : Limits}

/-- A step that succeeds under these limits keeps them, and its answer has the property. -/
def Gives (l : Limits) (step : Scan α) (p : α → Prop) : Prop :=
  ∀ (c c' : Cursor) (a : α), c.limits = l → step c = .ok a c' → c'.limits = l ∧ p a

namespace Gives

theorem mono {step : Scan α} {p q : α → Prop} (h : Gives l step p) (hpq : ∀ a, p a → q a) :
    Gives l step q :=
  fun c c' a hc ha => (h c c' a hc ha).imp_right (hpq a)

theorem bind {step : Scan α} {next : α → Scan β} {p : α → Prop} {q : β → Prop}
    (hs : Gives l step p) (hn : ∀ a, p a → Gives l (next a) q) : Gives l (step >>= next) q := by
  intro c c' b hc hb
  obtain ⟨a, c₁, ha, hb⟩ := bind_eq_ok.mp hb
  obtain ⟨hc₁, hp⟩ := hs c c₁ a hc ha
  exact hn a hp c₁ c' b hc₁ hb

theorem pure {p : α → Prop} {a : α} (h : p a) : Gives l (Pure.pure a) p := by
  intro c c' b hc hb
  obtain ⟨rfl, rfl⟩ := pure_eq_ok.mp hb
  exact ⟨hc, h⟩

theorem map {step : Scan α} {g : α → β} {q : β → Prop} (h : Gives l step fun a => q (g a)) :
    Gives l (g <$> step) q := by
  rw [map_eq_bind]
  exact h.bind fun a ha => .pure ha

theorem guard {p : Prop} [Decidable p] {f : Fault} {next : Unit → Scan α} {q : α → Prop}
    (h : ¬ p → Gives l (next ()) q) : Gives l (if p then throw f >>= next else next ()) q := by
  split
  next =>
    rw [throw_bind]
    exact fun _ _ _ _ ha => absurd ha throw_ne_ok
  next hp => exact h hp

theorem ofExcept (e : Except Fault α) : Gives l (ofExcept e) fun a => e = .ok a := by
  intro c c' a hc ha
  cases e with
  | ok b =>
    cases ha
    exact ⟨hc, rfl⟩
  | error f => cases ha

/-- A step that looks at the limits finds these. -/
theorem ofLimits (step : Limits → Scan α) {p : α → Prop} (h : Gives l (step l) p) :
    Gives l (get >>= fun c => step c.limits) p := by
  intro c c' a hc ha
  subst hc
  exact h c c' a rfl ha

theorem demanding {needed : Nat} {step : Scan α} {p : α → Prop} (h : Gives l step p) :
    Gives l (demanding needed step) p := by
  intro c c' a hc ha
  by_cases hle : needed ≤ c.rest.length
  · rw [demanding_of_le hle] at ha
    exact h c c' a hc ha
  · rw [demanding_of_lt (Nat.not_le.mp hle)] at ha
    cases ha

end Gives

theorem Blind.gives {step : Scan α} (h : Blind step) : Gives l step fun _ => True :=
  fun _ _ _ hc ha => ⟨(h.keeps ha).1.trans hc, trivial⟩

theorem Blind.gives_spelled {step : Scan α} {spell : α → Bytes → Prop} (h : Blind step)
    (hs : Spells step spell) : Gives l step fun a => ∃ xs, spell a xs := by
  intro c c' a hc ha
  obtain ⟨xs, hxs, _⟩ := hs c c' a ha
  exact ⟨(h.keeps ha).1.trans hc, xs, hxs⟩

theorem charge_gives (nodes : Nat) : Gives l (charge nodes) fun _ => True := by
  intro c c' u hc ha
  unfold charge at ha
  dsimp only at ha
  split at ha
  next =>
    cases ha
    exact ⟨hc, trivial⟩
  next => cases ha

end Scan

/-- A length that is read is one that a collection may have. -/
theorem Varint.scanLength_gives {l : Limits} :
    scanLength.Gives l fun n => ∀ max ∈ l.collection, n ≤ max := by
  unfold scanLength
  refine (number_blind .w32).gives.bind fun n _ => ?_
  refine .ofLimits (fun l => do Scan.ofExcept (l.checkCollection n); return n) ?_
  exact (Scan.Gives.ofExcept _).bind fun _ h => .pure (Limits.within_eq_ok_iff.mp h)

namespace Scan

variable {l : Limits}

theorem textOf_spells (n : Nat) : (textOf n).Spells fun s _ => s.utf8ByteSize = n := by
  unfold textOf
  refine (take_spells n).bind fun bs _ hbs => ?_
  split
  next s hs =>
    refine .pure ?_
    rw [← Utf8.length_encode, Utf8.encode_of_decode hs, hbs.2]
  next => exact .error _

/-- A text that is read has no more bytes than a collection may have items. -/
theorem text_gives : text.Gives l fun s => ∀ max ∈ l.collection, s.utf8ByteSize ≤ max := by
  have htext : ∀ n, (textOf n).Gives l fun s => s.utf8ByteSize = n := fun n =>
    ((textOf_blind n).gives_spelled (textOf_spells n)).mono fun _ ⟨_, hs⟩ => hs
  refine Varint.scanLength_gives.bind fun n hn => (htext n).mono fun s hs => ?_
  rw [hs]
  exact hn

end Scan

end CallWire
