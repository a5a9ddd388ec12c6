import CallWire.Proofs.Outcome

namespace CallWire

/-- No length and no charge exceeds these limits. -/
def Limits.Lenient (l : Limits) : Prop := l.collection = none ∧ l.expansion = none

def Fault.IsLimit (f : Fault) : Prop := ∃ bound value max, f = .limitExceeded bound value max

namespace Limits

theorem within_cases (bound : Bound) (max : Option Nat) (value : Nat) :
    within bound max value = .ok () ∨
      max ≠ none ∧ ∃ f, within bound max value = .error f ∧ f.IsLimit := by
  cases max with
  | none => exact .inl rfl
  | some m =>
    by_cases hm : value ≤ m
    · exact .inl (if_pos hm)
    · exact .inr ⟨nofun, .limitExceeded bound value m, if_neg hm, bound, value, m, rfl⟩

/-- A check against a bound answers as that against a laxer one, or fails over its own bound. -/
theorem within_narrows {bound : Bound} {strict lax : Option Nat} (value : Nat)
    (h : ∀ n ∈ lax, ∃ k ∈ strict, k ≤ n) :
    Narrows (fun f => ∃ k ∈ strict, f = .limitExceeded bound value k)
      (within bound strict value) (within bound lax value) := by
  by_cases hv : ∀ k ∈ strict, value ≤ k
  · have hlax : ∀ n ∈ lax, value ≤ n := by
      intro n hn
      obtain ⟨k, hk, hle⟩ := h n hn
      exact Nat.le_trans (hv k hk) hle
    exact .inl ((within_eq_ok_iff.mpr hv).trans (within_eq_ok_iff.mpr hlax).symm)
  · cases strict with
    | none => exact absurd nofun hv
    | some k =>
      have hk : ¬ value ≤ k := fun hle => hv fun n hn => Option.some.inj hn ▸ hle
      exact .inr ⟨_, if_neg hk, k, rfl, rfl⟩

theorem checkCollection_cases (l : Limits) (n : Nat) : l.checkCollection n = .ok () ∨
    ¬ l.Lenient ∧ ∃ f, l.checkCollection n = .error f ∧ f.IsLimit :=
  (within_cases .collection l.collection n).imp_right fun ⟨hne, hf⟩ => ⟨fun hl => hne hl.1, hf⟩

theorem checkExpansion_cases (l : Limits) (n : Nat) : l.checkExpansion n = .ok () ∨
    ¬ l.Lenient ∧ ∃ f, l.checkExpansion n = .error f ∧ f.IsLimit :=
  (within_cases .expansion l.expansion n).imp_right fun ⟨hne, hf⟩ => ⟨fun hl => hne hl.2, hf⟩

end Limits

namespace Scan

variable {α β : Type}

/-- From this cursor the step finds the answer in exactly these bytes and leaves the rest, unless
a limit stops it on the way. -/
def Lands (step : Scan α) (c : Cursor) (bytes rest : Bytes) (a : α) : Prop :=
  (∃ expansion, step c = .ok a ⟨rest, c.position + bytes.length, expansion, c.limits⟩) ∨
  ¬ c.limits.Lenient ∧ ∃ f c', step c = .error f c' ∧ f.IsLimit

/-- The step finds the answer in exactly these bytes, whatever follows them. -/
def Reads (step : Scan α) (bytes : Bytes) (a : α) : Prop :=
  ∀ (c : Cursor) (rest : Bytes), c.rest = bytes ++ rest → Lands step c bytes rest a

/-- A step that succeeds has read exactly bytes that spell its answer. -/
def Spells (step : Scan α) (spell : α → Bytes → Prop) : Prop :=
  ∀ (c c' : Cursor) (a : α), step c = .ok a c' →
    ∃ bytes, spell a bytes ∧ c.rest = bytes ++ c'.rest ∧
      c'.position = c.position + bytes.length

theorem Reads.pure (a : α) : Reads (Pure.pure a) [] a := by
  intro c rest hr
  refine .inl ⟨c.expansion, ?_⟩
  change EStateM.Result.ok a c = _
  rw [← show c.rest = rest from hr]
  rfl

theorem Lands.bind {step : Scan α} {next : α → Scan β} {c : Cursor} {xs ys rest : Bytes} {a : α}
    {b : β} (hs : Lands step c xs (ys ++ rest) a)
    (hn : ∀ expansion, Lands (next a) ⟨ys ++ rest, c.position + xs.length, expansion, c.limits⟩
      ys rest b) : Lands (step >>= next) c (xs ++ ys) rest b := by
  rcases hs with ⟨expansion, h⟩ | ⟨hl, f, c', h, hf⟩
  · unfold Lands
    rw [bind_of_ok h, List.length_append, ← Nat.add_assoc]
    exact hn expansion
  · exact .inr ⟨hl, f, c', bind_of_error h, hf⟩

theorem Reads.bind {step : Scan α} {next : α → Scan β} {xs ys : Bytes} {a : α} {b : β}
    (hs : Reads step xs a) (hn : Reads (next a) ys b) : Reads (step >>= next) (xs ++ ys) b := by
  intro c rest hr
  have hfirst : c.rest = xs ++ (ys ++ rest) := by rw [hr, List.append_assoc]
  exact (hs c (ys ++ rest) hfirst).bind fun expansion => hn _ rest rfl

theorem Reads.bind_nil {step : Scan α} {next : α → Scan β} {xs : Bytes} {a : α} {b : β}
    (hs : Reads step xs a) (hn : Reads (next a) [] b) : Reads (step >>= next) xs b := by
  have h := hs.bind hn
  rwa [List.append_nil] at h

theorem Lands.map {step : Scan α} {c : Cursor} {xs rest : Bytes} {a : α} (g : α → β)
    (hs : Lands step c xs rest a) : Lands (g <$> step) c xs rest (g a) := by
  have h : Lands (step >>= fun a => Pure.pure (g a)) c (xs ++ []) rest (g a) :=
    Lands.bind hs fun expansion => Reads.pure (g a) _ rest rfl
  rwa [List.append_nil, ← map_eq_bind] at h

theorem Reads.map {step : Scan α} {xs : Bytes} {a : α} (g : α → β) (hs : Reads step xs a) :
    Reads (g <$> step) xs (g a) :=
  fun c rest hr => (hs c rest hr).map g

/-- A step that looks at the bytes to come reads as any step that does the same before them. -/
theorem Reads.look {next : Cursor → Scan α} {step : Scan α} {xs : Bytes} {a : α}
    (hn : ∀ c rest, c.rest = xs ++ rest → next c c = step c) (h : Reads step xs a) :
    Reads (get >>= next) xs a := by
  intro c rest hr
  have hrun : (get >>= next) c = step c := hn c rest hr
  unfold Lands
  rw [hrun]
  exact h c rest hr

/-- A check that only a limit can fail takes no byte. -/
theorem Reads.check {check : Cursor → Except Fault Unit} {next : Scan α} {xs : Bytes} {a : α}
    (hc : ∀ c, check c = .ok () ∨
      ¬ c.limits.Lenient ∧ ∃ f, check c = .error f ∧ f.IsLimit)
    (hn : Reads next xs a) : Reads (do Scan.ofExcept (check (← get)); next) xs a := by
  intro c rest hr
  unfold Lands
  have hrun : (do Scan.ofExcept (check (← get)); next : Scan α) c =
      (Scan.ofExcept (check c) >>= fun _ => next) c := rfl
  rw [hrun]
  rcases hc c with h | ⟨hl, f, h, hf⟩
  · have ho : Scan.ofExcept (check c) c = .ok () c := by simp only [ofExcept, h]
    rw [bind_of_ok ho]
    exact hn c rest hr
  · have ho : Scan.ofExcept (check c) c = .error f c := by simp only [ofExcept, h]
    exact .inr ⟨hl, f, c, bind_of_error ho, hf⟩

/-- Without limits nothing stops a step that reads certain bytes. -/
theorem Reads.run_unbounded {step : Scan α} {xs : Bytes} {a : α} (h : Reads step xs a)
    (rest : Bytes) : ∃ expansion,
      step (Cursor.start (xs ++ rest) .unbounded) = .ok a ⟨rest, xs.length, expansion, .unbounded⟩ := by
  rcases h (Cursor.start (xs ++ rest) .unbounded) rest rfl with ⟨expansion, hs⟩ | ⟨hl, _⟩
  · exact ⟨expansion, by simpa [Cursor.start] using hs⟩
  · exact absurd ⟨rfl, rfl⟩ hl

/-- A step has one answer at the front of the same bytes, and one place where it ends. -/
theorem Reads.unique {step : Scan α} {xs ys rest others : Bytes} {a b : α} (h : Reads step xs a)
    (h' : Reads step ys b) (he : xs ++ rest = ys ++ others) : a = b ∧ rest = others := by
  obtain ⟨_, hs⟩ := h.run_unbounded rest
  obtain ⟨_, hs'⟩ := h'.run_unbounded others
  rw [he, hs'] at hs
  obtain ⟨hanswer, hcursor⟩ := EStateM.Result.ok.inj hs
  exact ⟨hanswer.symm, (congrArg Cursor.rest hcursor).symm⟩

theorem take_reads (bytes : Bytes) : Reads (take bytes.length) bytes bytes := by
  intro c rest hr
  refine .inl ⟨c.expansion, ?_⟩
  have hh : Bytes.holds bytes.length c.rest = true := by
    rw [Bytes.holds_eq_decide, hr]
    simp
  unfold take
  rw [if_pos hh]
  simp only [Cursor.advance, hr, List.take_left, List.drop_left]

theorem take_little_reads (k n : Nat) :
    Reads (take k) (Bytes.little k n) (Bytes.little k n) := by
  have h := take_reads (Bytes.little k n)
  rwa [Bytes.little_length] at h

theorem byte_reads (b : UInt8) : Reads byte [b] b := by
  intro c rest hr
  refine .inl ⟨c.expansion, ?_⟩
  have hr' : c.rest = b :: rest := hr
  simp only [byte, hr', Cursor.advance]
  rfl

theorem charge_reads (nodes : Nat) : Reads (charge nodes) [] () := by
  intro c rest hr
  have hrest : c.rest = rest := hr
  rcases c.limits.checkExpansion_cases (Count.add c.expansion nodes) with h | ⟨hl, f, h, hf⟩
  · refine .inl ⟨Count.add c.expansion nodes, ?_⟩
    simp only [charge, h, ← hrest]
    rfl
  · refine .inr ⟨hl, f, c, ?_, hf⟩
    simp only [charge, h]

theorem Spells.pure {spell : α → Bytes → Prop} {a : α} (h : spell a []) :
    Spells (Pure.pure a) spell := by
  intro c c' x hx
  obtain ⟨rfl, rfl⟩ := pure_eq_ok.mp hx
  exact ⟨[], h, rfl, rfl⟩

theorem Spells.bind {step : Scan α} {next : α → Scan β} {first : α → Bytes → Prop}
    {spell : β → Bytes → Prop} (hs : Spells step first)
    (hn : ∀ a xs, first a xs → Spells (next a) fun b ys => spell b (xs ++ ys)) :
    Spells (step >>= next) spell := by
  intro c c' b hb
  obtain ⟨a, c₁, h, h'⟩ := bind_eq_ok.mp hb
  obtain ⟨xs, hx, hrx, hpx⟩ := hs _ _ _ h
  obtain ⟨ys, hy, hry, hpy⟩ := hn a xs hx _ _ _ h'
  refine ⟨xs ++ ys, hy, by rw [hrx, hry, List.append_assoc], ?_⟩
  rw [hpy, hpx, List.length_append, Nat.add_assoc]

theorem Spells.mono {step : Scan α} {first spell : α → Bytes → Prop} (hs : Spells step first)
    (h : ∀ a xs, first a xs → spell a xs) : Spells step spell := by
  intro c c' a ha
  obtain ⟨xs, hx, hr⟩ := hs _ _ _ ha
  exact ⟨xs, h a xs hx, hr⟩

theorem Spells.map {step : Scan α} {first : α → Bytes → Prop} {spell : β → Bytes → Prop}
    {g : α → β} (hs : Spells step first) (h : ∀ a xs, first a xs → spell (g a) xs) :
    Spells (g <$> step) spell := by
  rw [map_eq_bind]
  exact hs.bind fun a xs hx => Spells.pure (by simpa using h a xs hx)

theorem Spells.error {spell : α → Bytes → Prop} (f : Fault) :
    Spells (throw f : Scan α) spell :=
  fun _ _ _ h => absurd h throw_ne_ok

theorem Spells.get {next : Cursor → Scan α} {spell : α → Bytes → Prop}
    (h : ∀ c, Spells (next c) spell) : Spells (get >>= next) spell :=
  fun c => h c c

theorem ofExcept_spells (e : Except Fault α) :
    Spells (ofExcept e) fun a xs => e = .ok a ∧ xs = [] := by
  intro c c' a ha
  unfold ofExcept at ha
  split at ha
  next => cases ha; exact ⟨[], ⟨rfl, rfl⟩, rfl, rfl⟩
  next => cases ha

theorem Spells.guard {p : Prop} [Decidable p] {f : Fault} {next : Unit → Scan α}
    {spell : α → Bytes → Prop} (h : ¬ p → Spells (next ()) spell) :
    Spells (if p then throw f >>= next else next ()) spell := by
  split
  next =>
    rw [throw_bind]
    exact .error f
  next hp => exact h hp

theorem take_spells (n : Nat) : Spells (take n) fun bs xs => xs = bs ∧ bs.length = n := by
  intro c c' a ha
  unfold take at ha
  split at ha
  next hh =>
    cases ha
    rw [Bytes.holds_eq_decide, decide_eq_true_eq] at hh
    have hn : (c.rest.take n).length = n := List.length_take_of_le hh
    exact ⟨c.rest.take n, ⟨rfl, hn⟩, (List.take_append_drop n c.rest).symm, by rw [hn]; rfl⟩
  next => cases ha

theorem byte_spells : Spells byte fun b xs => xs = [b] := by
  intro c c' a ha
  unfold byte at ha
  split at ha
  next => cases ha
  next hr =>
    cases ha
    exact ⟨[a], rfl, by simp [Cursor.advance, hr], rfl⟩

theorem charge_spells (nodes : Nat) : Spells (charge nodes) fun _ xs => xs = [] := by
  intro c c' a ha
  unfold charge at ha
  dsimp only at ha
  split at ha
  next => cases ha; exact ⟨[], rfl, rfl, rfl⟩
  next => cases ha

end Scan

end CallWire
