import CallWire.Proofs.ValueBuilt
import CallWire.Proofs.ValueFrames

namespace CallWire

/-- The same place under the same limits, which do not bear on charged nodes; how many of them were
charged is left open. -/
structure Cursor.Abreast (c d : Cursor) : Prop where
  rest : c.rest = d.rest
  position : c.position = d.position
  limits : c.limits = d.limits
  unmetered : c.limits.expansion = none

namespace Cursor.Abreast

theorem refl {c : Cursor} (h : c.limits.expansion = none) : c.Abreast c := ⟨rfl, rfl, rfl, h⟩

theorem symm {c d : Cursor} (h : c.Abreast d) : d.Abreast c :=
  ⟨h.rest.symm, h.position.symm, h.limits.symm, h.limits ▸ h.unmetered⟩

theorem trans {c d e : Cursor} (h : c.Abreast d) (h' : d.Abreast e) : c.Abreast e :=
  ⟨h.rest.trans h'.rest, h.position.trans h'.position, h.limits.trans h'.limits, h.unmetered⟩

end Cursor.Abreast

namespace Scan

variable {α β : Type}

/-- The step succeeds from this cursor, with this answer, and leaves these bytes at this position. -/
def Reaches (step : Scan α) (c : Cursor) (a : α) (rest : Bytes) (position : Nat) : Prop :=
  ∃ c', step c = .ok a c' ∧ c'.rest = rest ∧ c'.position = position

/-- From one place the first step succeeds just when the second does, with the same answer and at
the same place. Where they fail they may do so over different faults. -/
def Matches (x y : Scan α) : Prop := ∀ c d : Cursor, c.Abreast d →
  (∃ a c' d', x c = .ok a c' ∧ y d = .ok a d' ∧ c'.Abreast d') ∨
  ∃ f g c' d', x c = .error f c' ∧ y d = .error g d'

namespace Matches

theorem symm {x y : Scan α} (h : Matches x y) : Matches y x := by
  intro c d hcd
  rcases h d c hcd.symm with ⟨a, d', c', hx, hy, hdc'⟩ | ⟨f, g, d', c', hx, hy⟩
  · exact .inl ⟨a, c', d', hy, hx, hdc'.symm⟩
  · exact .inr ⟨g, f, c', d', hy, hx⟩

theorem trans {x y z : Scan α} (h : Matches x y) (h' : Matches y z) : Matches x z := by
  intro c d hcd
  rcases h c d hcd with ⟨a, c', d', hx, hy, hcd'⟩ | ⟨f, g, c', d', hx, hy⟩
  · rcases h' d d (.refl hcd.symm.unmetered) with ⟨b, e, e', hy', hz, he⟩ | ⟨_, _, _, _, hy', _⟩
    · rw [hy] at hy'
      cases hy'
      exact .inl ⟨a, c', e', hx, hz, hcd'.trans he⟩
    · cases hy.symm.trans hy'
  · rcases h' d d (.refl hcd.symm.unmetered) with ⟨b, e, e', hy', _, _⟩ | ⟨_, g', e, e', _, hz⟩
    · cases hy.symm.trans hy'
    · exact .inr ⟨f, g', c', e', hx, hz⟩

theorem reaches_iff {x y : Scan α} (h : Matches x y) {c : Cursor}
    (hc : c.limits.expansion = none) {a : α} {rest : Bytes} {position : Nat} :
    Reaches x c a rest position ↔ Reaches y c a rest position := by
  have half {x y : Scan α} (h : Matches x y) (hx : Reaches x c a rest position) :
      Reaches y c a rest position := by
    obtain ⟨c', hok, hrest, hposition⟩ := hx
    rcases h c c (.refl hc) with ⟨b, d, d', hx, hy, hd⟩ | ⟨f, g, d, d', hx, _⟩
    · rw [hok] at hx
      cases hx
      exact ⟨d', hy, hd.rest.symm.trans hrest, hd.position.symm.trans hposition⟩
    · cases hok.symm.trans hx
  exact ⟨half h, half h.symm⟩

theorem pure (a : α) : Matches (Pure.pure a) (Pure.pure a) :=
  fun c d h => .inl ⟨a, c, d, rfl, rfl, h⟩

theorem error (f g : Fault) : Matches (throw f : Scan α) (throw g) :=
  fun c d _ => .inr ⟨f, g, c, d, rfl, rfl⟩

theorem bind {x y : Scan α} {f g : α → Scan β} (h : Matches x y) (hn : ∀ a, Matches (f a) (g a)) :
    Matches (x >>= f) (y >>= g) := by
  intro c d hcd
  rcases h c d hcd with ⟨a, c', d', hx, hy, hcd'⟩ | ⟨e, e', c', d', hx, hy⟩
  · rw [bind_of_ok hx, bind_of_ok hy]
    exact hn a c' d' hcd'
  · exact .inr ⟨e, e', c', d', bind_of_error hx, bind_of_error hy⟩

theorem map {x y : Scan α} (g : α → β) (h : Matches x y) : Matches (g <$> x) (g <$> y) := by
  rw [map_eq_bind, map_eq_bind]
  exact h.bind fun a => .pure (g a)

theorem guard {p : Prop} [Decidable p] {e : Fault} {f g : Unit → Scan α}
    (h : ¬ p → Matches (f ()) (g ())) :
    Matches (if p then throw e >>= f else f ()) (if p then throw e >>= g else g ()) := by
  by_cases hp : p
  · rw [if_pos hp, if_pos hp, throw_bind, throw_bind]
    exact .error e e
  · rw [if_neg hp, if_neg hp]
    exact h hp

theorem ofLimits (step : Limits → Scan α) (h : ∀ l, Matches (step l) (step l)) :
    Matches (get >>= fun c => step c.limits) (get >>= fun c => step c.limits) := by
  intro c d hcd
  change (∃ a c' d', step c.limits c = .ok a c' ∧ step d.limits d = .ok a d' ∧ _) ∨
    ∃ f g c' d', step c.limits c = .error f c' ∧ step d.limits d = .error g d'
  rw [← hcd.limits]
  exact h c.limits c d hcd

theorem times {x y : Scan α} (h : Matches x y) (n : Nat) :
    Matches (times x n) (times y n) := by
  induction n with
  | zero => exact .pure []
  | succ n ih =>
    rw [times_succ, times_succ]
    exact h.bind fun a => ih.bind fun as => .pure (a :: as)

/-- Where no limit bears on charges a charge changes nothing that a step looks at. -/
theorem charged {x y : Scan α} (nodes : Nat) (h : Matches x y) :
    Matches (charge nodes >>= fun _ => x) y := by
  intro c d hcd
  have hfree : c.limits.checkExpansion (Count.add c.expansion nodes) = .ok () := by
    rw [Limits.checkExpansion, hcd.unmetered]
    rfl
  have hcharge : charge nodes c = .ok () { c with expansion := Count.add c.expansion nodes } := by
    unfold charge
    simp only [hfree]
  rw [bind_of_ok hcharge]
  exact h _ d ⟨hcd.rest, hcd.position, hcd.limits, hcd.unmetered⟩

/-- To demand bytes beforehand refuses nothing that would succeed, as long as a step that succeeds
takes them all. -/
theorem demanding {x y : Scan α} {needed : Nat} (h : Matches x y)
    (hs : x.Spells fun _ xs => needed ≤ xs.length) : Matches (demanding needed x) y := by
  intro c d hcd
  by_cases hle : needed ≤ c.rest.length
  · rw [demanding_of_le hle]
    exact h c d hcd
  have hlt : c.rest.length < needed := Nat.not_le.mp hle
  rcases h c d hcd with ⟨a, c', d', hx, _, _⟩ | ⟨f, g, c', d', _, hy⟩
  · obtain ⟨xs, hxs, hr, _⟩ := hs c c' a hx
    rw [hr, List.length_append] at hlt
    omega
  · exact .inr ⟨_, g, c, d', demanding_of_lt hlt, hy⟩

end Matches

theorem Blind.matches {step : Scan α} (h : Blind step) : Matches step step := by
  intro c d hcd
  have hd : d = c.under d.limits d.expansion := by
    cases d
    simp only [Cursor.under, hcd.rest, hcd.position]
  have hrun := h.run_under c d.limits d.expansion
  rw [← hd] at hrun
  cases hs : step c with
  | ok a c' =>
    obtain ⟨hlimits, _⟩ := h.keeps hs
    rw [hs] at hrun
    refine .inl ⟨a, c', _, rfl, hrun, rfl, rfl, hlimits.trans hcd.limits, ?_⟩
    rw [hlimits]
    exact hcd.unmetered
  | error f c' =>
    rw [hs] at hrun
    exact .inr ⟨f, f, c', _, rfl, hrun⟩

end Scan

theorem Varint.scanLength_matches : scanLength.Matches scanLength := by
  unfold scanLength
  refine (number_blind .w32).matches.bind fun n => ?_
  refine .ofLimits (fun l => do Scan.ofExcept (l.checkCollection n); return n) fun l => ?_
  exact (Scan.Blind.ofExcept _).matches.bind fun _ => .pure n

namespace Value

mutual

/-- Reads a new value of the shape of a blank one as `scan` does, but reads the items of a vector
right after their number, without a look at the bytes left and without a charge. -/
def scanPlain : Value → Scan Value
  | bool _ => bool <$> Scan.bool
  | text _ => text <$> Scan.text
  | word n => word <$> Word.scan n.width n.signed
  | varint n => varint <$> Varint.scan n.width
  | vector t _ => do
    let length ← Varint.scanLength
    return vector t (← Scan.times (scanPlain t) length)
  | array t n items => array t n <$> Scan.times (scanPlain t) items.length
  | struct fields => struct <$> scanAllPlain fields
  | tuple fields => tuple <$> scanAllPlain fields
  | enum variants _ _ => do
    let tag ← Scan.byte
    if variants.length ≤ tag.toNat then throw (.invalidEnumTag tag.toNat variants.length)
    return enum variants tag (← scanVariantPlain variants tag.toNat)

def scanAllPlain : List Value → Scan (List Value)
  | [] => pure []
  | v :: vs => do
    let head ← scanPlain v
    return head :: (← scanAllPlain vs)

def scanVariantPlain : List (List Value) → Nat → Scan (List Value)
  | [], _ => pure []
  | fields :: _, 0 => scanAllPlain fields
  | _ :: variants, n + 1 => scanVariantPlain variants n

end

theorem scanVariantPlain_eq {variants : List (List Value)} {n : Nat} {fields : List Value}
    (h : variants[n]? = some fields) : scanVariantPlain variants n = scanAllPlain fields := by
  induction variants generalizing n with
  | nil => simp at h
  | cons first others ih =>
    cases n with
    | zero =>
      cases (show first = fields by simpa using h)
      rfl
    | succ n => exact ih (by simpa using h)

theorem scanAll_matches {vs : List Value} (h : ∀ v ∈ vs, (scan v).Matches (scanPlain v)) :
    (scanAll vs).Matches (scanAllPlain vs) := by
  induction vs with
  | nil => exact .pure []
  | cons v vs ih =>
    obtain ⟨hv, hvs⟩ := List.forall_mem_cons.mp h
    rw [scanAll, scanAllPlain]
    exact hv.bind fun w => (ih hvs).bind fun ws => .pure (w :: ws)

theorem scanAllPlain_blankAll {vs : List Value} (h : ∀ v ∈ vs, scanPlain v.blank = scanPlain v) :
    scanAllPlain (blankAll vs) = scanAllPlain vs := by
  induction vs with
  | nil => rfl
  | cons v vs ih =>
    obtain ⟨hv, hvs⟩ := List.forall_mem_cons.mp h
    rw [blankAll, scanAllPlain, scanAllPlain, hv, ih hvs]

theorem scanPlain_blank (v : Value) : scanPlain v.blank = scanPlain v := by
  induction v using parts_induction with
  | bool | text | word | varint | vector | enum => rfl
  | array t n items => rw [blank, scanPlain, scanPlain, List.length_replicate]
  | struct fields hf | tuple fields hf =>
    rw [blank, scanPlain, scanPlain, scanAllPlain_blankAll hf]

/-- The plain way to read a vector: its length, then so many fresh copies of its element, each
decoded by the same step, one after the other. -/
def plainVector (decode : Value → Scan Value) (t : Value) : Scan Value := do
  let length ← Varint.scanLength
  return vector t (← Scan.times (decode t.blank) length)

theorem scanPlain_vector (t : Value) (items : List Value) :
    scanPlain (vector t items) = plainVector scanPlain t := by
  rw [scanPlain, plainVector, scanPlain_blank]

/-- A vector's look ahead costs it nothing, since each item takes at least the bytes demanded. -/
theorem scan_vector_matches {t : Value} (ht : Sound t) (items : List Value)
    {decode : Value → Scan Value} (h : (scan t).Matches (decode t.blank)) :
    (scan (vector t items)).Matches (plainVector decode t) := by
  rw [scan, Scan.vectorLength_bind, plainVector]
  refine Varint.scanLength_matches.bind fun n => ?_
  have hitems := (h.times n).bind fun ws => Scan.Matches.pure (vector t ws)
  refine (hitems.charged _).demanding ?_
  refine (Scan.charge_spells _).bind fun _ xs hx => ?_
  refine (times_spells_paid ht n).bind fun ws ys hy => .pure ?_
  subst hx
  simpa using hy

/-- Looking ahead at every vector, at every depth, or at none makes no difference to what is read. -/
theorem scan_matches {v : Value} (hv : Sound v) : (scan v).Matches (scanPlain v) := by
  induction hv with
  | bool b => exact Scan.bool_blind.matches.map Value.bool
  | text s =>
    have htext : Scan.text.Matches Scan.text :=
      Varint.scanLength_matches.bind fun n => (Scan.textOf_blind n).matches
    exact htext.map Value.text
  | word n => exact (Word.scan_blind _ _).matches.map Value.word
  | varint n => exact (Varint.scan_blind _).matches.map Value.varint
  | @vector t items ht _ _ _ ih =>
    rw [scanPlain_vector]
    rw [← scanPlain_blank t] at ih
    exact scan_vector_matches ht items ih
  | @array t n items _ _ _ _ _ ih =>
    rw [scan, scanPlain]
    exact (ih.times items.length).map (Value.array t n)
  | struct _ ih =>
    rw [scan, scanPlain]
    exact (scanAll_matches ih).map Value.struct
  | tuple _ ih =>
    rw [scan, scanPlain]
    exact (scanAll_matches ih).map Value.tuple
  | @enum variants _ _ _ _ _ _ _ _ _ ih =>
    rw [scan, scanPlain]
    refine (Scan.Blind.byte).matches.bind fun tag => .guard fun hlt => ?_
    have hget := List.getElem?_eq_getElem (Nat.not_le.mp hlt)
    rw [scanVariant_eq hget, scanVariantPlain_eq hget]
    exact (scanAll_matches (ih _ (List.mem_of_getElem? hget))).bind fun ws => .pure _

/-- Decoding in place as a step, whose answer is the value it leaves. -/
def refillStep (v : Value) : Scan Value := fun c =>
  match v.refill c with
  | ⟨w, none, c'⟩ => .ok w c'
  | ⟨_, some f, c'⟩ => .error f c'

theorem Sound.refillStep_eq_scan {v : Value} (hv : Sound v) : refillStep v = scan v := by
  funext c
  rcases hv.refill_as_scan c with ⟨w, c', hs, hr⟩ | ⟨w, f, c', hs, hr⟩
  · simp only [refillStep, hr, hs]
  · simp only [refillStep, hr, hs]

/-- Where no limit bears on charges, a value is decoded from the same inputs, alike and to the same
place, whether the vectors in it look ahead at the bytes left or not, and a vector so as well when it
alone does without: when it reads its length and then decodes fresh copies of its element. -/
theorem Built.refill_iff_plain {v : Value} (hv : Built v) {c : Cursor}
    (hc : c.limits.expansion = none) (w : Value) (rest : Bytes) (position : Nat) :
    ((refillStep v).Reaches c w rest position ↔ (scanPlain v).Reaches c w rest position) ∧
    ∀ t items, v = .vector t items → scanPlain v = plainVector scanPlain t ∧
      ((refillStep v).Reaches c w rest position ↔
        (plainVector refillStep t).Reaches c w rest position) := by
  rw [hv.sound.refillStep_eq_scan]
  refine ⟨(scan_matches hv.sound).reaches_iff hc, fun t items heq => ?_⟩
  subst heq
  have ht : Sound t := hv.vectorElement.sound
  have hcopy : (scan t).Matches (refillStep t.blank) := by
    rw [ht.blank.refillStep_eq_scan, scan_blank]
    exact (scan_matches ht).trans (scan_matches ht).symm
  exact ⟨scanPlain_vector t items, (scan_vector_matches ht items hcopy).reaches_iff hc⟩

def shortRows : Value := newVector (newVector (.word (Word.zero .w16 false)))

theorem built_shortRows : Built shortRows := .newVector (.newVector (.word _))

/-- Two rows, one of them empty, are read plainly as well; three rows that two bytes cannot hold are
not. -/
theorem refill_iff_plain_rows :
    let limits : Limits := ⟨none, some 3, none, none⟩
    let rows := Value.vector (newVector (.word (Word.zero .w16 false)))
      [.vector (.word (Word.zero .w16 false)) [.word (Word.ofBits .w16 false 1)],
        .vector (.word (Word.zero .w16 false)) []]
    (scanPlain shortRows).Reaches (.start [8, 4, 1, 0, 0, 99] limits) rows [99] 5 ∧
      ∀ w rest position, ¬ (plainVector refillStep (newVector (.word (Word.zero .w16 false)))).Reaches
        (.start [12, 0, 0] limits) w rest position := by
  intro limits rows
  have hread : (refillStep shortRows).Reaches (.start [8, 4, 1, 0, 0, 99] limits) rows [99] 5 :=
    ⟨_, rfl, rfl, rfl⟩
  refine ⟨(built_shortRows.refill_iff_plain rfl rows [99] 5).1.mp hread, fun w rest position h => ?_⟩
  have hfree : (Cursor.start [12, 0, 0] limits).limits.expansion = none := rfl
  obtain ⟨_, hsame⟩ := (built_shortRows.refill_iff_plain hfree w rest position).2 _ [] rfl
  obtain ⟨c', hok, _⟩ := hsame.mpr h
  have hrefused : refillStep shortRows (.start [12, 0, 0] limits) =
      .error (.truncated 3 2) ⟨[0, 0], 1, 0, limits⟩ := rfl
  rw [hrefused] at hok
  cases hok

end Value

end CallWire
