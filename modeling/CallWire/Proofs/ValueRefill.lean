import CallWire.Proofs.ValueSpells

namespace CallWire

namespace Value

/-- Decoding in place succeeds and fails as reading anew does, and finds the same value. -/
def RefillsAsScan (v : Value) (c : Cursor) : Prop :=
  (∃ w c', scan v c = .ok w c' ∧ refill v c = ⟨w, none, c'⟩) ∨
    ∃ w f c', scan v c = .error f c' ∧ refill v c = ⟨w, some f, c'⟩

theorem refillAll_as_scanAll {vs : List Value} (h : ∀ v ∈ vs, ∀ c, RefillsAsScan v c)
    (c : Cursor) :
    (∃ ws c', scanAll vs c = .ok ws c' ∧ refillAll vs c = ⟨ws, none, c'⟩) ∨
      ∃ ws f c', scanAll vs c = .error f c' ∧ refillAll vs c = ⟨ws, some f, c'⟩ := by
  induction vs generalizing c with
  | nil => exact .inl ⟨[], c, rfl, rfl⟩
  | cons v vs ih =>
    obtain ⟨hv, hvs⟩ := List.forall_mem_cons.mp h
    rcases hv c with ⟨w, c₁, hs, hr⟩ | ⟨w, f, c₁, hs, hr⟩
    · rcases ih hvs c₁ with ⟨ws, c₂, hss, hrs⟩ | ⟨ws, f, c₂, hss, hrs⟩
      · refine .inl ⟨w :: ws, c₂, ?_, ?_⟩
        · rw [scanAll, Scan.bind_of_ok hs, Scan.bind_of_ok hss]
          rfl
        · simp only [refillAll, hr, hrs]
      · refine .inr ⟨w :: ws, f, c₂, ?_, ?_⟩
        · rw [scanAll, Scan.bind_of_ok hs, Scan.bind_of_error hss]
        · simp only [refillAll, hr, hrs]
    · refine .inr ⟨w :: vs, f, c₁, ?_, ?_⟩
      · rw [scanAll, Scan.bind_of_error hs]
      · simp only [refillAll, hr]

theorem refill_as_scan_map {vs : List Value} {v : Value} {g : List Value → Value}
    (h : ∀ v ∈ vs, ∀ c, RefillsAsScan v c) (hs : scan v = g <$> scanAll vs)
    (hr : ∀ c, refill v c = ⟨g (refillAll vs c).value, (refillAll vs c).fault,
      (refillAll vs c).cursor⟩) (c : Cursor) : RefillsAsScan v c := by
  unfold RefillsAsScan
  rw [hs, hr, Scan.map_eq_bind]
  rcases refillAll_as_scanAll h c with ⟨ws, c', hss, hrs⟩ | ⟨ws, f, c', hss, hrs⟩
  · exact .inl ⟨g ws, c', by rw [Scan.bind_of_ok hss]; rfl, by rw [hrs]⟩
  · exact .inr ⟨g ws, f, c', by rw [Scan.bind_of_error hss], by rw [hrs]⟩

/-- The values that are read aside and replaced only as a whole. -/
def Whole : Value → Prop
  | array .. => False
  | struct _ => False
  | tuple _ => False
  | _ => True

theorem Whole.refill_eq {v : Value} (hv : v.Whole) (c : Cursor) :
    refill v c = match scan v c with
      | .ok w c' => ⟨w, none, c'⟩
      | .error f c' => ⟨v, some f, c'⟩ := by
  cases v with
  | array | struct | tuple => cases hv
  | _ => rfl

theorem Whole.refill_as_scan {v : Value} (hv : v.Whole) (c : Cursor) : RefillsAsScan v c := by
  unfold RefillsAsScan
  rw [hv.refill_eq]
  cases hs : scan v c with
  | ok w c' => exact .inl ⟨w, c', rfl, rfl⟩
  | error f c' => exact .inr ⟨v, f, c', rfl, rfl⟩

theorem Sound.refill_as_scan {v : Value} (h : Sound v) (c : Cursor) : RefillsAsScan v c := by
  induction h generalizing c with
  | bool | text | word | varint | vector | enum =>
    refine Whole.refill_as_scan ?_ c
    trivial
  | @array t n items ht _ _ hi hsh _ ih =>
    refine refill_as_scan_map (g := Value.array t n) ih ?_ (fun _ => rfl) c
    rw [scan, times_eq_scanAll]
    intro v hv
    exact scan_eq_of_blank_eq ((hi v hv).settled t ht (hsh v hv))
  | struct _ ih => exact refill_as_scan_map ih (by rw [scan]) (fun _ => rfl) c
  | tuple _ ih => exact refill_as_scan_map ih (by rw [scan]) (fun _ => rfl) c

theorem Sound.scan_of_refill {v w : Value} {c c' : Cursor} (h : Sound v)
    (hr : refill v c = ⟨w, none, c'⟩) : scan v c = .ok w c' := by
  rcases h.refill_as_scan c with ⟨u, c₁, hs, hr'⟩ | ⟨u, f, c₁, hs, hr'⟩
  · rw [hr] at hr'
    cases hr'
    exact hs
  · rw [hr] at hr'
    cases hr'

theorem Sound.refill_of_scan {v w : Value} {c c' : Cursor} (h : Sound v)
    (hs : scan v c = .ok w c') : refill v c = ⟨w, none, c'⟩ := by
  rcases h.refill_as_scan c with ⟨u, c₁, hs', hr⟩ | ⟨u, f, c₁, hs', hr⟩
  · rw [hs] at hs'
    cases hs'
    exact hr
  · rw [hs] at hs'
    cases hs'

/-- What a decoding in place leaves is sound and of the same shape, even where it stops midway. -/
def Keeps (v w : Value) : Prop := Sound w ∧ w.blank = v.blank

theorem refillAll_keeps {vs : List Value} (hs : ∀ v ∈ vs, Sound v)
    (h : ∀ v ∈ vs, ∀ c, Keeps v (refill v c).value) (c : Cursor) :
    (∀ w ∈ (refillAll vs c).value, Sound w) ∧ blankAll (refillAll vs c).value = blankAll vs := by
  induction vs generalizing c with
  | nil => exact ⟨by simp [refillAll], rfl⟩
  | cons v vs ih =>
    obtain ⟨_, hss⟩ := List.forall_mem_cons.mp hs
    obtain ⟨hv, hvs⟩ := List.forall_mem_cons.mp h
    obtain ⟨hw, hb⟩ := hv c
    obtain ⟨w, fault, c₁, hr⟩ : ∃ w fault c₁, refill v c = ⟨w, fault, c₁⟩ := ⟨_, _, _, rfl⟩
    rw [hr] at hw hb
    cases fault with
    | some f =>
      simp only [refillAll, hr]
      exact ⟨List.forall_mem_cons.mpr ⟨hw, hss⟩, by rw [blankAll, blankAll, hb]⟩
    | none =>
      obtain ⟨hws, hbs⟩ := ih hss hvs c₁
      simp only [refillAll, hr]
      exact ⟨List.forall_mem_cons.mpr ⟨hw, hws⟩, by rw [blankAll, blankAll, hb, hbs]⟩

theorem keeps_whole {v : Value} (h : Sound v) (hv : v.Whole) {c : Cursor} :
    Keeps v (refill v c).value := by
  rw [hv.refill_eq]
  cases hs : scan v c with
  | ok w c' =>
    obtain ⟨_, ⟨hw, hb, _⟩, _⟩ := scan_spells h _ _ _ hs
    exact ⟨hw, hb⟩
  | error f c' => exact ⟨h, rfl⟩

theorem Sound.refill_keeps {v : Value} (h : Sound v) (c : Cursor) :
    Keeps v (refill v c).value := by
  induction h generalizing c with
  | bool b => exact keeps_whole (.bool b) trivial
  | text s => exact keeps_whole (.text s) trivial
  | word n => exact keeps_whole (.word n) trivial
  | varint n => exact keeps_whole (.varint n) trivial
  | vector ht hb hi hsh => exact keeps_whole (.vector ht hb hi hsh) trivial
  | enum hc hvs hb hv hp hsh => exact keeps_whole (.enum hc hvs hb hv hp hsh) trivial
  | @array t n items ht hb hl hi hsh _ ih =>
    obtain ⟨hw, hbs⟩ := refillAll_keeps hi ih c
    have hlen := length_eq_of_blankAll_eq hbs
    refine ⟨.array ht hb (hlen.trans hl) hw ?_, ?_⟩
    · exact sameShape_of_blankAll_eq hbs fun v hv => (hi v hv).settled t ht (hsh v hv)
    · rw [refill, Value.blank, Value.blank, hlen]
  | struct hf ih =>
    obtain ⟨hw, hbs⟩ := refillAll_keeps hf ih c
    exact ⟨.struct hw, by rw [refill, Value.blank, Value.blank, hbs]⟩
  | tuple hf ih =>
    obtain ⟨hw, hbs⟩ := refillAll_keeps hf ih c
    exact ⟨.tuple hw, by rw [refill, Value.blank, Value.blank, hbs]⟩

end Value

end CallWire
