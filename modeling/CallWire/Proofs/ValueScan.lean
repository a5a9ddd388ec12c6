import CallWire.ValueWire
import CallWire.Proofs.ScanElements
import CallWire.Proofs.ScanReads
import CallWire.Proofs.ValueSound

namespace CallWire

namespace Value

theorem scanVariant_eq {variants : List (List Value)} {n : Nat} {fields : List Value}
    (h : variants[n]? = some fields) : scanVariant variants n = scanAll fields := by
  induction variants generalizing n with
  | nil => simp at h
  | cons first others ih =>
    cases n with
    | zero =>
      cases (show first = fields by simpa using h)
      rfl
    | succ n => exact ih (by simpa using h)

/-- A step run as often as a list is long reads what the list reads, when each item reads by that
step. -/
theorem times_eq_scanAll {step : Scan Value} {vs : List Value} (h : ∀ v ∈ vs, scan v = step) :
    Scan.times step vs.length = scanAll vs := by
  induction vs with
  | nil => rfl
  | cons v vs ih =>
    obtain ⟨hv, hvs⟩ := List.forall_mem_cons.mp h
    rw [List.length_cons, Scan.times_succ, scanAll, hv, ih hvs]

theorem times_eq_scanAll_replicate (t : Value) (n : Nat) :
    Scan.times (scan t) n = scanAll (List.replicate n t) := by
  rw [← times_eq_scanAll (fun v hv => by rw [List.eq_of_mem_replicate hv]), List.length_replicate]

theorem scanAll_assembled {vs : List Value} (h : ∀ v ∈ vs, (scan v).Assembled) :
    (scanAll vs).Assembled := by
  induction vs with
  | nil => exact .pure []
  | cons v vs ih =>
    obtain ⟨hv, hvs⟩ := List.forall_mem_cons.mp h
    rw [scanAll]
    exact hv.bind fun w => (ih hvs).bind fun ws => .pure (w :: ws)

theorem times_assembled {t : Value} (h : (scan t).Assembled) (n : Nat) :
    (Scan.times (scan t) n).Assembled := by
  rw [times_eq_scanAll_replicate]
  refine scanAll_assembled fun v hv => ?_
  rw [List.eq_of_mem_replicate hv]
  exact h

theorem scan_assembled (v : Value) : (scan v).Assembled := by
  induction v using parts_induction with
  | bool b => exact (Scan.Assembled.blind Scan.bool_blind).map Value.bool
  | text s => exact Scan.text_assembled.map Value.text
  | word n => exact (Scan.Assembled.blind (Word.scan_blind _ _)).map Value.word
  | varint n => exact (Scan.Assembled.blind (Varint.scan_blind _)).map Value.varint
  | vector t items ht _ =>
    rw [scan, Scan.vectorLength_bind]
    refine Scan.Assembled.length.bind fun n => .demanding _ ?_
    refine (Scan.Assembled.charge _).bind fun _ => ?_
    exact (times_assembled ht n).bind fun ws => .pure (vector t ws)
  | array t n items ht _ =>
    rw [scan]
    exact (times_assembled ht items.length).map (Value.array t n)
  | struct fields hf =>
    rw [scan]
    exact (scanAll_assembled hf).map Value.struct
  | tuple fields hf =>
    rw [scan]
    exact (scanAll_assembled hf).map Value.tuple
  | enum variants tag payload hv _ =>
    rw [scan]
    refine (Scan.Assembled.blind .byte).bind fun tag => .guard fun hlt => ?_
    have hget := List.getElem?_eq_getElem (Nat.not_le.mp hlt)
    rw [scanVariant_eq hget]
    exact (scanAll_assembled (hv _ (List.mem_of_getElem? hget))).bind fun ws => .pure _

theorem scanAll_blankAll {vs : List Value} (h : ∀ v ∈ vs, scan v.blank = scan v) :
    scanAll (blankAll vs) = scanAll vs := by
  induction vs with
  | nil => rfl
  | cons v vs ih =>
    obtain ⟨hv, hvs⟩ := List.forall_mem_cons.mp h
    rw [blankAll, scanAll, scanAll, hv, ih hvs]

/-- Reading looks at nothing of a value but its shape. -/
theorem scan_blank (v : Value) : scan v.blank = scan v := by
  induction v using parts_induction with
  | bool | text | word | varint | vector | enum => rfl
  | array t n items => rw [blank, scan, scan, List.length_replicate]
  | struct fields hf | tuple fields hf => rw [blank, scan, scan, scanAll_blankAll hf]

theorem scan_eq_of_blank_eq {v w : Value} (h : v.blank = w.blank) : scan v = scan w := by
  rw [← scan_blank v, h, scan_blank]

end Value

end CallWire
