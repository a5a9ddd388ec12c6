import CallWire.Proofs.ScanFrames
import CallWire.Proofs.ValueSize

namespace CallWire

namespace Value

theorem scanAll_framed {vs : List Value} (h : ∀ v ∈ vs, (scan v).Framed) :
    (scanAll vs).Framed := by
  induction vs with
  | nil => exact .pure []
  | cons v vs ih =>
    obtain ⟨hv, hvs⟩ := List.forall_mem_cons.mp h
    rw [scanAll]
    exact hv.bind fun w => (ih hvs).bind fun ws => .pure (w :: ws)

theorem times_framed {t : Value} (h : (scan t).Framed) (n : Nat) :
    (Scan.times (scan t) n).Framed := by
  rw [times_eq_scanAll_replicate]
  refine scanAll_framed fun v hv => ?_
  rw [List.eq_of_mem_replicate hv]
  exact h

/-- Items read one after the other take at least the bytes that a vector demands for them. -/
theorem times_spells_paid {t : Value} (ht : Sound t) (n : Nat) :
    (Scan.times (scan t) n).Spells fun _ xs => Count.mul n t.minSize ≤ xs.length := by
  rw [times_eq_scanAll_replicate]
  refine (scanAll_spells fun v hv => ?_).mono fun ws xs hws => ?_
  · rw [List.eq_of_mem_replicate hv]
    exact scan_spells ht
  · obtain ⟨hl, hsh⟩ := hws.replicate
    rw [← hl]
    exact mul_le_length (fun w hw => (hws.1 w hw).paid)
      (fun w hw => minSize_eq_of_sameShape (hws.1 w hw) ht (hsh w hw)) hws.2.2

theorem scan_framed {v : Value} (h : Sound v) : (scan v).Framed := by
  induction h with
  | bool b => exact Scan.bool_elementary.framed.map Value.bool
  | text s => exact Scan.text_elementary.framed.map Value.text
  | word n => exact (Word.scan_elementary _ _).framed.map Value.word
  | varint n => exact (Varint.scan_elementary _).framed.map Value.varint
  | @vector t items ht _ _ _ ih =>
    rw [scan, Scan.vectorLength_bind]
    refine Varint.scanLength_elementary.framed.bind fun n => ?_
    have hitems := (times_framed ih n).bind fun ws => Scan.Framed.pure (Value.vector t ws)
    refine Scan.Framed.demanding ((Scan.charge_framed _).bind fun _ => hitems) ?_
    refine (Scan.charge_spells _).bind fun _ xs hx => ?_
    refine (times_spells_paid ht n).bind fun ws ys hy => .pure ?_
    subst hx
    simpa using hy
  | @array t n items ht _ _ _ _ ih =>
    rw [scan]
    exact (times_framed ih _).map (Value.array t n)
  | struct _ ih =>
    rw [scan]
    exact (scanAll_framed ih).map Value.struct
  | tuple _ ih =>
    rw [scan]
    exact (scanAll_framed ih).map Value.tuple
  | @enum variants _ _ _ _ _ _ _ _ _ ih =>
    rw [scan]
    refine Scan.byte_framed.bind fun tag => .guard fun hlt => ?_
    have hget := List.getElem?_eq_getElem (Nat.not_le.mp hlt)
    rw [scanVariant_eq hget]
    exact (scanAll_framed (ih _ (List.mem_of_getElem? hget))).bind fun ws => .pure _

end Value

end CallWire
