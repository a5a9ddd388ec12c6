import CallWire.Proofs.ValueBuilt
import CallWire.Proofs.ValueSize

namespace CallWire

namespace Scan

theorem bool_reads (b : Bool) : bool.Reads [if b then 1 else 0] b := by
  unfold bool
  refine (byte_reads _).bind_nil ?_
  cases b with
  | false => exact .pure false
  | true => exact .pure true

theorem text_reads {s : String} (h : s.utf8ByteSize ≤ maxLength) :
    text.Reads (Varint.bytes s.utf8ByteSize ++ Utf8.encode s) s := by
  unfold text
  have htake : (take s.utf8ByteSize).Reads (Utf8.encode s) (Utf8.encode s) := by
    rw [← Utf8.length_encode]
    exact take_reads _
  refine (Varint.scanLength_reads h).bind ?_
  refine htake.bind_nil ?_
  rw [Utf8.decode_encode]
  exact .pure s

/-- A length is read back before bytes that hold as much as it announces. -/
theorem vectorLength_reads {n size nodes : Nat} {next : Nat → Scan α} {ys : Bytes} {a : α}
    (hn : n ≤ maxLength) (hs : Count.mul n size ≤ ys.length) (h : (next n).Reads ys a) :
    (vectorLength size nodes >>= next).Reads (Varint.bytes n ++ ys) a := by
  unfold vectorLength
  simp only [bind_assoc]
  refine (Varint.scanLength_reads hn).bind ?_
  have hafter : (charge (Count.mul n (nodes - size)) >>= fun _ => next n).Reads ([] ++ ys) a :=
    (charge_reads _).bind h
  refine .look ?_ hafter
  intro c rest hr
  have hholds : Bytes.holds (Count.mul n size) c.rest = true := by
    rw [Bytes.holds_eq_decide, hr, decide_eq_true_eq, List.length_append]
    exact Nat.le_trans hs (Nat.le_add_right _ _)
  simp only [hholds, Bool.not_true, Bool.false_eq_true, ↓reduceIte, bind_assoc, pure_bind]

end Scan

namespace Value

theorem scanAll_reads {vs : List Value}
    (h : ∀ v ∈ vs, ∀ bytes, v.encode = .ok bytes → (scan v).Reads bytes v) {bytes : Bytes}
    (he : encodeAll vs = .ok bytes) : (scanAll vs).Reads bytes vs := by
  induction vs generalizing bytes with
  | nil =>
    cases he
    exact .pure []
  | cons v vs ih =>
    obtain ⟨hv, hvs⟩ := List.forall_mem_cons.mp h
    obtain ⟨head, tail, hh, ht, rfl⟩ := encodeAll_cons_eq_ok.mp he
    rw [scanAll]
    refine (hv head hh).bind ?_
    exact (ih hvs ht).bind_nil (.pure (v :: vs))

theorem scan_eq_of_sameShape {v w : Value} (hv : Sound v) (hw : Sound w)
    (h : v.sameShape w = true) : scan v = scan w :=
  hv.eq_of_sameShape scan_blank hw h

/-- A sound value reads back the bytes it is encoded in. -/
theorem scan_reads {v : Value} (h : Sound v) {bytes : Bytes} (he : v.encode = .ok bytes) :
    (scan v).Reads bytes v := by
  induction h generalizing bytes with
  | bool b =>
    cases he
    exact (Scan.bool_reads b).map Value.bool
  | text s =>
    obtain ⟨hle, rfl⟩ := encode_text_eq_ok.mp he
    exact (Scan.text_reads hle).map Value.text
  | word n =>
    cases he
    exact (Word.scan_reads n).map Value.word
  | varint n =>
    cases he
    exact (Varint.scan_reads n).map Value.varint
  | @vector t items ht _ hi hsh _ ih =>
    obtain ⟨hle, content, hc, rfl⟩ := encode_vector_eq_ok.mp he
    rw [scan]
    -- The check on the length passes because each item takes at least the bytes of the element.
    have hpaid : Count.mul items.length t.minSize ≤ content.length :=
      mul_le_length (fun v hm => (hi v hm).paid)
        (fun v hm => minSize_eq_of_sameShape (hi v hm) ht (hsh v hm)) hc
    refine Scan.vectorLength_reads hle hpaid ?_
    have hscan : Scan.times (scan t) items.length = scanAll items :=
      times_eq_scanAll fun v hm => scan_eq_of_sameShape (hi v hm) ht (hsh v hm)
    rw [hscan]
    exact (scanAll_reads (fun v hm _ hv => ih v hm hv) hc).bind_nil (.pure _)
  | @array t n items ht _ hl hi hsh _ ih =>
    rw [encode] at he
    rw [scan]
    have hscan : Scan.times (scan t) items.length = scanAll items :=
      times_eq_scanAll fun v hm => scan_eq_of_sameShape (hi v hm) ht (hsh v hm)
    rw [hscan]
    exact (scanAll_reads (fun v hm _ hv => ih v hm hv) he).map (Value.array t n)
  | struct _ ih =>
    rw [encode] at he
    rw [scan]
    exact (scanAll_reads (fun v hm _ hv => ih v hm hv) he).map Value.struct
  | tuple _ ih =>
    rw [encode] at he
    rw [scan]
    exact (scanAll_reads (fun v hm _ hv => ih v hm hv) he).map Value.tuple
  | @enum variants tag fields payload hc hvs _ hget hp hsh _ ih =>
    obtain ⟨content, hcontent, rfl⟩ := encode_enum_eq_ok.mp he
    obtain ⟨hlt, _⟩ := List.getElem?_eq_some_iff.mp hget
    -- The payload is read by the blanks of its variant, which are of its shape.
    have hblank : blankAll fields = blankAll payload :=
      ((sameShapes_iff_of_sound hp (hvs _ (List.mem_of_getElem? hget))).mp hsh).symm
    have hscan : scanAll fields = scanAll payload := by
      rw [← scanAll_blankAll fun v _ => scan_blank v, hblank,
        scanAll_blankAll fun v _ => scan_blank v]
    rw [scan]
    show Scan.Reads _ ([tag] ++ content) _
    refine (Scan.byte_reads tag).bind ?_
    rw [if_neg (by omega), scanVariant_eq hget, hscan]
    exact (scanAll_reads (fun v hm _ hv => ih v hm hv) hcontent).bind_nil (.pure _)

end Value

end CallWire
