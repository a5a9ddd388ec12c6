import CallWire.Proofs.ValueScan
import CallWire.Proofs.VarintWire
import CallWire.Proofs.WordWire

namespace CallWire

theorem Utf8.length_encode (s : String) : (Utf8.encode s).length = s.utf8ByteSize := by
  simp [Utf8.encode]

namespace Scan

theorem bool_spells : bool.Spells fun b xs => xs = [if b then 1 else 0] := by
  unfold bool
  refine byte_spells.bind fun b xs hx => ?_
  subst hx
  split
  · exact .pure rfl
  · exact .pure rfl
  · exact .error _

theorem text_spells : text.Spells fun s xs =>
    s.utf8ByteSize ≤ maxLength ∧ xs = Varint.bytes s.utf8ByteSize ++ Utf8.encode s := by
  unfold text
  refine Varint.scanLength_spells.bind fun n xs hn => ?_
  refine (take_spells n).bind fun bs ys hy => ?_
  obtain ⟨hle, rfl⟩ := hn
  obtain ⟨rfl, hlen⟩ := hy
  split
  next s hs =>
    have he := Utf8.encode_of_decode hs
    have hsize : s.utf8ByteSize = n := by rw [← Utf8.length_encode, he, hlen]
    exact .pure ⟨by omega, by rw [hsize, he, List.append_nil]⟩
  next => exact .error _

theorem vectorLength_spells (size nodes : Nat) :
    (vectorLength size nodes).Spells fun n xs => n ≤ maxLength ∧ xs = Varint.bytes n := by
  unfold vectorLength
  refine Varint.scanLength_spells.bind fun n xs hn => .get fun c => .guard fun _ => ?_
  refine (charge_spells _).bind fun _ ys hy => .pure ?_
  subst hy
  simpa using hn

end Scan

namespace Value

theorem encode_text_eq_ok {s : String} {bytes : Bytes} : (text s).encode = .ok bytes ↔
    s.utf8ByteSize ≤ maxLength ∧ Varint.bytes s.utf8ByteSize ++ Utf8.encode s = bytes := by
  rw [encode, bind_eq_ok]
  by_cases h : s.utf8ByteSize ≤ maxLength
  · simp [Varint.encodeLength, h, pure, Except.pure]
  · simp [Varint.encodeLength, h]

theorem encode_vector_eq_ok {t : Value} {items : List Value} {bytes : Bytes} :
    (vector t items).encode = .ok bytes ↔ items.length ≤ maxLength ∧
      ∃ content, encodeAll items = .ok content ∧
        Varint.bytes items.length ++ content = bytes := by
  rw [encode, bind_eq_ok]
  by_cases h : items.length ≤ maxLength
  · simp [Varint.encodeLength, h, map_eq_ok]
  · simp [Varint.encodeLength, h]

theorem encode_enum_eq_ok {variants : List (List Value)} {tag : UInt8} {payload : List Value}
    {bytes : Bytes} : (enum variants tag payload).encode = .ok bytes ↔
      ∃ content, encodeAll payload = .ok content ∧ tag :: content = bytes := by
  simp [encode, map_eq_ok]

theorem encodeAll_cons_eq_ok {v : Value} {vs : List Value} {bytes : Bytes} :
    encodeAll (v :: vs) = .ok bytes ↔
      ∃ head tail, v.encode = .ok head ∧ encodeAll vs = .ok tail ∧ head ++ tail = bytes := by
  simp [encodeAll, bind_eq_ok, map_eq_ok]

/-- A sound value of the shape of another, and its bytes. -/
def Fills (v w : Value) (xs : Bytes) : Prop := Sound w ∧ w.blank = v.blank ∧ w.encode = .ok xs

def FillsAll (vs ws : List Value) (xs : Bytes) : Prop :=
  (∀ w ∈ ws, Sound w) ∧ blankAll ws = blankAll vs ∧ encodeAll ws = .ok xs

theorem scanAll_spells {vs : List Value} (h : ∀ v ∈ vs, (scan v).Spells (Fills v)) :
    (scanAll vs).Spells (FillsAll vs) := by
  induction vs with
  | nil => exact .pure ⟨by simp, rfl, rfl⟩
  | cons v vs ih =>
    obtain ⟨hv, hvs⟩ := List.forall_mem_cons.mp h
    rw [scanAll]
    refine hv.bind fun w xs hw => (ih hvs).bind fun ws ys hws => .pure ?_
    obtain ⟨hs, hb, he⟩ := hw
    obtain ⟨hss, hbs, hes⟩ := hws
    refine ⟨List.forall_mem_cons.mpr ⟨hs, hss⟩, by rw [blankAll, blankAll, hb, hbs], ?_⟩
    rw [List.append_nil]
    exact encodeAll_cons_eq_ok.mpr ⟨xs, ys, he, hes, rfl⟩

theorem FillsAll.replicate {t : Value} {n : Nat} {ws : List Value} {xs : Bytes}
    (h : FillsAll (List.replicate n t) ws xs) :
    ws.length = n ∧ ∀ w ∈ ws, w.sameShape t = true := by
  have hl := length_eq_of_blankAll_eq h.2.1
  refine ⟨by simpa using hl, sameShape_of_blankAll_eq h.2.1 fun v hv => ?_⟩
  rw [List.eq_of_mem_replicate hv]

theorem scan_spells {v : Value} (h : Sound v) : (scan v).Spells (Fills v) := by
  induction h with
  | bool b =>
    exact Scan.bool_spells.map fun b xs hx => ⟨.bool b, rfl, by rw [hx]; rfl⟩
  | text s =>
    exact Scan.text_spells.map fun s xs hx =>
      ⟨.text s, rfl, encode_text_eq_ok.mpr ⟨hx.1, hx.2.symm⟩⟩
  | word n =>
    refine (Word.scan_spells _ _).map fun w xs hx => ⟨.word w, ?_, ?_⟩
    · rw [blank, blank, hx.1, hx.2.1]
    · rw [encode, hx.2.2]
  | varint n =>
    refine (Varint.scan_spells _).map fun w xs hx => ⟨.varint w, ?_, ?_⟩
    · rw [blank, blank, hx.1]
    · rw [encode, hx.2]
  | @vector t items ht hb _ _ ih =>
    rw [scan]
    refine (Scan.vectorLength_spells _ _).bind fun n xs hn => ?_
    obtain ⟨hle, rfl⟩ := hn
    rw [times_eq_scanAll_replicate]
    refine (scanAll_spells fun v hv => ?_).bind fun ws ys hws => .pure ?_
    · rw [List.eq_of_mem_replicate hv]
      exact ih
    · obtain ⟨hl, hsh⟩ := hws.replicate
      refine ⟨.vector ht hb hws.1 hsh, rfl, ?_⟩
      have hlen : ws.length ≤ maxLength := by omega
      rw [List.append_nil, ← hl]
      exact encode_vector_eq_ok.mpr ⟨hlen, ys, hws.2.2, rfl⟩
  | @array t n items ht hb hl _ _ ih =>
    rw [scan, times_eq_scanAll_replicate]
    refine (scanAll_spells fun v hv => ?_).map fun ws ys hws => ?_
    · rw [List.eq_of_mem_replicate hv]
      exact ih
    · obtain ⟨hlen, hsh⟩ := hws.replicate
      refine ⟨.array ht hb (by omega) hws.1 hsh, ?_, ?_⟩
      · rw [blank, blank, hlen]
      · rw [encode, hws.2.2]
  | struct _ ih =>
    rw [scan]
    refine (scanAll_spells ih).map fun ws ys hws => ⟨.struct hws.1, ?_, ?_⟩
    · rw [blank, blank, hws.2.1]
    · rw [encode, hws.2.2]
  | tuple _ ih =>
    rw [scan]
    refine (scanAll_spells ih).map fun ws ys hws => ⟨.tuple hws.1, ?_, ?_⟩
    · rw [blank, blank, hws.2.1]
    · rw [encode, hws.2.2]
  | @enum variants tag fields payload hc hvs hb _ _ _ ih =>
    rw [scan]
    refine Scan.byte_spells.bind fun tag xs hx => .guard fun hlt => ?_
    subst hx
    obtain ⟨chosen, hget⟩ : ∃ chosen, variants[tag.toNat]? = some chosen :=
      ⟨_, List.getElem?_eq_getElem (by omega)⟩
    rw [scanVariant_eq hget]
    have hmem := List.mem_of_getElem? hget
    refine (scanAll_spells (ih _ hmem)).bind fun ws ys hws => .pure ⟨?_, rfl, ?_⟩
    · exact .enum hc hvs hb hget hws.1 (sameShapes_of_blankAll_eq hws.2.1)
    · rw [List.append_nil]
      exact encode_enum_eq_ok.mpr ⟨ys, hws.2.2, rfl⟩

end Value

end CallWire
