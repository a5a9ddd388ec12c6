import CallWire.Proofs.ScanElements
import CallWire.Proofs.VarintWire

namespace CallWire

def Fault.IsOutOfRange (width : Width) (f : Fault) : Prop := ∃ cause, f = .outOfRange width cause

namespace Scan

variable {α β : Type}

/-- No limit stops a blind step before bytes that it reads. -/
theorem Blind.run_of_reads {step : Scan α} {xs rest : Bytes} {a : α} {c : Cursor}
    (hb : Blind step) (hr : Reads step xs a) (h : c.rest = xs ++ rest) :
    step c = .ok a ⟨rest, c.position + xs.length, c.expansion, c.limits⟩ := by
  rcases hr (c.under .unbounded c.expansion) rest h with ⟨expansion, hs⟩ | ⟨hl, _⟩
  · have hback := hb.run_under (c.under .unbounded c.expansion) c.limits c.expansion
    rw [hs] at hback
    exact hback
  · exact absurd ⟨rfl, rfl⟩ hl

/-- Before these bytes the step stops with such a fault, whatever follows them. -/
def Refuses (step : Scan α) (xs : Bytes) (bad : Fault → Prop) : Prop :=
  ∀ (c : Cursor) (rest : Bytes), c.rest = xs ++ rest → ∃ f c', step c = .error f c' ∧ bad f

namespace Refuses

variable {bad : Fault → Prop}

theorem error {f : Fault} (h : bad f) (xs : Bytes) : Refuses (throw f : Scan α) xs bad :=
  fun c _ _ => ⟨f, c, rfl, h⟩

theorem bind {step : Scan α} {next : α → Scan β} {xs : Bytes} (h : Refuses step xs bad) :
    Refuses (step >>= next) xs bad := by
  intro c rest hr
  obtain ⟨f, c', hf, hbad⟩ := h c rest hr
  exact ⟨f, c', bind_of_error hf, hbad⟩

theorem after {step : Scan α} {next : α → Scan β} {xs ys : Bytes} {a : α} (hb : Blind step)
    (hs : Reads step xs a) (hn : Refuses (next a) ys bad) :
    Refuses (step >>= next) (xs ++ ys) bad := by
  intro c rest hr
  rw [List.append_assoc] at hr
  rw [bind_of_ok (hb.run_of_reads hs hr)]
  exact hn _ rest rfl

end Refuses

end Scan

namespace Varint

/-- A number laid out in a form that is wide enough for it, whether or not a shorter one is. The
big form says itself how many bytes follow its first. -/
inductive Layout (n : Nat) : Form → Bytes → Prop
  | single (h : n < 2 ^ 6) : Layout n .single (Bytes.little 1 (4 * n))
  | double (h : n < 2 ^ 14) : Layout n .double (Bytes.little 2 (4 * n + 1))
  | quad (h : n < 2 ^ 30) : Layout n .quad (Bytes.little 4 (4 * n + 2))
  | big {span : Nat} (hl : 4 ≤ span) (hu : span ≤ 67) (h : n < 256 ^ span) :
      Layout n .big (UInt8.ofNat (4 * (span - 4) + 3) :: Bytes.little span n)

theorem length_bytes (n : Nat) : (bytes n).length = size n := by
  unfold bytes size
  cases Form.ofNumber n with
  | single | double | quad => exact Bytes.little_length _ _
  | big => rw [List.length_cons, Bytes.little_length, Nat.add_comm]

/-- The first byte of the shortest form names that form. -/
theorem ofFirst_bytes (n : Nat) :
    (bytes n).head?.map Form.ofFirst = some (Form.ofNumber n) := by
  have hfirst {form : Form} {m : Nat} (hm : m % 4 = form.tag) :
      some (Form.ofFirst (UInt8.ofNat m)) = some form := congrArg some (ofFirst_ofNat hm)
  unfold bytes
  cases Form.ofNumber n with
  | single | double | quad | big => exact hfirst (by rw [Form.tag]; omega)

theorem encode_eq_ok {width : Width} {n : Nat} (h : n ≤ width.unsignedMax) :
    encode width n = .ok (bytes n) := if_pos h

theorem shortest_refuses {width : Width} {form : Form} {n : Nat} (h : n < form.least)
    (xs : Bytes) : (shortest width form n).Refuses xs (Fault.IsOutOfRange width) := by
  unfold shortest
  rw [if_neg (Nat.not_le.mpr h)]
  exact .error ⟨_, rfl⟩ xs

/-- A number below those that need one of the two middle forms is refused in that form. -/
theorem tail_refuses {width : Width} {form : Form} {k n : Nat} (hn : n < form.least)
    (hm : 4 * n + form.tag < 256 ^ (k + 1)) (ht : form.tag < 4) :
    (do
      let tail ← Scan.take k
      shortest width form
        (Bytes.number (UInt8.ofNat (4 * n + form.tag) :: tail) / 4) : Scan Nat).Refuses
      (Bytes.little k ((4 * n + form.tag) / 256)) (Fault.IsOutOfRange width) := by
  have hdiv : (4 * n + form.tag) / 4 = n := by omega
  have hafter : (shortest width form n).Refuses [] (Fault.IsOutOfRange width) :=
    shortest_refuses hn []
  rw [← List.append_nil (Bytes.little k _)]
  refine .after (.take k) (Scan.take_little_reads k _) ?_
  rw [number_first hm, hdiv]
  exact hafter

theorem double_refuses {width : Width} {n : Nat} (h : n < 2 ^ 6) :
    (body width (UInt8.ofNat (4 * n + 1))).Refuses (Bytes.little 1 ((4 * n + 1) / 256))
      (Fault.IsOutOfRange width) := by
  have hform : Form.ofFirst (UInt8.ofNat (4 * n + 1)) = .double :=
    ofFirst_ofNat (by rw [Form.tag]; omega)
  have hlt : 4 * n + Form.double.tag < 256 ^ (1 + 1) := by
    rw [Form.tag]
    omega
  unfold body
  rw [hform]
  exact tail_refuses h hlt (by decide)

theorem quad_refuses {width : Width} {n : Nat} (h : n < 2 ^ 14) :
    (body width (UInt8.ofNat (4 * n + 2))).Refuses (Bytes.little 3 ((4 * n + 2) / 256))
      (Fault.IsOutOfRange width) := by
  have hform : Form.ofFirst (UInt8.ofNat (4 * n + 2)) = .quad :=
    ofFirst_ofNat (by rw [Form.tag]; omega)
  have hlt : 4 * n + Form.quad.tag < 256 ^ (3 + 1) := by
    rw [Form.tag]
    omega
  unfold body
  rw [hform]
  exact tail_refuses h hlt (by decide)

/-- In the big form more bytes than a number needs end in a zero, and no more are needed only by a
number that is big enough. -/
theorem big_refuses {width : Width} {n span : Nat} (hl : 4 ≤ span) (hu : span ≤ 67)
    (hn : n < 256 ^ span) (h : n < 2 ^ 30 ∨ bigSpan n < span) :
    (body width (UInt8.ofNat (4 * (span - 4) + 3))).Refuses (Bytes.little span n)
      (Fault.IsOutOfRange width) := by
  have hform : Form.ofFirst (UInt8.ofNat (4 * (span - 4) + 3)) = .big :=
    ofFirst_ofNat (by rw [Form.tag]; omega)
  have hspan : (UInt8.ofNat (4 * (span - 4) + 3)).toNat / 4 + 4 = span := by
    rw [UInt8.toNat_ofNat']
    omega
  have hnum : Bytes.number (Bytes.little span n) = n := by
    rw [Bytes.number_little, Nat.mod_eq_of_lt hn]
  unfold body
  rw [hform]
  dsimp only
  rw [hspan]
  by_cases hw : width.bytes < span
  · rw [if_pos hw, Scan.throw_bind]
    exact .error ⟨_, rfl⟩ _
  rw [if_neg hw, ← List.append_nil (Bytes.little span n)]
  refine .after (.take span) (Scan.take_little_reads span n) ?_
  by_cases hlast : (Bytes.little span n).getLast? = some 0
  · rw [if_pos hlast, Scan.throw_bind]
    exact .error ⟨_, rfl⟩ _
  have hneeds : Bytes.span n = span := by
    have hlen := Bytes.span_number hlast
    rwa [hnum, Bytes.little_length] at hlen
  have hbig : bigSpan n = span := by
    unfold bigSpan
    omega
  have hsmall : n < Form.big.least := h.resolve_right (by omega)
  rw [if_neg hlast, hnum]
  exact shortest_refuses hsmall []

/-- A number in another form than its shortest, or in more bytes than it needs, is out of range for
every width. -/
theorem Layout.refused {width : Width} {n : Nat} {form : Form} {xs : Bytes} (h : Layout n form xs)
    (hlong : form ≠ Form.ofNumber n ∨ size n < xs.length) :
    (number width).Refuses xs (Fault.IsOutOfRange width) := by
  have hfirst {b : UInt8} {tail : Bytes}
      (hb : (body width b).Refuses tail (Fault.IsOutOfRange width)) :
      (number width).Refuses (b :: tail) (Fault.IsOutOfRange width) :=
    .after .byte (Scan.byte_reads b) hb.bind
  cases h with
  | single h6 =>
    have hform := Form.ofNumber_single h6
    simp [size, hform, Bytes.little_length] at hlong
  | double h14 =>
    refine hfirst (double_refuses (Nat.not_le.mp fun h6 => ?_))
    have hform := Form.ofNumber_double h6 h14
    simp [size, hform, Bytes.little_length] at hlong
  | quad h30 =>
    refine hfirst (quad_refuses (Nat.not_le.mp fun h14 => ?_))
    have hform := Form.ofNumber_quad h14 h30
    simp [size, hform, Bytes.little_length] at hlong
  | @big span hl hu hn =>
    refine hfirst (big_refuses hl hu hn ?_)
    by_contra hboth
    obtain ⟨h30, hspan⟩ := not_or.mp hboth
    have hform := Form.ofNumber_big (Nat.not_lt.mp h30)
    simp only [size, hform, List.length_cons, Bytes.little_length, ne_eq, not_true_eq_false,
      false_or] at hlong
    omega

/-- The reader of a width's own numbers answers as the reader of numbers up to that width, whose
answers all fit. -/
theorem scan_eq_number (width : Width) (c : Cursor) :
    (∀ n c', number width c = .ok n c' →
      ∃ h : n ≤ width.unsignedMax, scan width c = .ok ⟨width, n, h⟩ c') ∧
    ∀ f c', number width c = .error f c' → scan width c = .error f c' := by
  unfold scan
  refine ⟨fun n c' hn => ?_, fun f c' hf => Scan.bind_of_error hf⟩
  obtain ⟨_, ⟨hle, _⟩, _⟩ := number_spells width c c' n hn
  refine ⟨hle, ?_⟩
  rw [Scan.bind_of_ok hn, dif_pos hle]
  rfl

/-- The shortest forms are an exact code for the numbers of a width. What is encoded is read back
from its bytes alone, what is read is the encoding of the number found, every other layout of a
number is out of range, and the codec of a width's own numbers does the same as the one that checks
the width. -/
theorem number_exact (width : Width) :
    (∀ n ≤ width.unsignedMax, ∃ xs, encode width n = .ok xs ∧ xs.length = size n ∧
      xs.head?.map Form.ofFirst = some (Form.ofNumber n) ∧
      ∀ (c : Cursor) (rest : Bytes), c.rest = xs ++ rest →
        number width c = .ok n ⟨rest, c.position + size n, c.expansion, c.limits⟩) ∧
    (∀ (c c' : Cursor) (n : Nat), number width c = .ok n c' → n ≤ width.unsignedMax ∧
      ∃ xs, encode width n = .ok xs ∧ c.rest = xs ++ c'.rest ∧
        c'.position = c.position + xs.length) ∧
    (∀ (n : Nat) (form : Form) (xs : Bytes), Layout n form xs →
      form ≠ Form.ofNumber n ∨ size n < xs.length →
      ∀ (c : Cursor) (rest : Bytes), c.rest = xs ++ rest →
        ∃ cause c', number width c = .error (.outOfRange width cause) c') ∧
    (∀ n : Varint, n.width = width → encode width n.val = .ok (bytes n.val)) ∧
    ∀ c : Cursor,
      (∀ n c', number width c = .ok n c' →
        ∃ h : n ≤ width.unsignedMax, scan width c = .ok ⟨width, n, h⟩ c') ∧
      ∀ f c', number width c = .error f c' → scan width c = .error f c' := by
  refine ⟨?_, ?_, ?_, ?_, scan_eq_number width⟩
  · intro n hn
    refine ⟨bytes n, encode_eq_ok hn, length_bytes n, ofFirst_bytes n, fun c rest hr => ?_⟩
    rw [← length_bytes]
    exact (number_blind width).run_of_reads (number_reads hn) hr
  · intro c c' n h
    obtain ⟨_, ⟨hle, rfl⟩, hr, hp⟩ := number_spells width c c' n h
    exact ⟨hle, bytes n, encode_eq_ok hle, hr, hp⟩
  · intro n form xs hlayout hlong c rest hr
    have hrefused : (number width).Refuses xs (Fault.IsOutOfRange width) := hlayout.refused hlong
    obtain ⟨_, c', hf, cause, rfl⟩ := hrefused c rest hr
    exact ⟨cause, c', hf⟩
  · intro n hw
    exact encode_eq_ok (hw ▸ n.le_max)

/-- A hundred takes two bytes and no more; the number five is refused in two. -/
theorem number_exact_hundred :
    (∃ xs, encode .w32 100 = .ok xs ∧ xs.length = 2 ∧
      number .w32 (.start (xs ++ [7]) .unbounded) = .ok 100 ⟨[7], 2, 0, .unbounded⟩) ∧
    (∃ cause c', number .w32 (.start [0x92, 0x01, 0, 0] .unbounded) =
      .error (.outOfRange .w32 cause) c') ∧
    ∃ h : 5 ≤ Width.w8.unsignedMax,
      scan .w8 (.start [20] .unbounded) = .ok ⟨.w8, 5, h⟩ ⟨[], 1, 0, .unbounded⟩ := by
  obtain ⟨hreads, _, hrefused, _⟩ := number_exact .w32
  obtain ⟨_, _, _, _, hscan⟩ := number_exact .w8
  refine ⟨?_, ?_, ?_⟩
  · obtain ⟨xs, he, hl, _, hr⟩ := hreads 100 (by decide)
    exact ⟨xs, he, hl, hr _ [7] rfl⟩
  · have hlayout : Layout 100 .quad [0x92, 0x01, 0, 0] := .quad (by decide)
    exact hrefused 100 .quad _ hlayout (.inl (by decide)) _ [] rfl
  · exact (hscan _).1 5 _ rfl

end Varint

end CallWire
