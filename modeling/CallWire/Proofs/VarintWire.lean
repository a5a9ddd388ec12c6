import CallWire.Varint
import CallWire.Proofs.ScanReads

namespace CallWire

namespace Bytes

theorem lt_pow_span (n : Nat) : n < 256 ^ span n := by
  induction n using span.induct with
  | case1 => simp [span]
  | case2 n hn ih =>
    rw [span, if_neg hn, Nat.pow_add]
    omega

theorem span_le_of_lt_pow {n k : Nat} (h : n < 256 ^ k) : span n ≤ k := by
  induction k generalizing n with
  | zero =>
    have hn : n = 0 := by simpa using h
    simp [hn, span]
  | succ k ih =>
    by_cases hn : n = 0
    · simp [hn, span]
    · have hk : n / 256 < 256 ^ k := by
        rw [Nat.pow_succ] at h
        omega
      rw [span, if_neg hn]
      have := ih hk
      omega

/-- The bytes that a number needs end in one that is not zero. -/
theorem getLast?_little_span (n : Nat) : (little (span n) n).getLast? ≠ some 0 := by
  induction n using span.induct with
  | case1 => simp [span, little]
  | case2 n hn ih =>
    rw [span, if_neg hn, Nat.add_comm, little]
    by_cases hq : n / 256 = 0
    · have hb : (UInt8.ofNat n).toNat = n := by
        rw [UInt8.toNat_ofNat']
        omega
      intro he
      have hz : UInt8.ofNat n = 0 := by simpa [hq, span, little] using he
      rw [hz] at hb
      exact hn hb.symm
    · have hne : little (span (n / 256)) (n / 256) ≠ [] := by
        rw [span, if_neg hq, Nat.add_comm, little]
        simp
      rw [List.getLast?_cons, List.getLast?_eq_some_getLast hne] at *
      simpa using ih

/-- Bytes that do not end in zero are as many as their number needs. -/
theorem span_number {bs : Bytes} (h : bs.getLast? ≠ some 0) : span (number bs) = bs.length := by
  induction bs with
  | nil => simp [number, span]
  | cons b bs ih =>
    have hb := b.toNat_lt
    have hq : number (b :: bs) / 256 = number bs := by
      simp only [number]
      omega
    cases bs with
    | nil =>
      have hn : number [b] ≠ 0 := by
        intro hz
        simp only [number] at hz
        exact h (by simp [UInt8.toNat_inj.mp (show b.toNat = (0 : UInt8).toNat by simpa using hz)])
      rw [span, if_neg hn, hq]
      simp [number, span]
    | cons b' bs =>
      have hl : (b' :: bs).getLast? ≠ some 0 := by simpa [List.getLast?_cons_cons] using h
      have ihl := ih hl
      have hn : number (b :: b' :: bs) ≠ 0 := by
        intro hz
        rw [hz] at hq
        rw [← hq] at ihl
        simp [span] at ihl
      rw [span, if_neg hn, hq, ihl]
      simp only [List.length_cons]
      omega

end Bytes

namespace Form

def tag : Form → Nat
  | single => 0
  | double => 1
  | quad => 2
  | big => 3

theorem ofFirst_eq {b : UInt8} (form : Form) (h : b.toNat % 4 = form.tag) :
    ofFirst b = form := by
  have hm (k : Nat) (hk : k < 256) : b % 4 = UInt8.ofNat k ↔ b.toNat % 4 = k := by
    rw [← UInt8.toNat_inj, UInt8.toNat_mod, UInt8.toNat_ofNat', Nat.mod_eq_of_lt hk]
    rfl
  have h0 := hm 0 (by omega)
  have h1 := hm 1 (by omega)
  have h2 := hm 2 (by omega)
  unfold ofFirst
  cases form <;> simp only [tag] at h <;> simp_all

theorem tag_ofFirst (b : UInt8) : b.toNat % 4 = (ofFirst b).tag := by
  rcases (show b.toNat % 4 = 0 ∨ b.toNat % 4 = 1 ∨ b.toNat % 4 = 2 ∨ b.toNat % 4 = 3 by omega)
    with h | h | h | h
  · rw [ofFirst_eq single h, h]; rfl
  · rw [ofFirst_eq double h, h]; rfl
  · rw [ofFirst_eq quad h, h]; rfl
  · rw [ofFirst_eq big h, h]; rfl

theorem ofNumber_single {n : Nat} (h : n < 2 ^ 6) : ofNumber n = single := if_pos h

theorem ofNumber_double {n : Nat} (hl : 2 ^ 6 ≤ n) (h : n < 2 ^ 14) : ofNumber n = double := by
  rw [ofNumber, if_neg (by omega), if_pos h]

theorem ofNumber_quad {n : Nat} (hl : 2 ^ 14 ≤ n) (h : n < 2 ^ 30) : ofNumber n = quad := by
  rw [ofNumber, if_neg (by omega), if_neg (by omega), if_pos h]

theorem ofNumber_big {n : Nat} (hl : 2 ^ 30 ≤ n) : ofNumber n = big := by
  rw [ofNumber, if_neg (by omega), if_neg (by omega), if_neg (by omega)]

end Form

namespace Varint

theorem bytes_single {n : Nat} (h : n < 2 ^ 6) : bytes n = Bytes.little 1 (4 * n) := by
  rw [bytes, Form.ofNumber_single h]

theorem bytes_double {n : Nat} (hl : 2 ^ 6 ≤ n) (h : n < 2 ^ 14) :
    bytes n = Bytes.little 2 (4 * n + 1) := by
  rw [bytes, Form.ofNumber_double hl h]

theorem bytes_quad {n : Nat} (hl : 2 ^ 14 ≤ n) (h : n < 2 ^ 30) :
    bytes n = Bytes.little 4 (4 * n + 2) := by
  rw [bytes, Form.ofNumber_quad hl h]

theorem bytes_big {n : Nat} (hl : 2 ^ 30 ≤ n) :
    bytes n = UInt8.ofNat (4 * (bigSpan n - 4) + 3) :: Bytes.little (bigSpan n) n := by
  rw [bytes, Form.ofNumber_big hl]

theorem ofFirst_ofNat {form : Form} {m : Nat} (h : m % 4 = form.tag) :
    Form.ofFirst (UInt8.ofNat m) = form := by
  apply Form.ofFirst_eq
  rw [UInt8.toNat_ofNat']
  omega

/-- The low byte of a number and the bytes after it make up the number. -/
theorem number_first {k m : Nat} (hm : m < 256 ^ (k + 1)) :
    Bytes.number (UInt8.ofNat m :: Bytes.little k (m / 256)) = m := by
  have hn := Bytes.number_little (k + 1) m
  rwa [Nat.mod_eq_of_lt hm] at hn

theorem shortest_reads {width : Width} {form : Form} {n : Nat} (h : form.least ≤ n) :
    (shortest width form n).Reads [] n := by
  unfold shortest
  rw [if_pos h]
  exact .pure n

/-- The two middle forms, which differ in the number of bytes after the first. -/
theorem tail_reads {width : Width} {form : Form} {k n : Nat} (hn : form.least ≤ n)
    (hm : 4 * n + form.tag < 256 ^ (k + 1)) (ht : form.tag < 4) :
    (do
      let tail ← Scan.take k
      shortest width form
        (Bytes.number (UInt8.ofNat (4 * n + form.tag) :: tail) / 4) : Scan Nat).Reads
      (Bytes.little k ((4 * n + form.tag) / 256)) n := by
  have hdiv : (4 * n + form.tag) / 4 = n := by omega
  refine (Scan.take_little_reads k _).bind_nil ?_
  rw [number_first hm, hdiv]
  exact shortest_reads hn

theorem bigSpan_eq {n : Nat} (h : 2 ^ 30 ≤ n) : bigSpan n = Bytes.span n := by
  have hn := Bytes.lt_pow_span n
  have hs : ¬ Bytes.span n ≤ 3 := by
    intro hs
    have := Nat.pow_le_pow_right (show 0 < 256 by omega) hs
    omega
  unfold bigSpan
  omega

theorem span_le_bytes {width : Width} {n : Nat} (h : n ≤ width.unsignedMax) :
    Bytes.span n ≤ width.bytes := by
  apply Bytes.span_le_of_lt_pow
  have hw := width.unsignedMax_lt
  rw [width.bits_eq, Nat.pow_mul] at hw
  exact Nat.lt_of_le_of_lt h hw

theorem bytes_le_sixteen (width : Width) : width.bytes ≤ 16 := by cases width <;> decide

theorem single_reads {width : Width} {n : Nat} (h : n < 2 ^ 6) :
    (body width (UInt8.ofNat (4 * n))).Reads [] n := by
  have hform : Form.ofFirst (UInt8.ofNat (4 * n)) = .single :=
    ofFirst_ofNat (by rw [Form.tag]; omega)
  have hval : (UInt8.ofNat (4 * n)).toNat / 4 = n := by
    rw [UInt8.toNat_ofNat']
    omega
  unfold body
  rw [hform]
  dsimp only
  rw [hval]
  exact .pure n

theorem double_reads {width : Width} {n : Nat} (hl : 2 ^ 6 ≤ n) (h : n < 2 ^ 14) :
    (body width (UInt8.ofNat (4 * n + 1))).Reads (Bytes.little 1 ((4 * n + 1) / 256)) n := by
  have hform : Form.ofFirst (UInt8.ofNat (4 * n + 1)) = .double :=
    ofFirst_ofNat (by rw [Form.tag]; omega)
  have hlt : 4 * n + Form.double.tag < 256 ^ (1 + 1) := by
    rw [Form.tag]
    omega
  unfold body
  rw [hform]
  exact tail_reads hl hlt (by decide)

theorem quad_reads {width : Width} {n : Nat} (hl : 2 ^ 14 ≤ n) (h : n < 2 ^ 30) :
    (body width (UInt8.ofNat (4 * n + 2))).Reads (Bytes.little 3 ((4 * n + 2) / 256)) n := by
  have hform : Form.ofFirst (UInt8.ofNat (4 * n + 2)) = .quad :=
    ofFirst_ofNat (by rw [Form.tag]; omega)
  have hlt : 4 * n + Form.quad.tag < 256 ^ (3 + 1) := by
    rw [Form.tag]
    omega
  unfold body
  rw [hform]
  exact tail_reads hl hlt (by decide)

theorem big_reads {width : Width} {n : Nat} (hl : 2 ^ 30 ≤ n) (h : n ≤ width.unsignedMax) :
    (body width (UInt8.ofNat (4 * (bigSpan n - 4) + 3))).Reads
      (Bytes.little (bigSpan n) n) n := by
  have hb := bigSpan_eq hl
  have hw := span_le_bytes h
  have h4 : 4 ≤ bigSpan n := Nat.le_max_left _ _
  have h16 := bytes_le_sixteen width
  have hform : Form.ofFirst (UInt8.ofNat (4 * (bigSpan n - 4) + 3)) = .big :=
    ofFirst_ofNat (by rw [Form.tag]; omega)
  -- The first byte holds the span because no width has more than sixteen bytes.
  have hspan : (UInt8.ofNat (4 * (bigSpan n - 4) + 3)).toNat / 4 + 4 = bigSpan n := by
    rw [UInt8.toNat_ofNat']
    omega
  have hlast : (Bytes.little (bigSpan n) n).getLast? ≠ some 0 := by
    rw [hb]
    exact Bytes.getLast?_little_span n
  have hnum : Bytes.number (Bytes.little (bigSpan n) n) = n := by
    rw [Bytes.number_little, hb, Nat.mod_eq_of_lt (Bytes.lt_pow_span n)]
  unfold body
  rw [hform]
  dsimp only
  rw [hspan, if_neg (by omega)]
  refine (Scan.take_little_reads (bigSpan n) n).bind_nil ?_
  rw [if_neg hlast, hnum]
  exact shortest_reads hl

/-- The body of a number's shortest form is read back from the bytes after the first. -/
theorem body_reads {width : Width} {n : Nat} (h : n ≤ width.unsignedMax) :
    ∃ first tail, bytes n = first :: tail ∧ (body width first).Reads tail n := by
  by_cases h6 : n < 2 ^ 6
  · rw [bytes_single h6]
    exact ⟨_, _, rfl, single_reads h6⟩
  have hl6 : 2 ^ 6 ≤ n := Nat.not_lt.mp h6
  by_cases h14 : n < 2 ^ 14
  · rw [bytes_double hl6 h14]
    exact ⟨_, _, rfl, double_reads hl6 h14⟩
  have hl14 : 2 ^ 14 ≤ n := Nat.not_lt.mp h14
  by_cases h30 : n < 2 ^ 30
  · rw [bytes_quad hl14 h30]
    exact ⟨_, _, rfl, quad_reads hl14 h30⟩
  have hl30 : 2 ^ 30 ≤ n := Nat.not_lt.mp h30
  rw [bytes_big hl30]
  exact ⟨_, _, rfl, big_reads hl30 h⟩

theorem number_reads {width : Width} {n : Nat} (h : n ≤ width.unsignedMax) :
    (number width).Reads (bytes n) n := by
  obtain ⟨first, tail, hb, hr⟩ := body_reads h
  rw [hb, ← List.singleton_append]
  unfold number
  refine (Scan.byte_reads first).bind ?_
  refine hr.bind_nil ?_
  rw [if_pos h]
  exact .pure n

theorem scan_reads (n : Varint) : (scan n.width).Reads (bytes n.val) n := by
  unfold scan
  refine (number_reads n.le_max).bind_nil ?_
  rw [dif_pos n.le_max]
  exact .pure n

theorem shortest_spells (width : Width) (form : Form) (n : Nat) :
    (shortest width form n).Spells fun m xs => xs = [] ∧ m = n ∧ form.least ≤ n := by
  unfold shortest
  split
  next h => exact .pure ⟨rfl, rfl, h⟩
  next => exact .error _

theorem number_div {first : UInt8} {tail : Bytes} {form : Form}
    (h : first.toNat % 4 = form.tag) :
    4 * (Bytes.number (first :: tail) / 4) + form.tag = Bytes.number (first :: tail) := by
  have hm : Bytes.number (first :: tail) % 4 = first.toNat % 4 := by
    simp only [Bytes.number]
    omega
  omega

theorem tail_spells {width : Width} {form : Form} {first : UInt8} {k : Nat}
    (h : first.toNat % 4 = form.tag) :
    (do
      let tail ← Scan.take k
      shortest width form (Bytes.number (first :: tail) / 4) : Scan Nat).Spells
      fun n tail => form.least ≤ n ∧ 4 * n + form.tag < 256 ^ (k + 1) ∧
        first :: tail = Bytes.little (k + 1) (4 * n + form.tag) := by
  refine (Scan.take_spells k).bind fun tail xs hx => ?_
  obtain ⟨rfl, hk⟩ := hx
  refine (shortest_spells _ _ _).mono fun n ys hy => ?_
  obtain ⟨rfl, rfl, hl⟩ := hy
  have hlt := Bytes.number_lt (first :: xs)
  have hln := Bytes.little_number (first :: xs)
  rw [List.length_cons, hk] at hlt hln
  rw [number_div h, List.append_nil]
  exact ⟨hl, hlt, hln.symm⟩

theorem big_spells {width : Width} {first : UInt8} {span : Nat}
    (hs : first.toNat = 4 * (span - 4) + 3) :
    (do
      let tail ← Scan.take span
      if tail.getLast? = some 0 then throw (.outOfRange width (.zeroHighByte span))
      shortest width .big (Bytes.number tail) : Scan Nat).Spells
      fun n tail => first :: tail = bytes n := by
  refine (Scan.take_spells span).bind fun tail xs hx => ?_
  obtain ⟨rfl, hk⟩ := hx
  refine .guard fun hlast => (shortest_spells _ _ _).mono fun n ys hy => ?_
  obtain ⟨rfl, rfl, hl⟩ := hy
  rw [Form.least] at hl
  -- As the last byte is not zero, the number needs as many bytes as there are.
  have hspan : bigSpan (Bytes.number xs) = span := by
    rw [bigSpan_eq hl, Bytes.span_number hlast, hk]
  have hfirst : UInt8.ofNat (4 * (span - 4) + 3) = first := by
    rw [← hs, UInt8.ofNat_toNat]
  have hln := Bytes.little_number xs
  rw [hk] at hln
  rw [bytes_big hl, hspan, hfirst, hln, List.append_nil]

theorem body_spells (width : Width) (first : UInt8) :
    (body width first).Spells fun n tail => first :: tail = bytes n := by
  have htag := Form.tag_ofFirst first
  unfold body
  split
  next hf =>
    rw [hf, Form.tag] at htag
    have hb := first.toNat_lt
    have hn : 4 * (first.toNat / 4) = first.toNat := by omega
    have hlt : first.toNat / 4 < 2 ^ 6 := by omega
    refine .pure ?_
    rw [bytes_single hlt, hn]
    simp [Bytes.little]
  next hf =>
    rw [hf] at htag
    refine (tail_spells htag).mono fun n tail hn => ?_
    obtain ⟨hl, hlt, he⟩ := hn
    simp only [Form.least, Form.tag] at hl hlt he
    have hn14 : n < 2 ^ 14 := by omega
    rw [bytes_double hl hn14]
    exact he
  next hf =>
    rw [hf] at htag
    refine (tail_spells htag).mono fun n tail hn => ?_
    obtain ⟨hl, hlt, he⟩ := hn
    simp only [Form.least, Form.tag] at hl hlt he
    have hn30 : n < 2 ^ 30 := by omega
    rw [bytes_quad hl hn30]
    exact he
  next hf =>
    rw [hf, Form.tag] at htag
    have hs : first.toNat = 4 * (first.toNat / 4 + 4 - 4) + 3 := by omega
    exact .guard fun _ => big_spells hs

theorem number_spells (width : Width) :
    (number width).Spells fun n xs => n ≤ width.unsignedMax ∧ xs = bytes n := by
  unfold number
  refine Scan.byte_spells.bind fun first xs hx => ?_
  subst hx
  refine (body_spells width first).bind fun n tail hn => ?_
  split
  next hle => exact .pure ⟨hle, by rw [List.append_nil, ← hn]; rfl⟩
  next => exact .error _

theorem scan_spells (width : Width) :
    (scan width).Spells fun n xs => n.width = width ∧ xs = bytes n.val := by
  unfold scan
  refine (number_spells width).bind fun n xs hn => ?_
  obtain ⟨hle, rfl⟩ := hn
  rw [dif_pos hle]
  exact .pure ⟨rfl, List.append_nil _⟩

theorem scanLength_spells : scanLength.Spells fun n xs => n ≤ maxLength ∧ xs = bytes n := by
  unfold scanLength
  refine (number_spells .w32).bind fun n xs hn => .get fun c => ?_
  refine (Scan.ofExcept_spells _).bind fun _ ys hy => .pure ?_
  obtain ⟨hle, rfl⟩ := hn
  obtain ⟨_, rfl⟩ := hy
  exact ⟨hle, by simp⟩

theorem scanLength_reads {n : Nat} (h : n ≤ maxLength) : scanLength.Reads (bytes n) n := by
  unfold scanLength
  exact (number_reads h).bind_nil (.check (fun c => c.limits.checkCollection_cases n) (.pure n))

end Varint

end CallWire
