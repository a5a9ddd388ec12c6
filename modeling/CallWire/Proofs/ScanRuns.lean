import CallWire.Proofs.ScanElements
import CallWire.Proofs.ScanReads

namespace CallWire

namespace Cursor

/-- A place in these bytes under these limits. -/
structure Inside (c : Cursor) (input : Bytes) (l : Limits) : Prop where
  limits : c.limits = l
  position_le : c.position ≤ input.length
  rest : c.rest = input.drop c.position
  expansion_le : ∀ max ∈ l.expansion, c.expansion ≤ max
  counted : c.expansion ≤ Count.max

/-- These bytes lie between two places, and nothing is charged between them. -/
structure Passes (c : Cursor) (bytes : Bytes) (c' : Cursor) : Prop where
  rest : c.rest = bytes ++ c'.rest
  position : c'.position = c.position + bytes.length
  expansion : c'.expansion = c.expansion
  limits : c'.limits = c.limits

variable {c c' c₁ : Cursor} {input xs ys : Bytes} {l : Limits}

theorem Passes.refl (c : Cursor) : c.Passes [] c := ⟨rfl, rfl, rfl, rfl⟩

theorem Passes.trans (h : c.Passes xs c₁) (h' : c₁.Passes ys c') : c.Passes (xs ++ ys) c' := by
  refine ⟨?_, ?_, h'.expansion.trans h.expansion, h'.limits.trans h.limits⟩
  · rw [h.rest, h'.rest, List.append_assoc]
  · rw [h'.position, h.position, List.length_append, Nat.add_assoc]

theorem Inside.start (input : Bytes) (l : Limits) : (start input l).Inside input l :=
  ⟨rfl, Nat.zero_le _, rfl, fun _ _ => Nat.zero_le _, Nat.zero_le _⟩

theorem Inside.remaining (h : c.Inside input l) : c.position + c.remaining = input.length := by
  have hle := h.position_le
  rw [Cursor.remaining, h.rest, List.length_drop]
  omega

theorem Inside.passes (h : c.Inside input l) (hp : c.Passes xs c') : c'.Inside input l := by
  have hle := h.position_le
  have hpos := hp.position
  have hlength : input.length - c.position = xs.length + c'.rest.length := by
    rw [← List.length_drop, ← h.rest, hp.rest, List.length_append]
  refine ⟨hp.limits.trans h.limits, by omega, ?_, ?_, ?_⟩
  · have hdrop := congrArg (List.drop xs.length) hp.rest
    rw [List.drop_left, h.rest, List.drop_drop, ← hpos] at hdrop
    exact hdrop.symm
  · rw [hp.expansion]
    exact h.expansion_le
  · rw [hp.expansion]
    exact h.counted

/-- The bytes between two places are those of the input between the two positions. -/
theorem Inside.extract (h : c.Inside input l) (hp : c.Passes xs c') :
    xs = input.extract c.position c'.position := by
  have hrest := hp.rest
  rw [h.rest] at hrest
  rw [List.extract_eq_take_drop, hp.position, Nat.add_sub_cancel_left, hrest, List.take_left]

end Cursor

namespace Scan

variable {α β : Type}

/-- Where a step leaves the cursor, whether it succeeds or fails. -/
def left : EStateM.Result Fault Cursor α → Cursor
  | .ok _ c => c
  | .error _ c => c

/-- A step from a place comes to an outcome, and on the way its inner reads give these bytes, one
read after the other. A read that fails gives none. -/
inductive Traced : {α : Type} → Scan α → Cursor → List Bytes →
    EStateM.Result Fault Cursor α → Prop
  | pure {α : Type} (a : α) (c : Cursor) : Traced (Pure.pure a) c [] (.ok a c)
  | error {α : Type} (f : Fault) (c : Cursor) : Traced (throw f : Scan α) c [] (.error f c)
  | byte {c c' : Cursor} {b : UInt8} (h : byte c = .ok b c') : Traced byte c [[b]] (.ok b c')
  | noByte {c c' : Cursor} {f : Fault} (h : byte c = .error f c') :
      Traced byte c [] (.error f c')
  | take {c c' : Cursor} {n : Nat} {bytes : Bytes} (h : take n c = .ok bytes c') :
      Traced (take n) c [bytes] (.ok bytes c')
  | noTake {c c' : Cursor} {n : Nat} {f : Fault} (h : take n c = .error f c') :
      Traced (take n) c [] (.error f c')
  | ofLimits {α : Type} {step : Limits → Scan α} {c : Cursor} {reads : List Bytes}
      {r : EStateM.Result Fault Cursor α} (h : Traced (step c.limits) c reads r) :
      Traced (get >>= fun c => step c.limits) c reads r
  | bind {α β : Type} {step : Scan α} {next : α → Scan β} {c c' : Cursor} {a : α}
      {first others : List Bytes} {r : EStateM.Result Fault Cursor β}
      (hs : Traced step c first (.ok a c')) (hn : Traced (next a) c' others r) :
      Traced (step >>= next) c (first ++ others) r
  | stop {α β : Type} {step : Scan α} {next : α → Scan β} {c c' : Cursor} {f : Fault}
      {reads : List Bytes} (hs : Traced step c reads (.error f c')) :
      Traced (step >>= next) c reads (.error f c')

variable {step : Scan α} {c c' : Cursor} {reads : List Bytes} {r : EStateM.Result Fault Cursor α}

theorem Elementary.traced (h : Elementary step) (c : Cursor) :
    ∃ reads, Traced step c reads (step c) := by
  induction h generalizing c with
  | pure a => exact ⟨[], .pure a c⟩
  | error f => exact ⟨[], .error f c⟩
  | byte =>
    cases hb : Scan.byte c with
    | ok b c' => exact ⟨[[b]], .byte hb⟩
    | error f c' => exact ⟨[], .noByte hb⟩
  | take n =>
    cases ht : Scan.take n c with
    | ok bytes c' => exact ⟨[bytes], .take ht⟩
    | error f c' => exact ⟨[], .noTake ht⟩
  | ofLimits step _ ih =>
    obtain ⟨reads, hr⟩ := ih c.limits c
    exact ⟨reads, .ofLimits hr⟩
  | @bind _ _ first next _ _ ihs ihn =>
    obtain ⟨reads, hfirst⟩ := ihs c
    cases hs : first c with
    | ok a c' =>
      rw [hs] at hfirst
      obtain ⟨others, hnext⟩ := ihn a c'
      rw [bind_of_ok hs]
      exact ⟨reads ++ others, .bind hfirst hnext⟩
    | error f c' =>
      rw [hs] at hfirst
      rw [bind_of_error hs]
      exact ⟨reads, .stop hfirst⟩

/-- What a step that no limit bears on has read lies between the places. -/
theorem Blind.passes {spell : α → Bytes → Prop} {a : α} (hb : Blind step)
    (hs : Spells step spell) (h : step c = .ok a c') : ∃ xs, spell a xs ∧ c.Passes xs c' := by
  obtain ⟨xs, hx, hr, hp⟩ := hs c c' a h
  obtain ⟨hl, he⟩ := hb.keeps h
  exact ⟨xs, hx, hr, hp, he, hl⟩

theorem byte_passes {b : UInt8} (h : byte c = .ok b c') : c.Passes [b] c' := by
  obtain ⟨_, rfl, hp⟩ := Blind.byte.passes byte_spells h
  exact hp

theorem take_passes {n : Nat} {bytes : Bytes} (h : take n c = .ok bytes c') :
    bytes.length = n ∧ c.Passes bytes c' := by
  obtain ⟨_, ⟨rfl, hn⟩, hp⟩ := (Blind.take n).passes (take_spells n) h
  exact ⟨hn, hp⟩

theorem byte_error_keeps {f : Fault} (h : byte c = .error f c') : c' = c := by
  unfold byte at h
  split at h
  next => cases h; rfl
  next => cases h

theorem take_error_keeps {n : Nat} {f : Fault} (h : take n c = .error f c') : c' = c := by
  unfold take at h
  split at h
  next => cases h
  next => cases h; rfl

theorem charge_error_keeps {nodes : Nat} {f : Fault} (h : charge nodes c = .error f c') :
    c' = c := by
  unfold charge at h
  dsimp only at h
  split at h
  next => cases h
  next => cases h; rfl

/-- The cursor has moved over the bytes that the inner reads gave and over no others. -/
theorem Traced.passes (h : Traced step c reads r) : c.Passes reads.flatten (left r) := by
  induction h with
  | pure _ c | error _ c => exact .refl c
  | byte h => exact byte_passes h
  | noByte h =>
    cases byte_error_keeps h
    exact .refl _
  | take h =>
    rw [List.flatten_singleton]
    exact (take_passes h).2
  | noTake h =>
    cases take_error_keeps h
    exact .refl _
  | ofLimits _ ih => exact ih
  | bind _ _ ihs ihn =>
    rw [List.flatten_append]
    exact ihs.trans ihn
  | stop _ ih => exact ih

/-- A charge moves the count alone. A count that was no larger than the largest does not fall, and
the new one heeds the limit. -/
theorem charge_counts {nodes : Nat} {u : Unit} (h : charge nodes c = .ok u c') :
    ∃ n, c' = { c with expansion := n } ∧ n ≤ Count.max ∧ (c.expansion ≤ Count.max →
      c.expansion ≤ n) ∧ ∀ max ∈ c.limits.expansion, n ≤ max := by
  unfold charge at h
  dsimp only at h
  split at h
  next hok =>
    cases h
    refine ⟨_, rfl, Count.add_le_max _ _, fun hle => ?_, Limits.within_eq_ok_iff.mp hok⟩
    unfold Count.add
    omega
  next => cases h

end Scan

/-- What a cursor can be asked for. -/
inductive Request where
  | byte
  | take (n : Nat)
  | charge (nodes : Nat)
  | word (width : Width) (signed : Bool)
  | number (width : Width)
  | varint (width : Width)
  | length
  | bool
  | text

namespace Request

def Answer : Request → Type
  | byte => UInt8
  | take _ => Bytes
  | charge _ => Unit
  | word _ _ => Word
  | number _ => Nat
  | varint _ => Varint
  | length => Nat
  | bool => Bool
  | text => String

def scan : (r : Request) → Scan r.Answer
  | byte => Scan.byte
  | take n => Scan.take n
  | charge nodes => Scan.charge nodes
  | word width signed => Word.scan width signed
  | number width => Varint.number width
  | varint width => Varint.scan width
  | length => Varint.scanLength
  | bool => Scan.bool
  | text => Scan.text

/-- The requests that are granted or refused at once. -/
def Raw : Request → Prop
  | byte => True
  | take _ => True
  | charge _ => True
  | _ => False

/-- Where a request leaves the cursor, granted or not. -/
def after (c : Cursor) (r : Request) : Cursor := Scan.left (r.scan c)

def run (requests : List Request) (c : Cursor) : Cursor := requests.foldl after c

variable {r : Request} {c c' : Cursor} {input : Bytes} {l : Limits}

theorem elementary (r : Request) : (∃ nodes, r = charge nodes) ∨ r.scan.Elementary := by
  cases r with
  | byte => exact .inr .byte
  | take n => exact .inr (.take n)
  | charge nodes => exact .inl ⟨nodes, rfl⟩
  | word width signed => exact .inr (Word.scan_elementary width signed)
  | number width => exact .inr (Varint.number_blind width).elementary
  | varint width => exact .inr (Varint.scan_elementary width)
  | length => exact .inr Varint.scanLength_elementary
  | bool => exact .inr Scan.bool_elementary
  | text => exact .inr Scan.text_elementary

theorem Raw.error_keeps (h : r.Raw) {f : Fault} (hf : r.scan c = .error f c') : c' = c := by
  cases r with
  | byte => exact Scan.byte_error_keeps hf
  | take n => exact Scan.take_error_keeps hf
  | charge nodes => exact Scan.charge_error_keeps hf
  | _ => cases h

theorem traced_of_not_raw (h : ¬ r.Raw) (c : Cursor) :
    ∃ reads, Scan.Traced r.scan c reads (r.scan c) := by
  rcases elementary r with ⟨nodes, rfl⟩ | he
  · exact absurd trivial h
  · exact he.traced c

/-- One place is reached from another without going back. -/
def Onward (c c' : Cursor) : Prop := c.position ≤ c'.position ∧ c.expansion ≤ c'.expansion

/-- No request, granted or not, leaves the input or goes back. -/
theorem after_inside (r : Request) (h : c.Inside input l) :
    (after c r).Inside input l ∧ Onward c (after c r) := by
  rcases elementary r with ⟨nodes, rfl⟩ | he
  · unfold after
    cases hs : (charge nodes).scan c with
    | ok u c' =>
      obtain ⟨n, rfl, hmax, hle, hlimit⟩ := Scan.charge_counts hs
      rw [h.limits] at hlimit
      exact ⟨⟨h.limits, h.position_le, h.rest, hlimit, hmax⟩, Nat.le_refl _, hle h.counted⟩
    | error f c' =>
      cases Scan.charge_error_keeps hs
      exact ⟨h, Nat.le_refl _, Nat.le_refl _⟩
  · obtain ⟨reads, htraced⟩ := he.traced c
    have hp := htraced.passes
    refine ⟨h.passes hp, ?_, Nat.le_of_eq hp.expansion.symm⟩
    have hposition := hp.position
    change c.position ≤ (Scan.left (r.scan c)).position
    omega

theorem run_inside (requests : List Request) (h : c.Inside input l) :
    (run requests c).Inside input l ∧ Onward c (run requests c) := by
  induction requests generalizing c with
  | nil => exact ⟨h, Nat.le_refl _, Nat.le_refl _⟩
  | cons r requests ih =>
    obtain ⟨hinside, hposition, hexpansion⟩ := after_inside r h
    obtain ⟨hend, hposition', hexpansion'⟩ := ih hinside
    exact ⟨hend, Nat.le_trans hposition hposition', Nat.le_trans hexpansion hexpansion'⟩

/-- Whatever is asked of a cursor and whatever becomes of it, the place stays in the input and the
count of charged nodes under its limit, and neither goes back. A raw read gives the bytes that it
passes, and a raw read or a charge that is refused changes nothing. A number, a truth value or a
text, found or not, has passed the bytes that its inner reads gave and has charged nothing. -/
theorem run_accounts (input : Bytes) (l : Limits) (requests : List Request) :
    let c := run requests (.start input l)
    (c.position ≤ input.length ∧ c.position + c.remaining = input.length ∧
      c.rest = input.drop c.position ∧ ∀ max ∈ l.expansion, c.expansion ≤ max) ∧
    (∀ others : List Request, c.position ≤ (run others c).position ∧
      c.expansion ≤ (run others c).expansion) ∧
    (∀ (b : UInt8) c', byte.scan c = .ok b c' →
      c'.position = c.position + 1 ∧ [b] = input.extract c.position c'.position) ∧
    (∀ n (bytes : Bytes) c', (take n).scan c = .ok bytes c' →
      c'.position = c.position + n ∧ bytes = input.extract c.position c'.position) ∧
    (∀ r : Request, r.Raw → ∀ f c', r.scan c = .error f c' → c' = c) ∧
    ∀ r : Request, ¬ r.Raw → (after c r).expansion = c.expansion ∧
      ∃ reads, Scan.Traced r.scan c reads (r.scan c) ∧
        (after c r).position = c.position + reads.flatten.length ∧
        reads.flatten = input.extract c.position (after c r).position := by
  intro c
  have hinside : c.Inside input l := (run_inside requests (.start input l)).1
  refine ⟨⟨hinside.position_le, hinside.remaining, hinside.rest, hinside.expansion_le⟩,
    fun others => (run_inside others hinside).2, ?_, ?_, fun r hr f c' => hr.error_keeps, ?_⟩
  · intro b c' h
    have hp := Scan.byte_passes h
    exact ⟨hp.position, hinside.extract hp⟩
  · intro n bytes c' h
    obtain ⟨hn, hp⟩ := Scan.take_passes h
    exact ⟨hn ▸ hp.position, hinside.extract hp⟩
  · intro r hr
    obtain ⟨reads, htraced⟩ := traced_of_not_raw hr c
    have hp := htraced.passes
    exact ⟨hp.expansion, reads, htraced, hp.position, hinside.extract hp⟩

def tenNodes : Limits := { Limits.unbounded with expansion := some 10 }

/-- A second charge is refused. Then a number that is not in its shortest form is refused after both
of its bytes are read, and the byte after it is still there to be read, but no more than that. -/
theorem run_accounts_refused :
    let c := run [.charge 6, .charge 5, .number .w32] (.start [0x15, 0, 9] tenNodes)
    c = ⟨[9], 2, 6, tenNodes⟩ ∧ c.rest = List.drop c.position [0x15, 0, 9] ∧
      (∀ max ∈ tenNodes.expansion, c.expansion ≤ max) ∧
      (∃ f, (take (2 ^ 64 - 1)).scan c = .error f c) ∧
      (∃ c', byte.scan c = .ok (9 : UInt8) c' ∧ c'.position = 3) ∧
      ∃ f reads, Scan.Traced (number .w32).scan (.start [0x15, 0, 9] tenNodes) reads
        (.error f ⟨[9], 2, 0, tenNodes⟩) ∧ reads.flatten = [0x15, 0] := by
  obtain ⟨⟨_, _, hrest, hlimit⟩, _, hbyte, _, hkept, _⟩ :=
    run_accounts [0x15, 0, 9] tenNodes [.charge 6, .charge 5, .number .w32]
  obtain ⟨_, _, _, _, _, htraced⟩ := run_accounts [0x15, 0, 9] tenNodes []
  obtain ⟨_, reads, hreads, _, hflat⟩ := htraced (number .w32) not_false
  refine ⟨rfl, hrest, hlimit, ?_, ⟨_, rfl, ?_⟩, _, reads, hreads, hflat⟩
  · have hrefused : ∃ f c', (take (2 ^ 64 - 1)).scan ⟨[9], 2, 6, tenNodes⟩ = .error f c' :=
      ⟨_, _, rfl⟩
    obtain ⟨f, c', hf⟩ := hrefused
    cases hkept (take (2 ^ 64 - 1)) trivial f c' hf
    exact ⟨f, hf⟩
  · exact (hbyte 9 ⟨[], 3, 6, tenNodes⟩ rfl).1

end Request

end CallWire
