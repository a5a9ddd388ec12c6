import CallWire.ValueWire
import CallWire.Proofs.Outcome

namespace CallWire

namespace Cursor

/-- The same place under other limits, with another count of charged nodes. -/
def under (c : Cursor) (l : Limits) (expansion : Nat) : Cursor :=
  { c with limits := l, expansion := expansion }

@[simp] theorem under_rest (c : Cursor) (l : Limits) (n : Nat) : (c.under l n).rest = c.rest := rfl

end Cursor

namespace Scan

/-- A step put together from reads, refusals and looks at the limits. It charges nothing and asks
for no more bytes than it reads. -/
inductive Elementary : {α : Type} → Scan α → Prop
  | pure {α : Type} (a : α) : Elementary (Pure.pure a)
  | error {α : Type} (f : Fault) : Elementary (throw f : Scan α)
  | byte : Elementary byte
  | take (n : Nat) : Elementary (take n)
  | ofLimits {α : Type} (step : Limits → Scan α) (h : ∀ l, Elementary (step l)) :
      Elementary (get >>= fun c => step c.limits)
  | bind {α β : Type} {step : Scan α} {next : α → Scan β} (hs : Elementary step)
      (hn : ∀ a, Elementary (next a)) : Elementary (step >>= next)

/-- A step put together from reads and refusals alone, which no limit bears on. -/
inductive Blind : {α : Type} → Scan α → Prop
  | pure {α : Type} (a : α) : Blind (Pure.pure a)
  | error {α : Type} (f : Fault) : Blind (throw f : Scan α)
  | byte : Blind byte
  | take (n : Nat) : Blind (take n)
  | bind {α β : Type} {step : Scan α} {next : α → Scan β} (hs : Blind step)
      (hn : ∀ a, Blind (next a)) : Blind (step >>= next)

variable {α : Type} {step : Scan α}

theorem Blind.elementary (h : Blind step) : Elementary step := by
  induction h with
  | pure a => exact .pure a
  | error f => exact .error f
  | byte => exact .byte
  | take n => exact .take n
  | bind _ _ ihs ihn => exact .bind ihs ihn

/-- What a blind step does is the same under any limits and after any charges, which it leaves as
they are. -/
theorem Blind.run_under (h : Blind step) (c : Cursor) (l : Limits) (n : Nat) :
    step (c.under l n) = match step c with
      | .ok a c' => .ok a (c'.under l n)
      | .error f c' => .error f (c'.under l n) := by
  induction h generalizing c with
  | pure a | error f => rfl
  | byte =>
    unfold Scan.byte
    cases hr : c.rest with
    | nil => simp only [Cursor.under_rest, hr]
    | cons b rest => simp only [Cursor.under_rest, hr]; rfl
  | take k =>
    unfold Scan.take
    rw [Cursor.under_rest]
    split
    next => rfl
    next => rfl
  | @bind _ _ first next _ _ ihs ihn =>
    cases hs : first c with
    | ok a c' =>
      have hu : first (c.under l n) = .ok a (c'.under l n) := by rw [ihs, hs]
      rw [bind_of_ok hs, bind_of_ok hu, ihn]
    | error f c' =>
      have hu : first (c.under l n) = .error f (c'.under l n) := by rw [ihs, hs]
      rw [bind_of_error hs, bind_of_error hu]

theorem Blind.keeps (h : Blind step) {c c' : Cursor} {a : α} (hs : step c = .ok a c') :
    c'.limits = c.limits ∧ c'.expansion = c.expansion := by
  have hsame := h.run_under c c.limits c.expansion
  rw [hs] at hsame
  have hc' : c' = c'.under c.limits c.expansion :=
    (EStateM.Result.ok.inj (hs.symm.trans hsame)).2
  rw [hc']
  exact ⟨rfl, rfl⟩

theorem Blind.guard {p : Prop} [Decidable p] {f : Fault} {next : Unit → Scan α}
    (h : Blind (next ())) : Blind (if p then throw f >>= next else next ()) := by
  split
  · rw [throw_bind]
    exact .error f
  · exact h

theorem Blind.ofExcept (e : Except Fault α) : Blind (ofExcept e) := by
  cases e with
  | ok a => exact .pure a
  | error f => exact .error f

end Scan

namespace Varint

theorem shortest_blind (width : Width) (form : Form) (n : Nat) :
    (shortest width form n).Blind := by
  unfold shortest
  split
  · exact .pure n
  · exact .error _

theorem body_blind (width : Width) (first : UInt8) : (body width first).Blind := by
  unfold body
  split
  · exact .pure _
  · exact .bind (.take 1) fun _ => shortest_blind _ _ _
  · exact .bind (.take 3) fun _ => shortest_blind _ _ _
  · refine .guard (.bind (.take _) fun _ => ?_)
    exact .guard (shortest_blind _ _ _)

theorem number_blind (width : Width) : (number width).Blind := by
  unfold number
  refine .bind .byte fun first => .bind (body_blind width first) fun n => ?_
  split
  · exact .pure n
  · exact .error _

theorem scan_blind (width : Width) : (scan width).Blind := by
  unfold scan
  refine .bind (number_blind width) fun n => ?_
  split
  · exact .pure _
  · exact .error _

theorem scan_elementary (width : Width) : (scan width).Elementary := (scan_blind width).elementary

theorem scanLength_elementary : scanLength.Elementary := by
  unfold scanLength
  refine .bind (number_blind .w32).elementary fun n => ?_
  exact .ofLimits (fun l => do Scan.ofExcept (l.checkCollection n); return n) fun l =>
    .bind (Scan.Blind.ofExcept _).elementary fun _ => .pure n

end Varint

theorem Word.scan_blind (width : Width) (signed : Bool) : (scan width signed).Blind :=
  .bind (.take width.bytes) fun _ => .pure _

theorem Word.scan_elementary (width : Width) (signed : Bool) : (scan width signed).Elementary :=
  (scan_blind width signed).elementary

namespace Scan

variable {α : Type}

theorem bool_blind : Blind bool := by
  unfold bool
  refine .bind .byte fun b => ?_
  split
  · exact .pure false
  · exact .pure true
  · exact .error _

theorem bool_elementary : Elementary bool := bool_blind.elementary

/-- What a text does once its length is read. -/
def textOf (n : Nat) : Scan String := do
  match Utf8.decode (← take n) with
  | .ok s => return s
  | .error f => throw (.invalidUtf8 f)

theorem textOf_blind (n : Nat) : Blind (textOf n) := by
  unfold textOf
  refine .bind (.take n) fun bs => ?_
  split
  · exact .pure _
  · exact .error _

theorem text_elementary : text.Elementary :=
  .bind Varint.scanLength_elementary fun n => (textOf_blind n).elementary

/-- A step that is refused beforehand when fewer bytes than these are left. -/
def demanding (needed : Nat) (step : Scan α) : Scan α := do
  let c ← get
  if !Bytes.holds needed c.rest then throw (.truncated needed c.remaining)
  step

theorem demanding_of_le {needed : Nat} {step : Scan α} {c : Cursor}
    (h : needed ≤ c.rest.length) : demanding needed step c = step c := by
  have hholds : Bytes.holds needed c.rest = true := by
    rwa [Bytes.holds_eq_decide, decide_eq_true_eq]
  change (if !Bytes.holds needed c.rest then _ else _ : Scan α) c = _
  rw [hholds]
  rfl

theorem demanding_of_lt {needed : Nat} {step : Scan α} {c : Cursor}
    (h : c.rest.length < needed) :
    demanding needed step c = .error (.truncated needed c.remaining) c := by
  have hholds : Bytes.holds needed c.rest = false := by
    rwa [Bytes.holds_eq_decide, decide_eq_false_iff_not, Nat.not_le]
  change (if !Bytes.holds needed c.rest then _ else _ : Scan α) c = _
  rw [hholds]
  rfl

/-- A vector's length is read, then bytes are demanded and nodes charged for the items to come. -/
theorem vectorLength_bind (size nodes : Nat) (next : Nat → Scan α) :
    vectorLength size nodes >>= next = Varint.scanLength >>= fun n =>
      demanding (Count.mul n size) (charge (Count.mul n (nodes - size)) >>= fun _ => next n) := by
  unfold vectorLength demanding
  simp only [bind_assoc]
  congr 1
  funext n
  congr 1
  funext c
  split <;> simp

/-- A step put together from what reading values takes. -/
inductive Assembled : {α : Type} → Scan α → Prop
  | blind {α : Type} {step : Scan α} (h : Blind step) : Assembled step
  | length : Assembled Varint.scanLength
  | charge (nodes : Nat) : Assembled (charge nodes)
  | demanding {α : Type} (needed : Nat) {step : Scan α} (h : Assembled step) :
      Assembled (demanding needed step)
  | bind {α β : Type} {step : Scan α} {next : α → Scan β} (hs : Assembled step)
      (hn : ∀ a, Assembled (next a)) : Assembled (step >>= next)

theorem Assembled.pure (a : α) : Assembled (Pure.pure a) := .blind (.pure a)

theorem Assembled.map {β : Type} {step : Scan α} (g : α → β) (h : Assembled step) :
    Assembled (g <$> step) := by
  rw [map_eq_bind]
  exact h.bind fun a => .pure (g a)

theorem Assembled.guard {p : Prop} [Decidable p] {f : Fault} {next : Unit → Scan α}
    (h : ¬ p → Assembled (next ())) : Assembled (if p then throw f >>= next else next ()) := by
  split
  next =>
    rw [throw_bind]
    exact .blind (.error f)
  next hp => exact h hp

theorem text_assembled : Assembled text := Assembled.length.bind fun n => .blind (textOf_blind n)

end Scan

end CallWire
