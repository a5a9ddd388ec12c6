import CallWire.Proofs.WalkSettled

namespace CallWire

/-- Along a chain nothing is used up twice, when what an element uses up was unspent before it, is
spent after it, and stays spent. -/
theorem nodup_of_spent {α β : Type} {r : α → α → Prop} {p : α → Prop} {f : α → Option β}
    (unspent : α → β → Prop) (hkeep : ∀ a a', p a → r a a' → p a')
    (hopen : ∀ a b, p a → f a = some b → unspent a b)
    (hback : ∀ a a' b, p a → r a a' → unspent a' b → unspent a b)
    (hspent : ∀ a a' b, p a → r a a' → f a = some b → ¬ unspent a' b) {a : α} {as : List α}
    (ha : p a) (h : (a :: as).IsChain r) :
    ((a :: as).filterMap f).Nodup ∧ ∀ b ∈ (a :: as).filterMap f, unspent a b := by
  induction as generalizing a with
  | nil =>
    cases hf : f a with
    | none => simp [hf]
    | some b => simpa [hf] using hopen a b ha hf
  | cons a' as ih =>
    obtain ⟨hr, hrest⟩ := List.isChain_cons_cons.mp h
    obtain ⟨hnodup, hunspent⟩ := ih (hkeep a a' ha hr) hrest
    have hlater : ∀ b ∈ (a' :: as).filterMap f, unspent a b := fun b hb =>
      hback a a' b ha hr (hunspent b hb)
    cases hf : f a with
    | none =>
      rw [List.filterMap_cons_none hf]
      exact ⟨hnodup, hlater⟩
    | some b =>
      rw [List.filterMap_cons_some hf, List.nodup_cons, List.forall_mem_cons]
      have hnew : b ∉ (a' :: as).filterMap f := fun hb =>
        hspent a a' b ha hr hf (hunspent b hb)
      exact ⟨⟨hnew, hnodup⟩, hopen a b ha hf, hlater⟩

namespace Tour

open Walk

variable {types : TypeTable} {t u : Tour}

/-- The turns that a type not yet entered will take: one for each reference, one to leave it. -/
def unentered (types : TypeTable) (marks : Array Mark) (id : TypeId) : Nat :=
  if mark marks id = .fresh then (types.references id).length + 1 else 0

/-- The turns that a check takes from a tour on if nothing stops it. -/
def remaining (types : TypeTable) (t : Tour) : Nat :=
  t.waiting.length + work t.walk.path +
    ∑ id ∈ Finset.range types.size, unentered types t.walk.marks id

theorem sum_unentered {marks : Array Mark} {id : TypeId} {m : Mark}
    (hsize : marks.size = types.size) (hid : id < marks.size) (hm : m ≠ .fresh) :
    unentered types marks id +
        ∑ c ∈ Finset.range types.size, unentered types (marks.setIfInBounds id m) c =
      ∑ c ∈ Finset.range types.size, unentered types marks c := by
  have hmem : id ∈ Finset.range types.size := Finset.mem_range.mpr (hsize ▸ hid)
  have hself : unentered types (marks.setIfInBounds id m) id = 0 := by
    rw [unentered, mark_setIfInBounds hid, if_pos rfl, if_neg hm]
  have hother : ∀ c ∈ (Finset.range types.size).erase id,
      unentered types (marks.setIfInBounds id m) c = unentered types marks c := by
    intro c hc
    rw [unentered, unentered, mark_setIfInBounds hid, if_neg (Finset.ne_of_mem_erase hc)]
  rw [← Finset.add_sum_erase _ (unentered types (marks.setIfInBounds id m)) hmem, hself,
    Nat.zero_add, Finset.sum_congr rfl hother, Finset.add_sum_erase _ _ hmem]

theorem remaining_enter {ids : List TypeId} {w : Walk} {id : TypeId}
    (hsize : w.marks.size = types.size) (hf : mark w.marks id = .fresh) :
    remaining types ⟨ids, enter types w id⟩ = remaining types ⟨ids, w⟩ := by
  have hsum := sum_unentered (m := .entered) hsize (lt_size_of_mark hf nofun) nofun
  rw [unentered, if_pos hf] at hsum
  unfold remaining enter
  dsimp only [work]
  omega

/-- Each turn is one of those that were left. -/
theorem remaining_of_goes (h : Goes types t u) (ht : Settled types none t.walk) :
    remaining types u + 1 = remaining types t := by
  cases h with
  | @leave ids marks id path hn =>
    have hsize : marks.size = types.size := ht.size_eq
    have hentered : mark marks id = .entered := ht.on_path ⟨id, []⟩ List.mem_cons_self
    have hsum := sum_unentered (m := .done (count types marks id)) hsize
      (lt_size_of_mark hentered nofun) nofun
    rw [unentered, hentered, if_neg nofun] at hsum
    unfold remaining
    dsimp only [work, List.length_nil]
    omega
  | follow hd =>
    unfold remaining
    dsimp only [work, List.length_cons]
    omega
  | @enter ids marks id next pending path hf =>
    have hsize : marks.size = types.size := ht.size_eq
    have hwork : remaining types ⟨ids, ⟨marks, ⟨id, pending⟩ :: path⟩⟩ + 1 =
        remaining types ⟨ids, ⟨marks, ⟨id, next :: pending⟩ :: path⟩⟩ := by
      unfold remaining
      dsimp only [work, List.length_cons]
      omega
    rw [← hwork, remaining_enter (w := ⟨marks, _⟩) hsize hf]
  | @root ids marks id hf =>
    rw [remaining_enter ht.size_eq hf]
    unfold remaining
    dsimp only [List.length_cons]
    omega
  | pass =>
    unfold remaining
    dsimp only [List.length_cons]
    omega

theorem remaining_start (types : TypeTable) : remaining types (start types) =
    2 * types.size + ∑ id ∈ Finset.range types.size, (types.references id).length := by
  have hall : ∀ id ∈ Finset.range types.size,
      unentered types (Array.replicate types.size .fresh) id =
        (types.references id).length + 1 := by
    intro id hid
    rw [unentered, mark_replicate (Finset.mem_range.mp hid), if_pos rfl]
  rw [remaining, start, Finset.sum_congr rfl hall, Finset.sum_add_distrib]
  simp only [work, List.length_range, Finset.sum_const, Finset.card_range, smul_eq_mul]
  omega

/-- The type that the turn comes to: the next one referred to, or the next one to start from. -/
def reached? (t : Tour) : Option TypeId :=
  match t.walk.path, t.waiting with
  | ⟨_, next :: _⟩ :: _, _ => some next
  | ⟨_, []⟩ :: _, _ => none
  | [], id :: _ => some id
  | [], [] => none

/-- The type that the turn enters. -/
def entered? (t : Tour) : Option TypeId :=
  (reached? t).filter fun id => mark t.walk.marks id = .fresh

/-- The reference that the turn looks at: the type that has it and its place among those of the
type. -/
def followed? (types : TypeTable) (t : Tour) : Option (TypeId × Nat) :=
  match t.walk.path with
  | ⟨id, _ :: pending⟩ :: _ => some (id, (types.references id).length - (pending.length + 1))
  | _ => none

theorem entered?_eq_some {id : TypeId} :
    entered? t = some id ↔ reached? t = some id ∧ mark t.walk.marks id = .fresh := by
  rw [entered?, Option.filter_eq_some_iff, decide_eq_true_iff]

theorem fresh_of_setIfInBounds {marks : Array Mark} {id c : TypeId} {m : Mark} (hm : m ≠ .fresh)
    (h : mark (marks.setIfInBounds id m) c = .fresh) : mark marks c = .fresh := by
  by_contra hc
  exact mark_setIfInBounds_ne_fresh hm hc h

theorem fresh_of_goes {id : TypeId} (h : Goes types t u) (hid : mark u.walk.marks id = .fresh) :
    mark t.walk.marks id = .fresh := by
  cases h with
  | @leave _ marks c => exact fresh_of_setIfInBounds (m := .done (count types marks c)) nofun hid
  | follow => exact hid
  | enter => exact fresh_of_setIfInBounds (m := .entered) nofun hid
  | root => exact fresh_of_setIfInBounds (m := .entered) nofun hid
  | pass => exact hid

theorem entered_of_goes {id : TypeId} (h : Goes types t u) (hid : entered? t = some id) :
    mark u.walk.marks id = .entered := by
  obtain ⟨hreached, hfresh⟩ := entered?_eq_some.mp hid
  have hset : ∀ marks : Array Mark, mark marks id = .fresh →
      mark (marks.setIfInBounds id .entered) id = .entered := fun marks hf => by
    rw [mark_setIfInBounds (lt_size_of_mark hf nofun), if_pos rfl]
  cases h with
  | leave => cases hreached
  | follow hd =>
    cases hreached
    obtain ⟨n, hn⟩ := hd
    cases hn.symm.trans hfresh
  | enter hf =>
    cases hreached
    exact hset _ hf
  | root hf =>
    cases hreached
    exact hset _ hf
  | pass hf =>
    cases hreached
    exact absurd hfresh hf

/-- A reference of a type that is not entered, or that its frame has still to follow. -/
def Unfollowed (types : TypeTable) (w : Walk) (e : TypeId × Nat) : Prop :=
  mark w.marks e.1 = .fresh ∨
    ∃ f ∈ w.path, f.id = e.1 ∧ (types.references e.1).length ≤ e.2 + f.pending.length

theorem Unfollowed.of_enter {w : Walk} {next : TypeId} {e : TypeId × Nat}
    (hf : mark w.marks next = .fresh) (h : Unfollowed types (enter types w next) e) :
    Unfollowed types w e := by
  rcases h with hfresh | ⟨f, hm, hid, hle⟩
  · exact .inl (fresh_of_setIfInBounds (m := .entered) nofun hfresh)
  · rcases List.mem_cons.mp hm with rfl | hm
    · exact .inl (hid ▸ hf)
    · exact .inr ⟨f, hm, hid, hle⟩

theorem Unfollowed.of_follow {marks : Array Mark} {id next : TypeId} {pending : List TypeId}
    {path : List Frame} {e : TypeId × Nat}
    (h : Unfollowed types ⟨marks, ⟨id, pending⟩ :: path⟩ e) :
    Unfollowed types ⟨marks, ⟨id, next :: pending⟩ :: path⟩ e := by
  refine h.imp_right ?_
  rintro ⟨f, hm, hid, hle⟩
  rcases List.mem_cons.mp hm with rfl | hm
  · exact ⟨⟨id, next :: pending⟩, List.mem_cons_self, hid, Nat.le_succ_of_le hle⟩
  · exact ⟨f, List.mem_cons_of_mem _ hm, hid, hle⟩

theorem unfollowed_of_goes {e : TypeId × Nat} (h : Goes types t u)
    (he : Unfollowed types u.walk e) : Unfollowed types t.walk e := by
  cases h with
  | leave hn =>
    refine he.imp (fresh_of_goes (.leave hn)) ?_
    rintro ⟨f, hm, hid, hle⟩
    exact ⟨f, List.mem_cons_of_mem _ hm, hid, hle⟩
  | follow => exact he.of_follow
  | enter hf => exact (Unfollowed.of_enter hf he).of_follow
  | root hf => exact Unfollowed.of_enter hf he
  | pass => exact he

/-- The reference that the type entered last has next is followed with the turn. -/
theorem not_unfollowed_next {marks : Array Mark} {id next : TypeId} {pending : List TypeId}
    {path : List Frame} (h : Settled types none ⟨marks, ⟨id, next :: pending⟩ :: path⟩) :
    ¬ Unfollowed types ⟨marks, ⟨id, pending⟩ :: path⟩
      (id, (types.references id).length - (pending.length + 1)) := by
  have hentered : mark marks id = .entered := h.on_path ⟨id, next :: pending⟩ List.mem_cons_self
  have hlength : (next :: pending).length ≤ (types.references id).length :=
    (h.pending_suffix ⟨id, next :: pending⟩ List.mem_cons_self).length_le
  rw [List.length_cons] at hlength
  rintro (hf | ⟨f, hm, hid, hle⟩)
  · cases hentered.symm.trans hf
  · rcases List.mem_cons.mp hm with rfl | hm
    · dsimp only at hle
      omega
    · exact (List.nodup_cons.mp h.nodup).1 (List.mem_map.mpr ⟨f, hm, hid⟩)

theorem not_unfollowed_of_goes {e : TypeId × Nat} (ht : Settled types none t.walk)
    (h : Goes types t u) (he : followed? types t = some e) : ¬ Unfollowed types u.walk e := by
  cases h with
  | leave => cases he
  | follow =>
    cases he
    exact not_unfollowed_next ht
  | enter hf =>
    cases he
    exact fun hu => not_unfollowed_next ht (Unfollowed.of_enter hf hu)
  | root => cases he
  | pass => cases he

theorem unfollowed_of_followed? {e : TypeId × Nat} (h : followed? types t = some e) :
    Unfollowed types t.walk e := by
  unfold followed? at h
  split at h
  next id next pending path hp =>
    cases h
    right
    refine ⟨⟨id, next :: pending⟩, by rw [hp]; exact List.mem_cons_self, rfl, ?_⟩
    dsimp only [List.length_cons]
    omega
  next => cases h

/-- What holds before each turn. The types that are entered are those on the path, each of which is
referred to by the one below it. A type that is done refers to such types only and has its nodes
counted with nothing cut off. When a type is left, all that it refers to is done. -/
structure Steady (types : TypeTable) (t : Tour) : Prop where
  mem_path_iff : ∀ id, mark t.walk.marks id = .entered ↔ id ∈ t.walk.path.map Frame.id
  nodup : (t.walk.path.map Frame.id).Nodup
  linked : t.walk.path.IsChain fun above below => types.Refers above.id below.id
  pending : ∀ f ∈ t.walk.path, f.pending <:+ types.references f.id
  done_closed : ∀ id, IsDone t.walk.marks id → ∀ c ∈ types.references id, IsDone t.walk.marks c
  counted : ∀ id n, id < types.size → mark t.walk.marks id = .done n →
    n ≤ maxTypeNodes ∧ HasNodes types.numbered.toList id n
  finished : ∀ id path, t.walk.path = ⟨id, []⟩ :: path →
    ∀ c ∈ types.references id, IsDone t.walk.marks c

theorem steady_of_settled (h : Settled types none t.walk) : Steady types t := by
  refine ⟨fun id => h.mem_path_iff, h.nodup, h.linked, h.pending_suffix, h.done_closed, ?_, ?_⟩
  · intro id n hid hn
    exact h.invariant.counted id n (by rwa [TypeTable.size_numbered]) hn
  · intro id path hp
    obtain ⟨ids, marks, _⟩ := t
    cases hp
    exact h.references_done

theorem length_le_remaining (hr : Ranged types) {ts : List Tour} (ht : Settled types none t.walk)
    (h : (t :: ts).IsChain fun t u => turn types t = .onward u) :
    (t :: ts).length ≤ remaining types t + 1 := by
  induction ts generalizing t with
  | nil => exact Nat.le_add_left 1 _
  | cons u ts ih =>
    obtain ⟨hturn, hrest⟩ := List.isChain_cons_cons.mp h
    have hgoes := goes_of_turn hturn
    have hlength := ih (settled_of_goes hr hgoes ht) hrest
    have hremaining := remaining_of_goes hgoes ht
    rw [List.length_cons]
    omega

/-- A check that is under way comes to its end. -/
theorem exists_ended (hr : Ranged types) (ht : Settled types none t.walk) :
    ∃ ts last, (t :: ts).IsChain (fun t u => turn types t = .onward u) ∧
      (t :: ts).getLast? = some last ∧ turn types last = .ended (finish types t) := by
  induction hn : remaining types t using Nat.strong_induction_on generalizing t with
  | _ n ih =>
    cases h : turn types t with
    | ended answer =>
      refine ⟨[], t, .singleton t, rfl, ?_⟩
      rw [h, finish_eq, h]
    | onward u =>
      have hgoes := goes_of_turn h
      have hremaining := remaining_of_goes hgoes ht
      obtain ⟨ts, last, hchain, hlast, hend⟩ :=
        ih (remaining types u) (by omega) (settled_of_goes hr hgoes ht) rfl
      refine ⟨u :: ts, last, List.isChain_cons_cons.mpr ⟨h, hchain⟩, ?_, ?_⟩
      · rw [List.getLast?_cons_cons, hlast]
      · rw [hend, finish_eq types t, h]

namespace Course

variable {tours : List Tour}

theorem exists_chain (h : Course types tours) : ∃ ts, tours = start types :: ts ∧
    (start types :: ts).IsChain fun t u => turn types t = .onward u := by
  obtain ⟨ts, rfl⟩ := List.head?_eq_some_iff.mp h.1
  exact ⟨ts, rfl, h.2⟩

theorem settled (hr : Ranged types) (h : Course types tours) :
    ∀ t ∈ tours, Settled types none t.walk := by
  obtain ⟨ts, rfl, hchain⟩ := h.exists_chain
  apply hchain.induction (fun t => Settled types none t.walk)
  · intro t u hturn ht
    exact settled_of_goes hr (goes_of_turn hturn) ht
  · intro _
    exact settled_start types

theorem length_le (hr : Ranged types) (h : Course types tours) : tours.length ≤
    2 * types.size + (∑ id ∈ Finset.range types.size, (types.references id).length) + 1 := by
  obtain ⟨ts, rfl, hchain⟩ := h.exists_chain
  rw [← remaining_start]
  exact length_le_remaining hr (settled_start types) hchain

/-- A type is entered when it is fresh, and none becomes fresh again. -/
theorem entered_nodup (h : Course types tours) : (tours.filterMap entered?).Nodup := by
  obtain ⟨ts, rfl, hchain⟩ := h.exists_chain
  have hspent := nodup_of_spent (p := fun _ => True) (f := entered?)
    (fun t id => mark t.walk.marks id = .fresh) (fun _ _ _ _ => trivial)
    (fun t id _ hid => (entered?_eq_some.mp hid).2)
    (fun t u id _ hturn => fresh_of_goes (goes_of_turn hturn)) ?_ trivial hchain
  · exact hspent.1
  · intro t u id _ hturn hid hfresh
    cases hfresh.symm.trans (entered_of_goes (goes_of_turn hturn) hid)

/-- A reference is followed when its type waits for it, and no type waits for it again. -/
theorem followed_nodup (hr : Ranged types) (h : Course types tours) :
    (tours.filterMap (followed? types)).Nodup := by
  obtain ⟨ts, rfl, hchain⟩ := h.exists_chain
  have hspent := nodup_of_spent (p := fun t => Settled types none t.walk) (f := followed? types)
    (fun t e => Unfollowed types t.walk e)
    (fun t u ht hturn => settled_of_goes hr (goes_of_turn hturn) ht)
    (fun t e _ he => unfollowed_of_followed? he)
    (fun t u e _ hturn => unfollowed_of_goes (goes_of_turn hturn))
    (fun t u e ht hturn => not_unfollowed_of_goes ht (goes_of_turn hturn))
    (settled_start types) hchain
  exact hspent.1

end Course

/-- The check of a table whose types refer to none outside it comes to its end, after two turns for
each type and one for each reference at most. On the way it enters no type twice and follows no
reference twice, and what is marked agrees with the path before each turn. -/
theorem survey_course (hr : ∀ decl ∈ types, ∀ c ∈ decl.layout.references, c < types.size) :
    (∃ tours last, Course types tours ∧ tours.getLast? = some last ∧
      turn types last = .ended (survey types)) ∧
    ∀ tours, Course types tours →
      tours.length ≤
        2 * types.size + (∑ id ∈ Finset.range types.size, (types.references id).length) + 1 ∧
      (tours.filterMap entered?).Nodup ∧ (tours.filterMap (followed? types)).Nodup ∧
      ∀ t ∈ tours, Steady types t := by
  constructor
  · obtain ⟨ts, last, hchain, hlast, hend⟩ := exists_ended (t := start types) hr (settled_start types)
    rw [finish_start] at hend
    exact ⟨start types :: ts, last, ⟨rfl, hchain⟩, hlast, hend⟩
  · intro tours h
    exact ⟨h.length_le hr, h.entered_nodup, h.followed_nodup hr,
      fun t ht => steady_of_settled (h.settled hr t ht)⟩

/-- A row of a flag, three flags and the first flag again. -/
def rowTable : TypeTable := #[⟨0, .struct [2, 1, 2]⟩, ⟨1, .array 2 3⟩, ⟨2, .primitive .bool⟩]

theorem survey_rowTable : survey rowTable = .ok #[.done 8, .done 5, .done 1] := by cbv

theorem survey_course_row :
    (∀ decl ∈ rowTable, ∀ c ∈ decl.layout.references, c < rowTable.size) ∧
    (∃ tours last, Course rowTable tours ∧ tours.getLast? = some last ∧
      turn rowTable last = .ended (.ok #[.done 8, .done 5, .done 1])) ∧
    ∀ tours, Course rowTable tours → tours.length ≤ 11 ∧ (tours.filterMap entered?).Nodup ∧
      (tours.filterMap (followed? rowTable)).Nodup ∧ ∀ t ∈ tours, Steady rowTable t := by
  have hranged : ∀ decl ∈ rowTable, ∀ c ∈ decl.layout.references, c < rowTable.size := by decide
  obtain ⟨hended, hcourse⟩ := survey_course hranged
  rw [survey_rowTable] at hended
  exact ⟨hranged, hended, hcourse⟩

end Tour

end CallWire
