import CallWire.Cursor
import Mathlib.Data.List.Perm.Basic

namespace CallWire

theorem bind_eq_ok {ε α β : Type} {x : Except ε α} {f : α → Except ε β} {b : β} :
    x >>= f = .ok b ↔ ∃ a, x = .ok a ∧ f a = .ok b := by
  cases x <;> simp [bind, Except.bind]

theorem bind_eq_error {ε α β : Type} {x : Except ε α} {f : α → Except ε β} {e : ε} :
    x >>= f = .error e ↔ x = .error e ∨ ∃ a, x = .ok a ∧ f a = .error e := by
  cases x <;> simp [bind, Except.bind]

theorem map_eq_ok {ε α β : Type} {x : Except ε α} {f : α → β} {b : β} :
    f <$> x = .ok b ↔ ∃ a, x = .ok a ∧ f a = b := by
  cases x <;> simp [Functor.map, Except.map]

theorem map_eq_error {ε α β : Type} {x : Except ε α} {f : α → β} {e : ε} :
    f <$> x = .error e ↔ x = .error e := by
  cases x <;> simp [Functor.map, Except.map]

theorem pure_eq_ok {ε α : Type} {a b : α} : (pure a : Except ε α) = .ok b ↔ a = b := by
  simp [pure, Except.pure]

theorem guard_eq_ok {ε α : Type} {p : Prop} [Decidable p] {e : ε} {next : Unit → Except ε α}
    {a : α} : (if p then throw e >>= next else next ()) = .ok a ↔ ¬ p ∧ next () = .ok a := by
  by_cases hp : p
  · simp [hp, throw, throwThe, MonadExceptOf.throw, bind, Except.bind]
  · simp [hp]

theorem mapM_eq_ok {ε α β : Type} {f : α → Except ε β} {as : List α} {bs : List β} :
    as.mapM f = .ok bs ↔ List.Forall₂ (fun a b => f a = .ok b) as bs := by
  induction as generalizing bs with
  | nil => cases bs <;> simp [pure_eq_ok]
  | cons a as ih =>
    rw [List.mapM_cons, bind_eq_ok]
    constructor
    · intro h
      obtain ⟨b, hb, hrest⟩ := h
      obtain ⟨rest, hr, hpure⟩ := bind_eq_ok.mp hrest
      cases pure_eq_ok.mp hpure
      exact .cons hb (ih.mp hr)
    · intro h
      cases h with
      | cons hb hr => exact ⟨_, hb, bind_eq_ok.mpr ⟨_, ih.mpr hr, rfl⟩⟩

theorem mapM_eq_some {α β : Type} {f : α → Option β} {as : List α} {bs : List β} :
    as.mapM f = some bs ↔ List.Forall₂ (fun a b => f a = some b) as bs := by
  induction as generalizing bs with
  | nil => cases bs <;> simp
  | cons a as ih =>
    rw [List.mapM_cons]
    constructor
    · intro h
      obtain ⟨b, hb, hrest⟩ := Option.bind_eq_some_iff.mp h
      obtain ⟨rest, hr, hpure⟩ := Option.bind_eq_some_iff.mp hrest
      cases Option.some.inj hpure
      exact .cons hb (ih.mp hr)
    · intro h
      cases h with
      | cons hb hr =>
        exact Option.bind_eq_some_iff.mpr ⟨_, hb, Option.bind_eq_some_iff.mpr ⟨_, ih.mpr hr, rfl⟩⟩

/-- What each answer has, every answer of a list has. -/
theorem mapM_forall {ε α β : Type} {f : α → Except ε β} {as : List α} {bs : List β} {p : β → Prop}
    (h : as.mapM f = .ok bs) (hp : ∀ a ∈ as, ∀ b, f a = .ok b → p b) : ∀ b ∈ bs, p b := by
  have hall := mapM_eq_ok.mp h
  clear h
  induction hall with
  | nil => simp
  | cons hb _ ih =>
    obtain ⟨ha, has⟩ := List.forall_mem_cons.mp hp
    exact List.forall_mem_cons.mpr ⟨ha _ hb, ih has⟩

theorem exists_of_mapM {ε α β : Type} {f : α → Except ε β} {as : List α} {bs : List β} {a : α}
    (h : as.mapM f = .ok bs) (ha : a ∈ as) : ∃ b, f a = .ok b := by
  have hall := mapM_eq_ok.mp h
  clear h
  induction hall with
  | nil => cases ha
  | @cons _ b _ _ hb _ ih =>
    rcases List.mem_cons.mp ha with rfl | ha
    · exact ⟨b, hb⟩
    · exact ih ha

theorem exists_mapM {ε α β : Type} {f : α → Except ε β} {as : List α}
    (h : ∀ a ∈ as, ∃ b, f a = .ok b) : ∃ bs, as.mapM f = .ok bs := by
  induction as with
  | nil => exact ⟨[], rfl⟩
  | cons a as ih =>
    obtain ⟨⟨b, hb⟩, has⟩ := List.forall_mem_cons.mp h
    obtain ⟨bs, hbs⟩ := ih has
    exact ⟨b :: bs, mapM_eq_ok.mpr (.cons hb (mapM_eq_ok.mp hbs))⟩

/-- Items in another order have the same answers in another order. -/
theorem mapM_perm {ε α β : Type} {f : α → Except ε β} {as as' : List α} {bs : List β}
    (h : as.Perm as') (hbs : as.mapM f = .ok bs) : ∃ bs', as'.mapM f = .ok bs' ∧ bs.Perm bs' := by
  obtain ⟨bs', hall, hperm⟩ := List.perm_comp_forall₂ h.symm (mapM_eq_ok.mp hbs)
  exact ⟨bs', mapM_eq_ok.mpr hall, hperm.symm⟩

theorem mapM_perm_some {α β : Type} {f : α → Option β} {as as' : List α} {bs : List β}
    (h : as.Perm as') (hbs : as.mapM f = some bs) :
    ∃ bs', as'.mapM f = some bs' ∧ bs.Perm bs' := by
  obtain ⟨bs', hall, hperm⟩ := List.perm_comp_forall₂ h.symm (mapM_eq_some.mp hbs)
  exact ⟨bs', mapM_eq_some.mpr hall, hperm.symm⟩

/-- A measure of each answer that is one of each item comes to one of the whole lists. -/
theorem map_of_mapM {ε α β γ : Type} {f : α → Except ε β} {as : List α} {bs : List β}
    {g : α → γ} {measure : β → γ} (h : as.mapM f = .ok bs)
    (hg : ∀ a ∈ as, ∀ b, f a = .ok b → measure b = g a) : bs.map measure = as.map g := by
  have hall := mapM_eq_ok.mp h
  clear h
  induction hall with
  | nil => rfl
  | cons hb _ ih =>
    obtain ⟨ha, has⟩ := List.forall_mem_cons.mp hg
    rw [List.map_cons, List.map_cons, ha _ hb, ih has]

theorem mapM_eq_mapM {ε α β γ : Type} {f : α → Except ε γ} {g : β → Except ε γ} {as : List α}
    {bs : List β} {r : α → β → Prop} (h : List.Forall₂ r as bs)
    (hr : ∀ a ∈ as, ∀ b, r a b → f a = g b) : as.mapM f = bs.mapM g := by
  induction h with
  | nil => rfl
  | cons hab _ ih =>
    obtain ⟨ha, has⟩ := List.forall_mem_cons.mp hr
    rw [List.mapM_cons, List.mapM_cons, ha _ hab, ih has]

/-- Items that have the same answers one by one are related as items of the same answer are. -/
theorem forall₂_of_mapM {ε α β γ : Type} {f : α → Except ε γ} {g : β → Except ε γ} {as : List α}
    {bs : List β} {cs : List γ} {r : α → β → Prop} (hf : as.mapM f = .ok cs)
    (hg : bs.mapM g = .ok cs) (hr : ∀ a ∈ as, ∀ b ∈ bs, ∀ c, f a = .ok c → g b = .ok c → r a b) :
    List.Forall₂ r as bs := by
  have hfs := mapM_eq_ok.mp hf
  have hgs := mapM_eq_ok.mp hg
  clear hf hg
  induction hfs generalizing bs with
  | nil =>
    cases hgs
    exact .nil
  | cons ha _ ih =>
    cases hgs with
    | cons hb hbs =>
      refine .cons (hr _ List.mem_cons_self _ List.mem_cons_self _ ha hb) (ih ?_ hbs)
      exact fun a hm b hn => hr a (List.mem_cons_of_mem _ hm) b (List.mem_cons_of_mem _ hn)

theorem mapM_getElem? {ε α β : Type} {f : α → Except ε β} {as : List α} {bs : List β} {k : Nat}
    {b : β} (h : as.mapM f = .ok bs) (hb : bs[k]? = some b) :
    ∃ a, as[k]? = some a ∧ f a = .ok b := by
  have hall := mapM_eq_ok.mp h
  clear h
  induction hall generalizing k with
  | nil => simp at hb
  | cons ha _ ih =>
    cases k with
    | zero =>
      cases (show _ = b by simpa using hb)
      exact ⟨_, rfl, ha⟩
    | succ k => exact ih (by simpa using hb)

theorem getElem?_mapM {ε α β : Type} {f : α → Except ε β} {as : List α} {bs : List β} {k : Nat}
    {a : α} (h : as.mapM f = .ok bs) (ha : as[k]? = some a) :
    ∃ b, bs[k]? = some b ∧ f a = .ok b := by
  have hall := mapM_eq_ok.mp h
  clear h
  induction hall generalizing k with
  | nil => simp at ha
  | cons hb _ ih =>
    cases k with
    | zero =>
      cases (show _ = a by simpa using ha)
      exact ⟨_, rfl, hb⟩
    | succ k => exact ih (by simpa using ha)

theorem mapM_attach_eq {ε α β : Type} (f : α → Except ε β) (as : List α) :
    as.attach.mapM (fun a => f a.val) = as.mapM f := by
  change as.attach.mapM (f ∘ Subtype.val) = _
  rw [← List.mapM_map, List.attach_map_subtype_val]

/-- One computation answers as another does, with the same value or fault, or fails in a given
way. -/
def Narrows {ε α : Type} (bad : ε → Prop) (x y : Except ε α) : Prop :=
  x = y ∨ ∃ e, x = .error e ∧ bad e

namespace Narrows

variable {ε α β : Type} {bad : ε → Prop}

theorem refl (x : Except ε α) : Narrows bad x x := .inl rfl

theorem eq_of_never {x y : Except ε α} (h : Narrows (fun _ => False) x y) : x = y := by
  rcases h with h | ⟨_, _, hbad⟩
  · exact h
  · cases hbad

theorem of_ok {x y : Except ε α} {a : α} (h : Narrows bad x y) (hx : x = .ok a) : y = .ok a := by
  rcases h with rfl | ⟨e, he, _⟩
  · exact hx
  · cases hx.symm.trans he

theorem mono {worse : ε → Prop} {x y : Except ε α} (h : Narrows bad x y)
    (hb : ∀ e, bad e → worse e) : Narrows worse x y :=
  h.imp_right fun ⟨e, he, hbad⟩ => ⟨e, he, hb e hbad⟩

theorem bind {x y : Except ε α} {f g : α → Except ε β} (h : Narrows bad x y)
    (hf : ∀ a, Narrows bad (f a) (g a)) : Narrows bad (x >>= f) (y >>= g) := by
  rcases h with rfl | ⟨e, rfl, he⟩
  · cases x with
    | ok a => exact hf a
    | error e => exact .inl rfl
  · exact .inr ⟨e, rfl, he⟩

theorem mapM {f g : α → Except ε β} {as : List α} (h : ∀ a ∈ as, Narrows bad (f a) (g a)) :
    Narrows bad (as.mapM f) (as.mapM g) := by
  induction as with
  | nil => exact refl _
  | cons a as ih =>
    obtain ⟨ha, has⟩ := List.forall_mem_cons.mp h
    rw [List.mapM_cons, List.mapM_cons]
    exact ha.bind fun b => (ih has).bind fun bs => refl _

end Narrows

namespace Scan

variable {α β : Type} {step : Scan α} {next : α → Scan β} {c c' c₁ : Cursor} {a : α} {b : β}

theorem bind_of_ok (h : step c = .ok a c₁) : (step >>= next) c = next a c₁ := by
  change EStateM.bind step next c = _
  simp only [EStateM.bind, h]

theorem bind_of_error {f : Fault} (h : step c = .error f c₁) :
    (step >>= next) c = .error f c₁ := by
  change EStateM.bind step next c = _
  simp only [EStateM.bind, h]

theorem bind_eq_ok : (step >>= next) c = .ok b c' ↔
    ∃ a c₁, step c = .ok a c₁ ∧ next a c₁ = .ok b c' := by
  cases h : step c with
  | ok a c₁ =>
    rw [bind_of_ok h]
    constructor
    · exact fun hn => ⟨a, c₁, rfl, hn⟩
    · intro hex
      obtain ⟨_, _, he, hn⟩ := hex
      cases he
      exact hn
  | error f c₁ => simp [bind_of_error h]

theorem map_eq_bind (g : α → β) : (g <$> step) = (step >>= fun a => pure (g a)) :=
  map_eq_pure_bind g step

theorem pure_eq_ok {x : α} : (pure x : Scan α) c = .ok a c' ↔ x = a ∧ c = c' := by
  change EStateM.pure x c = _ ↔ _
  simp [EStateM.pure]

theorem throw_ne_ok {f : Fault} : (throw f : Scan α) c ≠ .ok a c' := by
  change EStateM.Result.error f c ≠ _
  simp

theorem throw_bind (f : Fault) (next : α → Scan β) : (throw f >>= next) = throw f := rfl

theorem finish_eq_ok {u : Unit} : finish c = .ok u c' ↔ c = c' ∧ c.rest = [] := by
  unfold finish Cursor.isEmpty
  split
  next h => simp [List.isEmpty_iff.mp h]
  next h => simpa using fun _ hr => h (List.isEmpty_iff.mpr hr)

theorem timesAfter_succ (n : Nat) (done : List α) :
    timesAfter step (n + 1) done = (step >>= fun a => timesAfter step n (a :: done)) := by
  funext c
  cases h : step c with
  | ok a c₁ => simp only [timesAfter, h, bind_of_ok h]
  | error f c₁ => simp only [timesAfter, h, bind_of_error h]

theorem timesAfter_eq (n : Nat) (done : List α) :
    timesAfter step n done = (done.reverse ++ ·) <$> times step n := by
  induction n generalizing done with
  | zero =>
    rw [map_eq_bind]
    change (pure done.reverse : Scan (List α)) = pure (done.reverse ++ [])
    rw [List.append_nil]
  | succ n ih =>
    rw [times, timesAfter_succ, timesAfter_succ]
    simp only [ih [_], ih (_ :: done), map_bind, Functor.map_map, List.reverse_cons,
      List.reverse_nil, List.nil_append, List.append_assoc]

theorem times_succ (n : Nat) :
    times step (n + 1) = (step >>= fun a => times step n >>= fun as => pure (a :: as)) := by
  rw [times, timesAfter_succ]
  simp only [timesAfter_eq n [_], map_eq_bind, List.reverse_singleton, List.singleton_append]

end Scan

end CallWire
