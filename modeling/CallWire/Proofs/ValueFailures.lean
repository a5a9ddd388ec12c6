import CallWire.Proofs.ValuePlaces

namespace CallWire

open InPlace

/-- Values decoded in their places, each from where the one before it stopped. -/
inductive DecodedEach : List Value → Cursor → List Value → Cursor → Prop
  | nil (c : Cursor) : DecodedEach [] c [] c
  | cons {v w : Value} {vs ws : List Value} {c c₁ c₂ : Cursor}
      (h : decode ⟨v, c⟩ = .ok () ⟨w, c₁⟩) (hs : DecodedEach vs c₁ ws c₂) :
      DecodedEach (v :: vs) c (w :: ws) c₂

/-- What a failed decoding leaves. A whole value stays as it was. One that is replaced part by part
has its first parts decoded, then the part where the decoding stopped, as that leaves it, and the
others as they were. -/
inductive Stops : Value → Cursor → Value → Fault → Cursor → Prop
  | whole {v : Value} {c c' : Cursor} {f : Fault} (hv : v.Whole)
      (h : decode ⟨v, c⟩ = .error f ⟨v, c'⟩) : Stops v c v f c'
  | part {what : Counted} {g : List Value → Value} {before done after : List Value}
      {v w : Value} {c c₁ c₂ : Cursor} {f : Fault} (hg : Value.Aggregate what g)
      (hb : DecodedEach before c done c₁) (hs : Stops v c₁ w f c₂) :
      Stops (g (before ++ v :: after)) c (g (done ++ w :: after)) f c₂

theorem Stops.of_whole {v w : Value} {c c' : Cursor} {f : Fault} (hs : v.Sound) (hv : v.Whole)
    (h : decode ⟨v, c⟩ = .error f ⟨w, c'⟩) : Stops v c w f c' := by
  have hwritten := h
  rw [decode_eq hs, settle_whole v hv] at hwritten
  have hkept : w = v := read_write_error hwritten
  subst hkept
  exact .whole hv h

/-- Where the decoding of a list of parts stops there is a first part that fails. -/
theorem refillAll_stops {vs ws : List Value} {c c' : Cursor} {f : Fault}
    (hs : ∀ v ∈ vs, v.Sound) (h : Value.refillAll vs c = ⟨ws, some f, c'⟩) :
    ∃ before v after done w c₁, vs = before ++ v :: after ∧ ws = done ++ w :: after ∧
      DecodedEach before c done c₁ ∧ decode ⟨v, c₁⟩ = .error f ⟨w, c'⟩ := by
  induction vs generalizing ws c with
  | nil => cases h
  | cons v vs ih =>
    obtain ⟨hv, hvs⟩ := List.forall_mem_cons.mp hs
    obtain ⟨w, fault, c₁, hr⟩ : ∃ w fault c₁, v.refill c = ⟨w, fault, c₁⟩ := ⟨_, _, _, rfl⟩
    have hdecode := decode_eq hv c
    rw [hr] at hdecode
    rw [Value.refillAll, hr] at h
    cases fault with
    | some g =>
      cases h
      exact ⟨[], v, vs, [], w, c, rfl, rfl, .nil c, hdecode⟩
    | none =>
      injection h with hws hfault hc
      have hrest : Value.refillAll vs c₁ = ⟨(Value.refillAll vs c₁).value, some f, c'⟩ := by
        rw [← hfault, ← hc]
      obtain ⟨before, u, after, done, x, c₂, rfl, hx, hb, hu⟩ := ih hvs hrest
      refine ⟨v :: before, u, after, w :: done, x, c₂, rfl, ?_, .cons hdecode hb, hu⟩
      rw [← hws, hx]
      rfl

theorem refillAll_of_stops {before done after : List Value} {v w : Value} {c c₁ c₂ : Cursor}
    {f : Fault} (hs : ∀ u ∈ before, u.Sound) (hv : v.Sound) (hb : DecodedEach before c done c₁)
    (h : decode ⟨v, c₁⟩ = .error f ⟨w, c₂⟩) :
    Value.refillAll (before ++ v :: after) c = ⟨done ++ w :: after, some f, c₂⟩ := by
  induction hb with
  | nil c =>
    rw [decode_eq hv, settle_eq_error] at h
    simp only [List.nil_append, Value.refillAll, h]
  | cons hu _ ih =>
    obtain ⟨hfirst, hrest⟩ := List.forall_mem_cons.mp hs
    rw [decode_eq hfirst, settle_eq_ok] at hu
    simp only [List.cons_append, Value.refillAll, hu, ih hrest h]

theorem Stops.of_parts {what : Counted} {g : List Value → Value} {parts : List Value} {w : Value}
    {c c' : Cursor} {f : Fault} (hg : Value.Aggregate what g) (hs : ∀ v ∈ parts, v.Sound)
    (ih : ∀ v ∈ parts, ∀ w c c', decode ⟨v, c⟩ = .error f ⟨w, c'⟩ → Stops v c w f c')
    (h : decodeParts g parts ⟨g parts, c⟩ = .error f ⟨w, c'⟩) : Stops (g parts) c w f c' := by
  obtain ⟨left, hleft, rfl⟩ := decodeParts_eq_error.mp h
  obtain ⟨before, v, after, done, u, c₁, rfl, rfl, hb, hv⟩ := refillAll_stops hs hleft
  exact .part hg hb (ih v (by simp) u c₁ c' hv)

theorem Stops.of_decode {v w : Value} {c c' : Cursor} {f : Fault} (hv : v.Sound)
    (h : decode ⟨v, c⟩ = .error f ⟨w, c'⟩) : Stops v c w f c' := by
  induction hv generalizing w c c' with
  | bool b => exact .of_whole (.bool b) trivial h
  | text s => exact .of_whole (.text s) trivial h
  | word n => exact .of_whole (.word n) trivial h
  | varint n => exact .of_whole (.varint n) trivial h
  | vector ht hb hi hsh => exact .of_whole (.vector ht hb hi hsh) trivial h
  | enum hc hvs hb hv hp hsh => exact .of_whole (.enum hc hvs hb hv hp hsh) trivial h
  | @array t n parts _ _ _ hs _ _ ih =>
    exact .of_parts (.array t n) hs (fun v hm w c c' => ih v hm) h
  | struct hs ih => exact .of_parts .struct hs (fun v hm w c c' => ih v hm) h
  | tuple hs ih => exact .of_parts .tuple hs (fun v hm w c c' => ih v hm) h

theorem Stops.decode_eq {v w : Value} {c c' : Cursor} {f : Fault} (h : Stops v c w f c')
    (hv : v.Sound) : decode ⟨v, c⟩ = .error f ⟨w, c'⟩ := by
  induction h with
  | whole _ h => exact h
  | @part what g before done after v w c c₁ c₂ f hg hb _ ih =>
    have hparts : (g (before ++ v :: after)).parts = before ++ v :: after := by cases hg <;> rfl
    have hsound : ∀ u ∈ before ++ v :: after, u.Sound := fun u hu => hv.part (by rwa [hparts])
    have hdecode : decode ⟨g (before ++ v :: after), c⟩ =
        decodeParts g (before ++ v :: after) ⟨g (before ++ v :: after), c⟩ := by cases hg <;> rfl
    have hv' : v.Sound := hsound v (by simp)
    have hbefore : ∀ u ∈ before, u.Sound := fun u hu => hsound u (List.mem_append_left _ hu)
    rw [hdecode]
    exact decodeParts_eq_error.mpr ⟨_, refillAll_of_stops hbefore hv' hb (ih hv'), rfl⟩

/-- An operation that is refused leaves the value as it was, and so does a decoding that fails into
a value that is read aside. In an array, a struct or a tuple a failed decoding has decoded the parts
before the one where it stopped, has gone that far in this one, and has not touched the others. -/
theorem Value.Built.failure_keeps {v : Value} (hv : v.Built) (c : Cursor) :
    (∀ item f p,
      InPlace.push item ⟨v, c⟩ = .error f p ↔ v.push item = .error f ∧ p = ⟨v, c⟩) ∧
    (∀ index item f p,
      InPlace.set index item ⟨v, c⟩ = .error f p ↔ v.set index item = .error f ∧ p = ⟨v, c⟩) ∧
    (∀ tag payload f p,
      InPlace.select tag payload ⟨v, c⟩ = .error f p ↔
        v.select tag payload = .error f ∧ p = ⟨v, c⟩) ∧
    ∀ f w c', (decode ⟨v, c⟩ = .error f ⟨w, c'⟩ ↔ v.refill c = ⟨w, some f, c'⟩) ∧
      (decode ⟨v, c⟩ = .error f ⟨w, c'⟩ ↔ Stops v c w f c') ∧
      (v.Whole → decode ⟨v, c⟩ = .error f ⟨w, c'⟩ → w = v) := by
  refine ⟨fun item f p => ?_, fun index item f p => ?_, fun tag payload f p => ?_,
    fun f w c' => ⟨?_, ?_, fun hwhole h => ?_⟩⟩
  · rw [push_eq, require_write]
  · rw [set_eq, require_write]
  · rw [select_eq, require_write]
  · rw [decode_eq hv.sound, settle_eq_error]
  · exact ⟨Stops.of_decode hv.sound, fun h => h.decode_eq hv.sound⟩
  · cases Stops.of_decode hv.sound h with
    | whole => rfl
    | part hg => cases hg <;> cases hwhole

def nestedFlags : Value := .tuple [.bool true, .tuple [.bool false, .bool false], .bool true]

/-- The third byte is no truth value: two parts are decoded by then, one of them inside another. -/
theorem failure_keeps_flags :
    let c := Cursor.start [0, 1, 7] .unbounded
    let left := Value.tuple [.bool false, .tuple [.bool true, .bool false], .bool true]
    Stops nestedFlags c left (.invalidBool 7) ⟨[], 3, 0, .unbounded⟩ ∧
      push (.bool true) ⟨nestedFlags, c⟩ =
        .error (.typeMismatch "vec" "(bool, (bool, bool), bool)") ⟨nestedFlags, c⟩ := by
  intro c left
  have hinner : ∀ a b : Bool, Value.Built (.tuple [.bool a, .bool b]) := by
    intro a b
    refine .tuple ?_
    simp only [List.mem_cons, List.not_mem_nil, or_false, forall_eq_or_imp, forall_eq]
    exact ⟨.bool a, .bool b⟩
  have hbuilt : nestedFlags.Built := by
    refine .tuple ?_
    simp only [List.mem_cons, List.not_mem_nil, or_false, forall_eq_or_imp, forall_eq]
    exact ⟨.bool true, hinner false false, .bool true⟩
  obtain ⟨hpush, _, _, hdecode⟩ := hbuilt.failure_keeps c
  obtain ⟨hrefill, hstops, _⟩ := hdecode (.invalidBool 7) left ⟨[], 3, 0, .unbounded⟩
  exact ⟨hstops.mp (hrefill.mpr rfl), (hpush _ _ _).mpr ⟨rfl, rfl⟩⟩

end CallWire
