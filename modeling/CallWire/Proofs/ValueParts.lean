import CallWire.Proofs.ValueBuilt

namespace CallWire

namespace Value

/-- The kinds of value that are replaced part by part: what makes such a value of its parts, and
what a place among them is reported as. -/
inductive Aggregate : Counted → (List Value → Value) → Prop
  | array (t : Value) (n : Nat) : Aggregate .arrayIndex (array t n)
  | struct : Aggregate .structFields struct
  | tuple : Aggregate .tupleFields tuple

/-- An item has the shape that a place in a value asks for. A struct or a tuple asks for nothing at
a place it does not have, an array always for the shape of its element. -/
def FitsAt (item : Value) (index : Nat) : Value → Prop
  | array t _ _ => item.sameShape t = true
  | struct fields => ∀ old, fields[index]? = some old → item.sameShape old = true
  | tuple fields => ∀ old, fields[index]? = some old → item.sameShape old = true
  | _ => False

variable {what : Counted} {g : List Value → Value} {items : List Value} {index : Nat}
  {item : Value}

theorem setField_of_lt (h : index < items.length)
    (hfit : ∀ old, items[index]? = some old → item.sameShape old = true) :
    setField what items index item = .ok (items.set index item) := by
  have hold := List.getElem?_eq_getElem h
  have hshape : item.requireShape items[index] = .ok () := requireShape_eq_ok.mpr (hfit _ hold)
  unfold setField
  simp only [hold]
  exact bind_eq_ok.mpr ⟨(), hshape, rfl⟩

theorem setField_of_le (h : items.length ≤ index) : setField what items index item =
    .error (.arityMismatch what items.length (Count.next index)) := by
  unfold setField
  simp only [List.getElem?_eq_none h]

/-- A place that is there takes an item of its shape. -/
theorem Aggregate.set_of_lt (hg : Aggregate what g) (hfit : item.FitsAt index (g items))
    (h : index < items.length) : (g items).set index item = .ok (g (items.set index item)) := by
  cases hg with
  | array t n =>
    refine bind_eq_ok.mpr ⟨(), requireShape_eq_ok.mpr hfit, ?_⟩
    rw [if_pos h]
    rfl
  | struct => exact map_eq_ok.mpr ⟨_, setField_of_lt h hfit, rfl⟩
  | tuple => exact map_eq_ok.mpr ⟨_, setField_of_lt h hfit, rfl⟩

/-- A place beyond the parts is refused with the number of the parts, which an array declares. -/
theorem Aggregate.set_of_le (hg : Aggregate what g) (hv : Built (g items))
    (hfit : item.FitsAt index (g items)) (h : items.length ≤ index) :
    (g items).set index item =
      .error (.arityMismatch what items.length (Count.next index)) := by
  cases hg with
  | array t n =>
    cases hv.sound with
    | array _ _ hlength =>
      subst hlength
      refine bind_eq_error.mpr (.inr ⟨(), requireShape_eq_ok.mpr hfit, ?_⟩)
      rw [if_neg (Nat.not_lt.mpr h)]
      rfl
  | struct => exact map_eq_error.mpr (setField_of_le h)
  | tuple => exact map_eq_error.mpr (setField_of_le h)

/-- To set a place replaces the part there and no other. A place beyond the parts is refused, and
counted as one more than its index, except for the last index of all, whose count starts over. -/
theorem Built.set_by_place (hg : Aggregate what g) (hv : Built (g items))
    (hfit : item.FitsAt index (g items)) (hi : index ≤ Count.max) :
    (index < items.length → ∃ others, (g items).set index item = .ok (g others) ∧
      others.length = items.length ∧ others[index]? = some item ∧
      ∀ place, place ≠ index → others[place]? = items[place]?) ∧
    (items.length ≤ index → ∃ found,
      (g items).set index item = .error (.arityMismatch what items.length found) ∧
      (items.length < found ↔ index ≠ Count.max) ∧
      found = if index = Count.max then 0 else index + 1) := by
  refine ⟨fun h => ⟨items.set index item, hg.set_of_lt hfit h, List.length_set, ?_, ?_⟩,
    fun h => ⟨Count.next index, hg.set_of_le hv hfit h, ?_⟩⟩
  · exact List.getElem?_set_self h
  · exact fun place hne => List.getElem?_set_ne hne.symm
  · by_cases hmax : index = Count.max
    · rw [if_pos hmax, hmax, Count.next_max]
      simp
    · rw [if_neg hmax, Count.next_of_lt (Nat.lt_of_le_of_ne hi hmax)]
      exact ⟨⟨fun _ => hmax, fun _ => Nat.lt_succ_of_le h⟩, rfl⟩

def samplePair : Value := .tuple [.bool true, .text "a"]

theorem built_samplePair : Built samplePair := by
  refine .tuple ?_
  simp only [List.mem_cons, List.not_mem_nil, or_false, forall_eq_or_imp, forall_eq]
  exact ⟨.bool true, .text "a"⟩

theorem set_by_place_pair :
    (∃ others, samplePair.set 1 (.text "b") = .ok (.tuple others) ∧
      others[0]? = some (.bool true) ∧ others[1]? = some (.text "b")) ∧
    samplePair.set 2 (.text "b") = .error (.arityMismatch .tupleFields 2 3) := by
  have hfirst : (Value.text "b").FitsAt 1 samplePair := by
    intro old hold
    cases (show Value.text "a" = old by simpa using hold)
    rfl
  have hbeyond : (Value.text "b").FitsAt 2 samplePair := by
    intro old hold
    simp at hold
  obtain ⟨hset, _⟩ := Built.set_by_place .tuple built_samplePair hfirst (by decide)
  obtain ⟨_, hrefused⟩ := Built.set_by_place .tuple built_samplePair hbeyond (by decide)
  obtain ⟨others, hok, _, hitem, hothers⟩ := hset (by decide)
  obtain ⟨found, herror, _, hfound⟩ := hrefused (by decide)
  have hthree : found = 3 := by
    rw [hfound]
    decide
  exact ⟨⟨others, hok, hothers 0 (by decide), hitem⟩, hthree ▸ herror⟩

/-- The last index of all is reported as place 0, which is not beyond any parts. -/
theorem set_by_place_wraps : ¬ ∀ (what : Counted) (g : List Value → Value) (items : List Value)
    (index : Nat) (item : Value), Aggregate what g → Built (g items) →
      item.FitsAt index (g items) → index ≤ Count.max →
      (index < items.length ∧ (g items).set index item = .ok (g (items.set index item))) ∨
      ∃ found, (g items).set index item = .error (.arityMismatch what items.length found) ∧
        items.length < found := by
  intro h
  have hfit : (Value.bool false).FitsAt Count.max (.tuple [.bool true]) := by
    intro old hold
    simp [Count.max] at hold
  have hbuilt : Built (.tuple [.bool true]) := .tuple (by simpa using Built.bool true)
  have hreport : (Value.tuple [.bool true]).set Count.max (.bool false) =
      .error (.arityMismatch .tupleFields 1 0) := rfl
  rcases h _ _ [.bool true] Count.max (.bool false) .tuple hbuilt hfit (Nat.le_refl _) with
    ⟨hlt, _⟩ | ⟨found, herror, hlt⟩
  · exact absurd hlt (by decide)
  · cases hreport.symm.trans herror
    exact absurd hlt (by decide)

end Value

end CallWire
