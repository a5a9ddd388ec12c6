import CallWire.Proofs.ValueReads
import CallWire.Proofs.ValueRuns

namespace CallWire

/-- Two decodings in place stop at the same place, over the same fault if over any, and find the same
value if none stopped them. -/
structure Refill.Agrees {α : Type} (r s : Refill α) : Prop where
  fault : r.fault = s.fault
  cursor : r.cursor = s.cursor
  value : r.fault = none → r.value = s.value

namespace Value

theorem Sound.refill_agrees {v w : Value} (hv : Sound v) (hw : Sound w)
    (h : v.sameShape w = true) (c : Cursor) : (v.refill c).Agrees (w.refill c) := by
  have hscan : scan v = scan w := scan_eq_of_sameShape hv hw h
  rcases hv.refill_as_scan c with ⟨u, c', hs, hr⟩ | ⟨u, f, c', hs, hr⟩
  · rw [hscan] at hs
    rw [hr, hw.refill_of_scan hs]
    exact ⟨rfl, rfl, fun _ => rfl⟩
  · rcases hw.refill_as_scan c with ⟨x, d, hs', hr'⟩ | ⟨x, g, d, hs', hr'⟩
    · rw [hscan, hs'] at hs
      cases hs
    · rw [hscan, hs'] at hs
      cases hs
      rw [hr, hr']
      exact ⟨rfl, rfl, nofun⟩

/-- What decoding into a value does and finds depends on the shape of the value and on nothing that
the value holds, whatever was done to it before. -/
theorem Built.refill_agrees_of_sameShape {v w : Value} (hv : Built v) (hw : Built w)
    (h : v.sameShape w = true) (c : Cursor) :
    (v.refill c).Agrees (w.refill c) ∧ (v.refill c).Agrees (v.blank.refill c) ∧
    ∀ changes : List Change, (∀ change ∈ changes, ∀ a ∈ change.arguments, Built a) →
      ((Change.run changes v).refill c).Agrees (v.blank.refill c) := by
  refine ⟨hv.sound.refill_agrees hw.sound h c,
    hv.sound.refill_agrees hv.blank.sound v.sameShape_blank c, fun changes ha => ?_⟩
  obtain ⟨hrun, hkept⟩ := hv.run ha
  have hshape : (Change.run changes v).sameShape v.blank = true :=
    sameShape_of_blank_eq (hkept.trans (blank_blank v).symm)
  exact hrun.sound.refill_agrees hv.blank.sound hshape c

/-- A tuple of which the first field was decoded before the second stopped the decoding. -/
theorem refill_agrees_halfway :
    let v := Value.tuple [sampleVector, .bool true]
    let halfway := (v.refill (.start [4, 0, 7] .unbounded)).value
    halfway = .tuple [.vector sampleEnum [sampleEnum], .bool true] ∧
      (halfway.refill (.start [0, 1] .unbounded)).Agrees
        ⟨.tuple [.vector sampleEnum [], .bool true], none, ⟨[], 2, 0, .unbounded⟩⟩ ∧
      (halfway.refill (.start [0, 9] .unbounded)).fault = some (.invalidBool 9) := by
  intro v halfway
  have hbuilt : Built v := by
    refine .tuple ?_
    simp only [List.mem_cons, List.not_mem_nil, or_false, forall_eq_or_imp, forall_eq]
    exact ⟨built_sampleVector, .bool true⟩
  have hhalfway : Built halfway := .refill hbuilt _
  have hshape : halfway.sameShape v = true := by decide
  have hread := (hhalfway.refill_agrees_of_sameShape hbuilt hshape (.start [0, 1] .unbounded)).1
  have hrefused := (hhalfway.refill_agrees_of_sameShape hbuilt hshape (.start [0, 9] .unbounded)).1
  exact ⟨rfl, hread, hrefused.fault⟩

end Value

end CallWire
