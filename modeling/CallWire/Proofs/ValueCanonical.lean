import CallWire.Proofs.ValueBuilt

namespace CallWire

namespace Value

theorem encode_of_scan {t v : Value} {c c' : Cursor} (ht : Sound t) (h : scan t c = .ok v c') :
    ∃ bytes, v.encode = .ok bytes ∧ c.rest = bytes ++ c'.rest ∧
      c'.position = c.position + bytes.length := by
  obtain ⟨bytes, ⟨_, _, he⟩, hr, hp⟩ := scan_spells ht _ _ _ h
  exact ⟨bytes, he, hr, hp⟩

/-- A decoding that succeeds, within whatever limits, has read the encoding of what it found, so
that a value is read to the end of the input from one input only. -/
theorem Built.encode_of_refill {t v : Value} {c c' : Cursor} (ht : Built t)
    (h : t.refill c = ⟨v, none, c'⟩) :
    (∃ bytes, v.encode = .ok bytes ∧ c.rest = bytes ++ c'.rest ∧
      c'.position = c.position + bytes.length) ∧
    ∀ (u : Value) (d d' : Cursor), Built u → u.refill d = ⟨v, none, d'⟩ →
      c'.rest = [] → d'.rest = [] → d.rest = c.rest := by
  obtain ⟨bytes, he, hr, hp⟩ := encode_of_scan ht.sound (ht.sound.scan_of_refill h)
  refine ⟨⟨bytes, he, hr, hp⟩, ?_⟩
  intro u d d' hu hd hc' hd'
  obtain ⟨others, he', hr', _⟩ := encode_of_scan hu.sound (hu.sound.scan_of_refill hd)
  have hsame : bytes = others := Except.ok.inj (he.symm.trans he')
  rw [hr, hr', hc', hd', hsame]

theorem encode_of_refill_vector :
    ∃ bytes, sampleVector.encode = .ok bytes ∧ [8, 0, 1, 8, 99] = bytes ++ [99] ∧
      4 = 0 + bytes.length := by
  have h : (newVector sampleEnum).refill (Cursor.start [8, 0, 1, 8, 99] .unbounded) =
      ⟨sampleVector, none, ⟨[99], 4, 2, .unbounded⟩⟩ := rfl
  exact (Built.encode_of_refill (.newVector built_sampleEnum) h).1

end Value

end CallWire
