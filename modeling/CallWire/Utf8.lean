import CallWire.Bytes

namespace CallWire

/-- Where bytes stop being UTF-8: the index of the first sequence that is not well formed, and the
length of its longest start that could have been continued, absent when the bytes end inside it. -/
structure Utf8Fault where
  index : Nat
  length : Option Nat
  deriving DecidableEq, Repr

namespace Utf8Fault

def message : Utf8Fault → String
  | ⟨index, some length⟩ => s!"invalid utf-8 sequence of {length} bytes from index {index}"
  | ⟨index, none⟩ => s!"incomplete utf-8 byte sequence from index {index}"

end Utf8Fault

namespace Utf8

/-- The bytes still owed inside a sequence, and the range of the next one. -/
structure Owed where
  count : Nat
  low : UInt8
  high : UInt8

/-- What a leading byte owes; nothing owes more than three bytes, and a byte that starts no
well-formed sequence has no answer. -/
def owed (b : UInt8) : Option Owed :=
  if b ≤ 0x7F then some ⟨0, 0x80, 0xBF⟩
  else if b < 0xC2 then none
  else if b ≤ 0xDF then some ⟨1, 0x80, 0xBF⟩
  else if b = 0xE0 then some ⟨2, 0xA0, 0xBF⟩
  else if b = 0xED then some ⟨2, 0x80, 0x9F⟩
  else if b ≤ 0xEF then some ⟨2, 0x80, 0xBF⟩
  else if b = 0xF0 then some ⟨3, 0x90, 0xBF⟩
  else if b ≤ 0xF3 then some ⟨3, 0x80, 0xBF⟩
  else if b = 0xF4 then some ⟨3, 0x80, 0x8F⟩
  else none

/-- Reads on from a sequence that starts at `index` and of which `seen` bytes are read. -/
def faultFrom (index seen : Nat) : Owed → Bytes → Option Utf8Fault
  | ⟨0, _, _⟩, [] => none
  | ⟨_ + 1, _, _⟩, [] => some ⟨index, none⟩
  | ⟨0, _, _⟩, b :: bs =>
    match owed b with
    | none => some ⟨index + seen, some 1⟩
    | some next => faultFrom (index + seen) 1 next bs
  | ⟨count + 1, low, high⟩, b :: bs =>
    if low ≤ b && b ≤ high then faultFrom index (seen + 1) ⟨count, 0x80, 0xBF⟩ bs
    else some ⟨index, some seen⟩

def fault? (bs : Bytes) : Option Utf8Fault := faultFrom 0 0 ⟨0, 0x80, 0xBF⟩ bs

def encode (s : String) : Bytes := s.toUTF8.data.toList

def decode (bs : Bytes) : Except Utf8Fault String :=
  match String.fromUTF8? ⟨bs.toArray⟩ with
  | some s => .ok s
  | none => .error ((fault? bs).getD ⟨0, none⟩)

theorem decode_encode (s : String) : decode (encode s) = .ok s := by
  have h : String.fromUTF8? ⟨(encode s).toArray⟩ = some s := by
    simp [encode, String.fromUTF8?, s.isValidUTF8, String.fromUTF8]
  simp [decode, h]

theorem encode_of_decode {bs : Bytes} {s : String} (h : decode bs = .ok s) : encode s = bs := by
  unfold decode at h
  split at h
  next t ht =>
    cases Except.ok.inj h
    unfold String.fromUTF8? at ht
    split at ht
    next => cases Option.some.inj ht; simp [encode, String.fromUTF8]
    next => simp at ht
  next => simp at h

end Utf8

end CallWire
