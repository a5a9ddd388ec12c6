import CallWire.Numeral
import Mathlib.Data.List.TakeWhile

namespace CallWire

namespace Blank

variable {cs core lead trail : List Char}

/-- A text is its core with white space before and after, and the core has none at either end. -/
structure Trims (cs core : List Char) : Prop where
  split : ∃ lead trail, (∀ c ∈ lead, isBlank c = true) ∧ (∀ c ∈ trail, isBlank c = true) ∧
    cs = lead ++ core ++ trail
  head : ∀ c, core.head? = some c → isBlank c = false
  last : ∀ c, core.getLast? = some c → isBlank c = false

theorem head_trimStart (cs : List Char) :
    ∀ c, (trimStart cs).head? = some c → isBlank c = false := by
  intro c hc
  have h := List.head?_dropWhile_not isBlank cs
  rw [trimStart] at hc
  rw [hc] at h
  simpa using h

theorem trimStart_split (cs : List Char) :
    ∃ lead, (∀ c ∈ lead, isBlank c = true) ∧ cs = lead ++ trimStart cs :=
  ⟨cs.takeWhile isBlank, fun _ => List.mem_takeWhile_imp, List.takeWhile_append_dropWhile.symm⟩

theorem trimStart_of_head (h : ∀ c, core.head? = some c → isBlank c = false) :
    trimStart core = core := by
  cases core with
  | nil => rfl
  | cons c core =>
    have hc : isBlank c = false := h c rfl
    exact List.dropWhile_cons_of_neg (by simp [hc])

theorem trims_trim (cs : List Char) : Trims cs (trim cs) := by
  obtain ⟨lead, hlead, hcs⟩ := trimStart_split cs
  obtain ⟨back, hback, hrest⟩ := trimStart_split (trimStart cs).reverse
  have hstart : trimStart cs = trim cs ++ back.reverse := by
    have h := congrArg List.reverse hrest
    rwa [List.reverse_reverse, List.reverse_append] at h
  refine ⟨⟨lead, back.reverse, hlead, by simpa using hback, ?_⟩, ?_, ?_⟩
  · rw [List.append_assoc, ← hstart]
    exact hcs
  · intro c hc
    apply head_trimStart cs c
    rw [hstart, List.head?_append, hc]
    rfl
  · intro c hc
    rw [trim, List.getLast?_reverse] at hc
    exact head_trimStart _ c hc

theorem Trims.trim_eq (h : Trims cs core) : trim cs = core := by
  obtain ⟨lead, trail, hlead, htrail, rfl⟩ := h.split
  have hstart : trimStart (lead ++ core ++ trail) = trimStart (core ++ trail) := by
    rw [List.append_assoc]
    exact List.dropWhile_append_of_pos hlead
  have hback : trimStart (trail.reverse ++ core.reverse) = core.reverse := by
    have hpass : trimStart (trail.reverse ++ core.reverse) = trimStart core.reverse :=
      List.dropWhile_append_of_pos (by simpa using htrail)
    rw [hpass]
    exact trimStart_of_head (by simpa using h.last)
  rw [trim, hstart]
  cases core with
  | nil =>
    have hall : trimStart trail = [] := List.dropWhile_eq_nil_iff.mpr htrail
    rw [List.nil_append, hall]
    rfl
  | cons c core =>
    have hself : trimStart (c :: core ++ trail) = c :: core ++ trail := trimStart_of_head h.head
    rw [hself, List.reverse_append, hback, List.reverse_reverse]

/-- Trimming finds the core of a text, which is the only one. -/
theorem trim_eq_iff : trim cs = core ↔ Trims cs core := by
  constructor
  · rintro rfl
    exact trims_trim cs
  · exact Trims.trim_eq

theorem trims_append (hlead : ∀ c ∈ lead, isBlank c = true)
    (htrail : ∀ c ∈ trail, isBlank c = true) (h : ∀ c ∈ cs, isBlank c = false) :
    Trims (lead ++ cs ++ trail) cs :=
  ⟨⟨lead, trail, hlead, htrail, rfl⟩, fun c hc => h c (List.mem_of_head? hc),
    fun c hc => h c (List.mem_of_getLast? hc)⟩

theorem trim_append (hlead : ∀ c ∈ lead, isBlank c = true) (htrail : ∀ c ∈ trail, isBlank c = true)
    (h : ∀ c ∈ cs, isBlank c = false) : trim (lead ++ cs ++ trail) = cs :=
  (trims_append hlead htrail h).trim_eq

theorem trim_eq_self (h : ∀ c ∈ cs, isBlank c = false) : trim cs = cs := by
  have htrims : Trims ([] ++ cs ++ []) cs := trims_append nofun nofun h
  rw [List.nil_append, List.append_nil] at htrims
  exact htrims.trim_eq

end Blank

end CallWire
