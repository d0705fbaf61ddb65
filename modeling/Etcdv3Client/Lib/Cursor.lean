import Mathlib.Data.List.Basic

/-!
# Reading a growing log

A log that grows at its end, and a reader that is given its selected entries
in order, in pieces of any size. The reader looks for the first entry of
some kind; it may start again from the beginning. What it finds is the first
in the log, however the pieces fall and the log grows in between; and where
it was given everything and has found none, there is none.
-/

namespace Cursor

variable {α : Type*}

/-- The selected entries after the first `n`. -/
def pending (sel : α → Bool) (log : List α) (n : ℕ) : List α := (log.filter sel).drop n

/-- The first `n` selected entries were given, and none of them is wanted. -/
structure Passed (sel want : α → Bool) (log : List α) (n : ℕ) : Prop where
  le : n ≤ (log.filter sel).length
  unwanted : ∀ a ∈ (log.filter sel).take n, want a = false

variable {sel want : α → Bool} {log : List α} {n : ℕ}

theorem passed_zero (sel want : α → Bool) (log : List α) : Passed sel want log 0 :=
  ⟨Nat.zero_le _, by simp⟩

theorem mem_pending {a : α} (h : a ∈ pending sel log n) : a ∈ log ∧ sel a = true :=
  List.mem_filter.mp (List.mem_of_mem_drop h)

/-- The log grows. -/
theorem Passed.grow (h : Passed sel want log n) (more : List α) :
    Passed sel want (log ++ more) n := by
  have hlen := h.le
  constructor
  · rw [List.filter_append, List.length_append]
    omega
  · intro a ha
    rw [List.filter_append, List.take_append_of_le_length hlen] at ha
    exact h.unwanted a ha

/-- A piece without a wanted entry. -/
theorem Passed.give (h : Passed sel want log n) {piece : List α}
    (hpiece : piece <+: pending sel log n) (hno : ∀ a ∈ piece, want a = false) :
    Passed sel want log (n + piece.length) := by
  obtain ⟨rest, hrest⟩ := hpiece
  have hlen := congrArg List.length hrest
  rw [pending, List.length_append, List.length_drop] at hlen
  constructor
  · have := h.le
    omega
  · intro a ha
    rw [List.take_add, List.mem_append] at ha
    rcases ha with ha | ha
    · exact h.unwanted a ha
    · have htake : ((log.filter sel).drop n).take piece.length = piece := by
        rw [show (log.filter sel).drop n = piece ++ rest from hrest.symm, List.take_left]
      rw [htake] at ha
      exact hno a ha

/-- **What is found is the first in the log.** -/
theorem Passed.find (h : Passed sel want log n) {piece : List α}
    (hpiece : piece <+: pending sel log n) {a : α} (ha : piece.find? want = some a) :
    (log.filter sel).find? want = some a := by
  obtain ⟨rest, hrest⟩ := hpiece
  have hnone : ((log.filter sel).take n).find? want = none := by
    rw [List.find?_eq_none]
    intro b hb
    simp [h.unwanted b hb]
  calc (log.filter sel).find? want
      = ((log.filter sel).take n ++ (piece ++ rest)).find? want := by
        rw [hrest, pending, List.take_append_drop]
    _ = some a := by rw [List.find?_append, List.find?_append, hnone, ha]; rfl

/-- **A wanted entry is still to come**, where the reader has not found it. -/
theorem Passed.mem_pending (h : Passed sel want log n) {a : α} (ha : a ∈ log)
    (hsel : sel a = true) (hwant : want a = true) : a ∈ pending sel log n := by
  have hmem : a ∈ (log.filter sel).take n ++ (log.filter sel).drop n := by
    rw [List.take_append_drop]
    exact List.mem_filter.mpr ⟨ha, hsel⟩
  rcases List.mem_append.mp hmem with hgiven | hcoming
  · have hno := h.unwanted a hgiven
    rw [hwant] at hno
    cases hno
  · exact hcoming

/-- In a log in some order, what is found first comes before all that is
wanted. -/
theorem find?_rel {R : α → α → Prop} (refl : ∀ a, R a a) {l : List α} (hl : l.Pairwise R)
    {a b : α} (ha : l.find? want = some a) (hb : b ∈ l) (hwant : want b = true) : R a b := by
  obtain ⟨-, before, after, rfl, hno⟩ := List.find?_eq_some_iff_append.mp ha
  rcases List.mem_append.mp hb with hbefore | hafter
  · have hnot := hno b hbefore
    rw [hwant] at hnot
    cases hnot
  · rcases List.mem_cons.mp hafter with rfl | hafter
    · exact refl b
    · exact List.rel_of_pairwise_cons (List.pairwise_append.mp hl).2.1 hafter

end Cursor
