import Mathlib.Data.List.Basic

/-!
# Select, sort, cut

A query over a list of rows: the rows that meet a predicate, in an order
that a relation allows, cut to a limit. Rows that the relation does not
separate may come in any order, so that an answer is a relation between the
rows and the answer, not a function. Cut to one row, an answer is a first
one.
-/

namespace Query

variable {α : Type*}

/-- The first rows, all of them where there is no limit. -/
def cut : Option Nat → List α → List α
  | none, rows => rows
  | some n, rows => rows.take n

/-- `out` answers the query on `rows`. -/
def Answers (sel : α → Prop) [DecidablePred sel] (le : α → α → Prop) (limit : Option Nat)
    (rows out : List α) : Prop :=
  ∃ sorted : List α, sorted.Perm (rows.filter (fun a => decide (sel a))) ∧
    sorted.Pairwise le ∧ out = cut limit sorted

/-- One answer, by a stable sort. -/
def answer (sel : α → Prop) [DecidablePred sel] (le : α → α → Bool) (limit : Option Nat)
    (rows : List α) : List α :=
  cut limit ((rows.filter (fun a => decide (sel a))).mergeSort le)

theorem answers_answer (sel : α → Prop) [DecidablePred sel] {le : α → α → Bool}
    (limit : Option Nat) (rows : List α)
    (trans : ∀ a b c, le a b = true → le b c = true → le a c = true)
    (total : ∀ a b, (le a b || le b a) = true) :
    Answers sel (fun a b => le a b = true) limit rows (answer sel le limit rows) :=
  ⟨_, List.mergeSort_perm _ le, List.pairwise_mergeSort trans total _, rfl⟩

/-- The rows may be listed in any order. -/
theorem Answers.of_perm {sel : α → Prop} [DecidablePred sel] {le : α → α → Prop}
    {limit : Option Nat} {rows rows' out : List α} (hperm : rows.Perm rows')
    (h : Answers sel le limit rows out) : Answers sel le limit rows' out := by
  obtain ⟨sorted, hsorted, hle, hout⟩ := h
  exact ⟨sorted, hsorted.trans (hperm.filter _), hle, hout⟩

/-- **An answer cut to one row** is empty where no row is selected, and
else a selected row that no selected row comes before. -/
theorem Answers.first {sel : α → Prop} [DecidablePred sel] {le : α → α → Prop}
    (refl : ∀ a, le a a) {rows out : List α} (h : Answers sel le (some 1) rows out) :
    (out = [] ∧ ∀ a ∈ rows, ¬ sel a) ∨
      ∃ a ∈ rows, out = [a] ∧ sel a ∧ ∀ b ∈ rows, sel b → le a b := by
  obtain ⟨sorted, hperm, hle, rfl⟩ := h
  have hmem : ∀ a, a ∈ sorted ↔ a ∈ rows ∧ sel a := by
    intro a
    rw [hperm.mem_iff, List.mem_filter, decide_eq_true_iff]
  cases sorted with
  | nil =>
    refine Or.inl ⟨rfl, fun a ha hsel => ?_⟩
    exact absurd ((hmem a).mpr ⟨ha, hsel⟩) List.not_mem_nil
  | cons a rest =>
    obtain ⟨ha, hsel⟩ := (hmem a).mp List.mem_cons_self
    refine Or.inr ⟨a, ha, rfl, hsel, fun b hb hselb => ?_⟩
    rcases List.mem_cons.mp ((hmem b).mpr ⟨hb, hselb⟩) with rfl | hrest
    · exact refl b
    · exact List.rel_of_pairwise_cons hle hrest

end Query
