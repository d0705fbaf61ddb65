import Mathlib.Algebra.Order.Monoid.Defs
import Etcdv3Client.Lib.Run

/-!
# What a run costs

Each step of a run has a cost, and the account of the run is its potential:
what the state still has in hand. A step pays its cost out of the potential,
or out of what the environment grants it for that step. Then what the run
has cost and the potential that is left are never more than what it had at
the start and was granted since.
-/

namespace Transition

variable {σ ι α : Type*}

section
variable [AddCommMonoid α]

/-- The cost of the steps of a history. -/
def total (cost : σ → ι → α) : History σ ι → α
  | [] => 0
  | (s, l) :: h => cost s l + total cost h

theorem total_cons (cost : σ → ι → α) (s : σ) (l : ι) (h : History σ ι) :
    total cost ((s, l) :: h) = cost s l + total cost h := rfl

end

section
variable [AddCommMonoid α] [PartialOrder α] [IsOrderedAddMonoid α]
variable {step : σ → ι → Option σ} {init : σ → Prop}

/-- **Paid out of the potential.** Where every step that meets `C` pays its
cost out of the potential and what it is granted, the whole run does. -/
theorem Run.total_le (cost grant : σ → ι → α) (Φ : History σ ι → σ → α) (k : α)
    {C : History σ ι → σ → ι → Prop} (h0 : ∀ s, init s → Φ [] s ≤ k)
    (hstep : ∀ {h : History σ ι} {s s' : σ} {l : ι}, Run step init h s → Along C h → C h s l →
      step s l = some s' → cost s l + Φ ((s, l) :: h) s' ≤ Φ h s + grant s l)
    {h : History σ ι} {s : σ} (hr : Run step init h s) (hc : Along C h) :
    total cost h + Φ h s ≤ k + total grant h := by
  induction hr with
  | start hs =>
    show 0 + _ ≤ k + 0
    rw [zero_add, add_zero]
    exact h0 _ hs
  | @next h s s' l hr hs ih =>
    calc cost s l + total cost h + Φ ((s, l) :: h) s'
        = total cost h + (cost s l + Φ ((s, l) :: h) s') := by
          rw [add_comm (cost s l), add_assoc]
      _ ≤ total cost h + (Φ h s + grant s l) :=
          add_le_add_right (hstep hr hc.1 hc.2 hs) _
      _ = (total cost h + Φ h s) + grant s l := (add_assoc _ _ _).symm
      _ ≤ (k + total grant h) + grant s l := add_le_add_left (ih hc.1) _
      _ = k + total grant ((s, l) :: h) := by
          rw [total_cons, add_assoc, add_comm (grant s l)]

end

end Transition
