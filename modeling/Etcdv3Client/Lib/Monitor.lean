import Etcdv3Client.Lib.Run

/-!
# Monitors

A monitor is a partial machine that reads what a run does, one event after
the other, and has no next state where the event breaks its rule. A run is
accepted where the monitor gets through it. A machine whose every step does
what the monitor allows, in the state that belongs to where the machine is,
is accepted in all its runs.
-/

namespace Transition

variable {σ ι μ ε : Type*}

/-- The monitor after some events, oldest first. -/
def reads (δ : μ → ε → Option μ) : μ → List ε → Option μ
  | m, [] => some m
  | m, e :: es => (δ m e).bind fun m' => reads δ m' es

theorem reads_append (δ : μ → ε → Option μ) (m : μ) (es es' : List ε) :
    reads δ m (es ++ es') = (reads δ m es).bind fun m' => reads δ m' es' := by
  induction es generalizing m with
  | nil => rfl
  | cons e es ih =>
    show (δ m e).bind _ = ((δ m e).bind _).bind _
    cases δ m e with
    | none => rfl
    | some m' => exact ih m'

/-- **What a monitor keeps in step.** Where each event changes the measure of
the monitor by what it counts for, the two kinds of events are as many as
the measure has changed by. -/
theorem reads_countP {δ : μ → ε → Option μ} {p q : ε → Bool} {v : μ → ℕ}
    (hstep : ∀ {m m' : μ} {e : ε}, δ m e = some m' →
      (if p e then 1 else 0) + v m = (if q e then 1 else 0) + v m')
    {m m' : μ} {es : List ε} (h : reads δ m es = some m') :
    es.countP p + v m = es.countP q + v m' := by
  induction es generalizing m with
  | nil =>
    cases h
    rfl
  | cons e es ih =>
    obtain ⟨m₁, hnext, hrest⟩ := Option.bind_eq_some_iff.mp h
    have hone := hstep hnext
    have hes := ih hrest
    rw [List.countP_cons, List.countP_cons]
    omega

/-- The events of a history, oldest first. -/
def eventsOf (events : σ → ι → List ε) : History σ ι → List ε
  | [] => []
  | (s, l) :: h => eventsOf events h ++ events s l

variable {step : σ → ι → Option σ} {init : σ → Prop}

/-- **Every run is accepted**, and the monitor ends in the state that
belongs to where the run does. -/
theorem Run.monitored {δ : μ → ε → Option μ} {events : σ → ι → List ε} {m₀ : μ} (place : σ → μ)
    (h0 : ∀ s, init s → place s = m₀)
    (hstep : ∀ {h : History σ ι} {s s' : σ} {l : ι}, Run step init h s → step s l = some s' →
      reads δ (place s) (events s l) = some (place s'))
    {h : History σ ι} {s : σ} (hr : Run step init h s) :
    reads δ m₀ (eventsOf events h) = some (place s) := by
  induction hr with
  | start hs =>
    show some m₀ = _
    rw [h0 _ hs]
  | next hr hs ih =>
    rw [eventsOf, reads_append, ih]
    exact hstep hr hs

end Transition
