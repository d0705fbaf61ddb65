import Mathlib.Logic.Function.Iterate
import Mathlib.Tactic.TypeStar

/-!
# Runs of a labelled machine

A machine is a partial step function `σ → ι → Option σ`: `step s l` is the
state after label `l`, and `none` where `l` cannot happen. A `Run` carries
its own history, newest step first, each step with the state it was taken
in, so that a statement about a run can speak of everything that happened
before. The rules below prove such statements by one step at a time: for
every run, for the runs whose steps meet a condition, and exactly.
-/

namespace Transition

variable {σ ι : Type*}

/-- The steps taken so far, newest first. -/
abbrev History (σ ι : Type*) := List (σ × ι)

/-- `Run step init h s`: a run from an initial state reaches `s` by the
steps of `h`. -/
inductive Run (step : σ → ι → Option σ) (init : σ → Prop) : History σ ι → σ → Prop where
  | start {s : σ} : init s → Run step init [] s
  | next {h : History σ ι} {s s' : σ} {l : ι} :
      Run step init h s → step s l = some s' → Run step init ((s, l) :: h) s'

/-- Every step of the history meets `C`, which may look at the steps
before it. -/
def Along (C : History σ ι → σ → ι → Prop) : History σ ι → Prop
  | [] => True
  | (s, l) :: h => Along C h ∧ C h s l

instance {C : History σ ι → σ → ι → Prop} [∀ h s l, Decidable (C h s l)] :
    ∀ h : History σ ι, Decidable (Along C h)
  | [] => inferInstanceAs (Decidable True)
  | (s, l) :: h =>
    have : Decidable (Along C h) := instDecidableAlong h
    inferInstanceAs (Decidable (Along C h ∧ C h s l))

/-- `P` holds at every state of the run, the last one included. -/
def Throughout (P : History σ ι → σ → Prop) : History σ ι → σ → Prop
  | [], s => P [] s
  | (s₀, l) :: h, s => Throughout P h s₀ ∧ P ((s₀, l) :: h) s

variable {step : σ → ι → Option σ} {init : σ → Prop}

theorem Along.of_true : ∀ h : History σ ι, Along (fun _ _ _ => True) h
  | [] => True.intro
  | _ :: h => ⟨Along.of_true h, True.intro⟩

theorem Along.and {C D : History σ ι → σ → ι → Prop} :
    ∀ {h : History σ ι}, Along C h → Along D h → Along (fun h s l => C h s l ∧ D h s l) h
  | [], _, _ => trivial
  | _ :: _, hc, hd => ⟨Along.and hc.1 hd.1, hc.2, hd.2⟩

theorem Along.imp {C D : History σ ι → σ → ι → Prop} (hcd : ∀ h s l, C h s l → D h s l) :
    ∀ {h : History σ ι}, Along C h → Along D h
  | [], _ => trivial
  | (s, l) :: h, hc => ⟨Along.imp hcd hc.1, hcd h s l hc.2⟩

/-- A step of the history, with the steps before it. -/
theorem Along.of_mem {C : History σ ι → σ → ι → Prop} :
    ∀ {h : History σ ι}, Along C h → ∀ p ∈ h, ∃ h', C h' p.1 p.2
  | (s, l) :: h, hc, p, hp => by
    rcases List.mem_cons.mp hp with rfl | hp
    · exact ⟨h, hc.2⟩
    · exact Along.of_mem hc.1 p hp

theorem Throughout.last {P : History σ ι → σ → Prop} {h : History σ ι} {s : σ}
    (ht : Throughout P h s) : P h s := by
  cases h with
  | nil => exact ht
  | cons p h => exact ht.2

/-! ## Invariants -/

/-- What holds initially and is kept by every step holds at the end of
every run. -/
theorem Run.inv {P : History σ ι → σ → Prop} (h0 : ∀ s, init s → P [] s)
    (hstep : ∀ {h : History σ ι} {s s' : σ} {l : ι}, Run step init h s → P h s →
      step s l = some s' → P ((s, l) :: h) s')
    {h : History σ ι} {s : σ} (hr : Run step init h s) : P h s := by
  induction hr with
  | start hi => exact h0 _ hi
  | next hr hs ih => exact hstep hr ih hs

/-- The same for the runs whose steps meet a condition. -/
theorem Run.inv_along {P : History σ ι → σ → Prop} {C : History σ ι → σ → ι → Prop}
    (h0 : ∀ s, init s → P [] s)
    (hstep : ∀ {h : History σ ι} {s s' : σ} {l : ι}, Run step init h s → P h s → C h s l →
      step s l = some s' → P ((s, l) :: h) s')
    {h : History σ ι} {s : σ} (hr : Run step init h s) (hc : Along C h) : P h s := by
  induction hr with
  | start hi => exact h0 _ hi
  | next hr hs ih => exact hstep hr (ih hc.1) hc.2 hs

/-- A property of single states that holds initially and is kept. -/
theorem Run.inv_state {P : σ → Prop} (h0 : ∀ s, init s → P s)
    (hstep : ∀ {s s' : σ} {l : ι}, P s → step s l = some s' → P s')
    {h : History σ ι} {s : σ} (hr : Run step init h s) : P s :=
  Run.inv (P := fun _ s => P s) h0 (fun _ hp hs => hstep hp hs) hr

/-- **A sufficient condition.** Where every step that meets `C` keeps `P`,
with the help of `J`, a run whose steps all meet `C` keeps `P` throughout. -/
theorem Run.throughout_along {P J : History σ ι → σ → Prop} {C : History σ ι → σ → ι → Prop}
    (h0 : ∀ s, init s → P [] s ∧ J [] s)
    (hstep : ∀ {h : History σ ι} {s s' : σ} {l : ι}, Run step init h s → J h s → P h s →
      C h s l → step s l = some s' → P ((s, l) :: h) s' ∧ J ((s, l) :: h) s')
    {h : History σ ι} {s : σ} (hr : Run step init h s) (hc : Along C h) : Throughout P h s := by
  have hJ : ∀ {h : History σ ι} {s : σ}, Run step init h s → Along C h → P h s ∧ J h s :=
    fun hr hc => Run.inv_along (P := fun h s => P h s ∧ J h s) h0
      (fun hr' hi hl hs => hstep hr' hi.2 hi.1 hl hs) hr hc
  induction hr with
  | start hi => exact (h0 _ hi).1
  | next hr hs ih =>
    have hprev := hJ hr hc.1
    exact ⟨ih hc.1, (hstep hr hprev.2 hprev.1 hc.2 hs).1⟩

/-- **The exact condition.** `J` is an invariant of the runs whose steps
meet the assumption `D` and the condition `C`. Where, in its presence, one
step keeps `P` if and only if it meets `C`, a run under the assumption keeps
`P` throughout if and only if all its steps meet `C`. -/
theorem Run.throughout_iff {P J : History σ ι → σ → Prop} {C D : History σ ι → σ → ι → Prop}
    (h0 : ∀ s, init s → P [] s ∧ J [] s)
    (hinv : ∀ {h : History σ ι} {s s' : σ} {l : ι}, Run step init h s → J h s →
      D h s l → C h s l → step s l = some s' → J ((s, l) :: h) s')
    (hstep : ∀ {h : History σ ι} {s s' : σ} {l : ι}, Run step init h s → J h s → P h s →
      D h s l → step s l = some s' → (P ((s, l) :: h) s' ↔ C h s l))
    {h : History σ ι} {s : σ} (hr : Run step init h s) (hd : Along D h) :
    Throughout P h s ↔ Along C h := by
  have hJ : ∀ {h : History σ ι} {s : σ}, Run step init h s → Along D h → Along C h → J h s :=
    fun hr hd hc => Run.inv_along (fun s hs => (h0 s hs).2)
      (fun hr' hj hdc hs => hinv hr' hj hdc.1 hdc.2 hs) hr (hd.and hc)
  induction hr with
  | start hi => exact iff_of_true (h0 _ hi).1 trivial
  | next hr hs ih =>
    have ih' := ih hd.1
    constructor
    · intro ⟨ht, hp⟩
      have hc := ih'.mp ht
      exact ⟨hc, (hstep hr (hJ hr hd.1 hc) ht.last hd.2 hs).mp hp⟩
    · intro ⟨hc, hl⟩
      have ht := ih'.mpr hc
      exact ⟨ht, (hstep hr (hJ hr hd.1 hc) ht.last hd.2 hs).mpr hl⟩

/-! ## Machines that always have a next step -/

/-- **Termination.** Where every step from a state of the invariant that is
not at its end keeps the invariant and lowers a measure, some iterate is at
its end. -/
theorem exists_iterate_of_lt {f : σ → σ} {P Q : σ → Prop} (μ : σ → ℕ)
    (hstep : ∀ s, P s → ¬ Q s → P (f s) ∧ μ (f s) < μ s) {s : σ} (hs : P s) :
    ∃ n, Q (f^[n] s) := by
  induction hm : μ s using Nat.strongRecOn generalizing s with
  | _ m ih =>
    by_cases hq : Q s
    · exact ⟨0, hq⟩
    · obtain ⟨hp, hlt⟩ := hstep s hs hq
      obtain ⟨n, hn⟩ := ih (μ (f s)) (hm ▸ hlt) hp rfl
      exact ⟨n + 1, hn⟩

/-! ## Executing a script -/

/-- Play the labels of a script, oldest first, from a state with a history. -/
def exec (step : σ → ι → Option σ) :
    History σ ι → σ → List ι → Option (History σ ι × σ)
  | h, s, [] => some (h, s)
  | h, s, l :: ls =>
    match step s l with
    | none => none
    | some s' => exec step ((s, l) :: h) s' ls

theorem Run.exec {h h' : History σ ι} {s s' : σ} {ls : List ι} (hr : Run step init h s)
    (he : exec step h s ls = some (h', s')) : Run step init h' s' := by
  induction ls generalizing h s with
  | nil =>
    simp only [Transition.exec, Option.some.injEq, Prod.mk.injEq] at he
    obtain ⟨rfl, rfl⟩ := he
    exact hr
  | cons l ls ih =>
    simp only [Transition.exec] at he
    cases hs : step s l with
    | none => simp [hs] at he
    | some s₁ =>
      simp only [hs] at he
      exact ih (hr.next hs) he

/-- Play the labels of a history again, from another state. -/
def replay (step : σ → ι → Option σ) (s₀ : σ) : History σ ι → Option (History σ ι × σ)
  | [] => some ([], s₀)
  | (_, l) :: h =>
    (replay step s₀ h).bind fun r => (step r.2 l).map fun s' => ((r.2, l) :: r.1, s')

theorem replay_cons {s₀ s s' : σ} {l : ι} {h h' : History σ ι} :
    replay step s₀ ((s, l) :: h) = some (h', s') ↔
      ∃ h₂ s₂, replay step s₀ h = some (h₂, s₂) ∧ step s₂ l = some s' ∧ h' = (s₂, l) :: h₂ := by
  simp only [replay, Option.bind_eq_some_iff, Option.map_eq_some_iff, Prod.exists, Prod.mk.injEq]
  constructor
  · intro ⟨h₂, s₂, hr, _, hs, heq, rfl⟩
    exact ⟨h₂, s₂, hr, hs, heq.symm⟩
  · intro ⟨h₂, s₂, hr, hs, heq⟩
    exact ⟨h₂, s₂, hr, s', hs, heq.symm, rfl⟩

/-- The same labels were played. -/
theorem replay_labels {s₀ s' : σ} {h h' : History σ ι} (hr : replay step s₀ h = some (h', s')) :
    h'.map Prod.snd = h.map Prod.snd := by
  induction h generalizing h' s' with
  | nil =>
    cases hr
    rfl
  | cons p h ih =>
    obtain ⟨s, l⟩ := p
    obtain ⟨h₂, s₂, hr₂, -, rfl⟩ := replay_cons.mp hr
    simp [ih hr₂]

end Transition
