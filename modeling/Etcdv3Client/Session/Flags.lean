import Etcdv3Client.Session.System

/-!
# The alive and expired events, and the lifecycle flags

Both events are functions of where the worker is, and `granted_` says
whether a worker was started: the invariant of the session object, kept by
every step of every party. The steps that are not the worker's leave the
worker where it is.
-/

namespace Etcdv3Client

open Transition

section
variable {B : BackOffStrategy}

/-! ## The cycle of the two events -/

/-- What the two events tell an observer. -/
inductive Stage where
  /-- `expired_` is set: no lease is held -/
  | expired
  /-- neither is set, before the announcement -/
  | rising
  /-- `alive_` is set: a lease is held -/
  | alive
  /-- neither is set, after the lease was given up -/
  | falling
deriving DecidableEq, Repr

namespace Stage

/-- The only way on. -/
def next : Stage → Stage
  | .expired => .rising
  | .rising => .alive
  | .alive => .falling
  | .falling => .expired

def aliveSet : Stage → Bool
  | .alive => true
  | _ => false

def expiredSet : Stage → Bool
  | .expired => true
  | _ => false

theorem not_both (p : Stage) : ¬ (p.aliveSet = true ∧ p.expiredSet = true) := by
  cases p <;> decide

end Stage

/-- The stage at each counter. -/
def Pc.stage : Pc B → Stage
  | .setAlive => .rising
  | .keepAliveLoop _ | .openStream _ | .keepAliveWait _ _ | .cancelStream | .write _
  | .read _ _ | .finishStream _ | .keepAliveSleep _ _ | .resetAlive => .alive
  | .setExpired => .falling
  | _ => .expired

/-- The counters of `TryKeepAlive`, up to the reset of `alive_`. -/
def Pc.keepingAlive (pc : Pc B) : Bool := pc.stage.aliveSet

def Thread.stage : Thread B → Stage
  | .started w => w.pc.stage
  | _ => .expired

def Thread.keepingAlive (t : Thread B) : Bool := t.stage.aliveSet

/-- A worker step leaves the stage or moves it on by one. -/
theorem WorkerStep.stage {s s' : Session} {w w' : Worker B} {a : Answer}
    (h : WorkerStep s w a s' w') :
    w'.pc.stage = w.pc.stage ∨ w'.pc.stage = w.pc.stage.next := by
  cases h <;> first | exact Or.inl rfl | exact Or.inr rfl

/-! ## The invariant -/

/-- A worker was started at some time. -/
def Thread.wasStarted : Thread B → Bool
  | .none => false
  | _ => true

/-- A worker was started and has ended. -/
def Thread.hasEnded : Thread B → Bool
  | .none => false
  | .started w => w.pc.isEnded
  | .joined => true

/-- The invariant of the session object. -/
structure Inv (s : State B) : Prop where
  alive : s.session.alive = s.thread.stage.aliveSet
  expired : s.session.expired = s.thread.stage.expiredSet
  granted : s.session.granted = s.thread.wasStarted
  closing : s.closing = true → s.session.closed = true
  ended : s.thread.hasEnded = true → s.session.closed = true

/-- A session without a successful `Grant` has no worker. -/
theorem Inv.thread_none {s : State B} (hi : Inv s) (hg : s.session.granted = false) :
    s.thread = .none := by
  have hno : s.thread.wasStarted = false := by rw [← hi.granted, hg]
  cases ht : s.thread with
  | none => rfl
  | started w => simp [ht, Thread.wasStarted] at hno
  | joined => simp [ht, Thread.wasStarted] at hno

/-! ## One step -/

/-- A worker step moves both events with its counter. -/
theorem WorkerStep.flags {s s' : Session} {w w' : Worker B} {a : Answer}
    (h : WorkerStep s w a s' w') (ha : s.alive = w.pc.stage.aliveSet)
    (he : s.expired = w.pc.stage.expiredSet) :
    s'.alive = w'.pc.stage.aliveSet ∧ s'.expired = w'.pc.stage.expiredSet := by
  cases h with
  | resetExpired => exact ⟨ha, rfl⟩
  | setAlive => exact ⟨rfl, he⟩
  | resetAlive => exact ⟨rfl, he⟩
  | setExpired => exact ⟨ha, rfl⟩
  | _ => exact ⟨ha, he⟩

/-- A worker step leaves `granted_`, only sets `closed_`, and sets it when
it ends the worker. -/
theorem WorkerStep.closed {s s' : Session} {w w' : Worker B} {a : Answer}
    (h : WorkerStep s w a s' w') :
    s'.granted = s.granted ∧ (s.closed = true → s'.closed = true) ∧
      (w'.pc.isEnded = true → s'.closed = true) := by
  cases h with
  | setClosed => exact ⟨rfl, fun _ => rfl, fun _ => rfl⟩
  | _ => exact ⟨rfl, id, fun he => Bool.noConfusion he⟩

/-- The worker that has ended left both events as they were before it
started. -/
theorem stage_of_ended {pc : Pc B} (h : pc.isEnded = true) : pc.stage = .expired := by
  cases pc <;> first | rfl | exact Bool.noConfusion h

theorem inv_init {s : State B} (h : Init s) : Inv s := by
  obtain ⟨lease, leaseTtl, rfl⟩ := h
  exact ⟨rfl, rfl, rfl, by simp [State.new], by simp [State.new, Thread.hasEnded]⟩

theorem inv_step {s s' : State B} {l : Label} (hi : Inv s) (h : step s l = some s') :
    Inv s' := by
  cases step_iff.mp h with
  | ctxDone => exact ⟨hi.alive, hi.expired, hi.granted, hi.closing, hi.ended⟩
  | grantRefused => exact hi
  | grantOk hcl hc hg =>
    have hno : s.thread.stage = .expired := by
      rw [hi.thread_none hg]
      rfl
    exact ⟨by rw [hi.alive, hno]; rfl, by rw [hi.expired, hno]; rfl, rfl, hi.closing,
      by simp [Thread.hasEnded, Pc.isEnded]⟩
  | close => exact ⟨hi.alive, hi.expired, hi.granted, fun _ => rfl, fun _ => rfl⟩
  | @closeJoined w hcl ht he =>
    have hno : s.thread.stage = .expired := by
      rw [ht]
      exact stage_of_ended he
    refine ⟨?_, ?_, ?_, by simp, fun _ => hi.closing hcl⟩
    · rw [hi.alive, hno]
      rfl
    · rw [hi.expired, hno]
      rfl
    · rw [hi.granted, ht]
      rfl
  | closeFree hcl hn => exact ⟨hi.alive, hi.expired, hi.granted, by simp, hi.ended⟩
  | @worker w a r w' ht ha hw =>
    have hfl := hw.flags (by rw [hi.alive, ht]; rfl) (by rw [hi.expired, ht]; rfl)
    obtain ⟨hgr, hclosed, hend⟩ := hw.closed
    exact ⟨hfl.1, hfl.2, by rw [hgr, hi.granted, ht]; rfl,
      fun hcl => hclosed (hi.closing hcl), hend⟩

theorem inv_run {h : History (State B) Label} {s : State B} (hr : SRun h s) : Inv s :=
  hr.inv_state (fun _ => inv_init) inv_step

/-- The close event, once finished, stays finished. -/
theorem finished_step {s s' : State B} {l : Label} (hf : s.finished = true)
    (h : step s l = some s') : s'.finished = true := by
  simp only [State.finished, Bool.or_eq_true] at hf ⊢
  cases step_iff.mp h with
  | ctxDone => exact Or.inl rfl
  | grantRefused => exact hf
  | grantOk => exact hf
  | close => exact Or.inr rfl
  | closeJoined => exact hf
  | closeFree => exact hf
  | worker _ _ hw => exact hf.imp id hw.closed.2.1

/-- `closed_` once set stays set. -/
theorem closed_step {s s' : State B} {l : Label} (hc : s.session.closed = true)
    (h : step s l = some s') : s'.session.closed = true := by
  cases step_iff.mp h with
  | ctxDone => exact hc
  | grantRefused => exact hc
  | grantOk => exact hc
  | close => rfl
  | closeJoined => exact hc
  | closeFree => exact hc
  | worker _ _ hw => exact hw.closed.2.1 hc

/-! ## The steps of the others -/

/-- What the steps of the callers and of the context leave. -/
structure Frame (s s' : State B) : Prop where
  lease : s'.session.lease = s.session.lease
  alive : s'.session.alive = s.session.alive
  /-- the worker is where it was, unless it has just been started -/
  back : ∀ w, s'.thread = .started w → s.thread = .started w ∨ w.pc = .loop
  /-- a worker that has not ended is still there -/
  forth : ∀ w, s.thread = .started w → w.pc.isEnded = false → s'.thread = .started w

/-- **A step is the worker's or leaves the worker.** -/
theorem step_cases {s s' : State B} {l : Label} (hi : Inv s) (h : step s l = some s') :
    (∃ a w r w', l = .worker a ∧ s.thread = .started w ∧ a.agrees s.finished = true ∧
      WorkerStep s.session w a r w' ∧ s' = { s with session := r, thread := .started w' }) ∨
    ((∀ a, l ≠ .worker a) ∧ Frame s s') := by
  cases step_iff.mp h with
  | @worker w a r w' ht ha hw => exact Or.inl ⟨a, w, r, w', rfl, ht, ha, hw, rfl⟩
  | ctxDone =>
    exact Or.inr ⟨by simp, rfl, rfl, fun w hw => Or.inl hw, fun w hw _ => hw⟩
  | grantRefused =>
    exact Or.inr ⟨by simp, rfl, rfl, fun w hw => Or.inl hw, fun w hw _ => hw⟩
  | grantOk hcl hc hg =>
    refine Or.inr ⟨by simp, rfl, rfl, fun w hw => Or.inr ?_, fun w hw _ => ?_⟩
    · cases hw
      rfl
    · rw [hi.thread_none hg] at hw
      cases hw
  | close =>
    exact Or.inr ⟨by simp, rfl, rfl, fun w hw => Or.inl hw, fun w hw _ => hw⟩
  | closeJoined hcl ht he =>
    refine Or.inr ⟨by simp, rfl, rfl, fun w hw => by simp at hw, fun w hw hne => ?_⟩
    cases ht.symm.trans hw
    simp [he] at hne
  | closeFree =>
    exact Or.inr ⟨by simp, rfl, rfl, fun w hw => Or.inl hw, fun w hw _ => hw⟩

end

end Etcdv3Client
