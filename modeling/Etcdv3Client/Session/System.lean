import Etcdv3Client.Lib.Run
import Etcdv3Client.Session.Worker

/-!
# session.cc: the session object among its callers

Any number of threads call `Grant` and `Close` (the destructor is one more
`Close`), the context may become done at any moment, and the worker takes
its own steps. `Grant` runs under `m_` from end to end and is one step.
`Close` is two: it takes `m_` and sets `closed_`, and it returns once the
worker, if there is one to join, has ended; it keeps `m_` in between.
-/

namespace Etcdv3Client

open Transition

/-- `grant_and_keep_alive_thread_`. -/
inductive Thread (B : BackOffStrategy) where
  /-- as constructed, not joinable -/
  | none
  /-- joinable: a worker was started -/
  | started (w : Worker B)
  /-- after `join`, not joinable -/
  | joined

/-- A session, the context of its worker and the mutex. -/
structure State (B : BackOffStrategy) where
  session : Session
  thread : Thread B := .none
  /-- the context passed to the successful `Grant` is done -/
  ctxDone : Bool := false
  /-- `m_` is held by a `Close` that has set `closed_` -/
  closing : Bool := false

inductive Label where
  /-- the context becomes done -/
  | ctxDone
  /-- a call of `Grant` -/
  | grant (options : SessionOptions)
  /-- a call of `Close`, up to the join -/
  | close
  /-- the same call returns -/
  | closeReturn
  /-- the worker's call or test answers -/
  | worker (a : Answer)

/-- What the worker sends. -/
inductive Request where
  | leaseGrant (req : LeaseGrantRequest)
  | leaseKeepAlive (req : LeaseKeepAliveRequest)
  | leaseRevoke (req : LeaseRevokeRequest)
deriving DecidableEq, Repr

section
variable {B : BackOffStrategy}

/-- The close event is finished: `WaitAny({ctx.get(), &closed_})`. -/
def State.finished (s : State B) : Bool := s.ctxDone || s.session.closed

/-- The worker has ended. -/
def Pc.isEnded : Pc B → Bool
  | .ended => true
  | _ => false

/-- The answers of the close event agree with its state. -/
def Answer.agrees (finished : Bool) : Answer → Bool
  | .finished b => b == finished
  | .wait b => b == finished
  | _ => true

/-- What `Grant` returns, in a session state. -/
def grantStatus (s : Session) : Status :=
  if s.closed then
    { code := .sessionAlreadyClosed, message := "Session is already closed" }
  else if s.granted then
    { code := .sessionAlreadyGranted, message := "Session is already granted" }
  else {}

/-- `Session::Grant`. -/
def grant (s : State B) (options : SessionOptions) : State B :=
  if s.session.closed then s
  else if s.session.granted then s
  else { s with thread := .started ⟨options, .loop⟩, session := { s.session with granted := true } }

/-- One step of the system. -/
def step (s : State B) : Label → Option (State B)
  | .ctxDone => some { s with ctxDone := true }
  | .grant options => if s.closing then none else some (grant s options)
  | .close =>
      if s.closing then none
      else some { s with session := { s.session with closed := true }, closing := true }
  | .closeReturn =>
      if s.closing then
        match s.thread with
        | .started w =>
            if w.pc.isEnded then some { s with thread := .joined, closing := false } else none
        | _ => some { s with closing := false }
      else none
  | .worker a =>
      match s.thread with
      | .started w =>
          if a.agrees s.finished then
            (workerNext s.session w a).map fun r =>
              { s with session := r.1, thread := .started r.2 }
          else none
      | _ => none

/-- The constructor: `lease_` and `lease_ttl_` hold whatever the memory
held. -/
def State.new (lease leaseTtl : Int) : State B :=
  { session := { lease := lease, leaseTtl := leaseTtl } }

def Init (s : State B) : Prop := ∃ lease leaseTtl : Int, s = State.new lease leaseTtl

theorem Init.not_started {s : State B} (h : Init s) (w : Worker B) :
    s.thread ≠ .started w := by
  obtain ⟨lease, leaseTtl, rfl⟩ := h
  intro ht
  cases ht

/-- The request the worker is about to send. -/
def Pc.request (s : Session) (options : SessionOptions) : Pc B → Option Request
  | .leaseGrant _ =>
      some (.leaseGrant (Client.leaseGrantRequest options.ttl
        (LeaseGrantOptions.withID options.lease {})))
  | .write _ => some (.leaseKeepAlive { id := s.lease })
  | .leaseRevoke _ _ _ => some (.leaseRevoke (Client.leaseRevokeRequest s.lease))
  | _ => none

def State.request (s : State B) : Option Request :=
  match s.thread with
  | .started w => w.pc.request s.session w.options
  | _ => none

/-- The runs of the system, with the steps taken, newest first. -/
abbrev SRun (h : History (State B) Label) (s : State B) : Prop := Run step Init h s

/-- The requests sent so far, newest first. -/
def sentRequests : History (State B) Label → List Request
  | [] => []
  | (s, .worker _) :: h => s.request.toList ++ sentRequests h
  | _ :: h => sentRequests h

theorem sentRequests_frame {h : History (State B) Label} {s : State B} {l : Label}
    (hl : ∀ a, l ≠ .worker a) : sentRequests ((s, l) :: h) = sentRequests h := by
  cases l with
  | worker a => exact absurd rfl (hl a)
  | _ => rfl

/-! ## Scripts -/

/-- A `Grant` whose worker is given a lease by its first `LeaseGrant` and
announces it, up to the loop of `TryKeepAlive`. -/
def announceScript (options : SessionOptions) (rsp : LeaseGrantResponse) : List Label :=
  [.grant options, .worker (.finished false), .worker (.finished false),
    .worker (.leaseGrant (.ok rsp)), .worker (.finished false), .worker .flag, .worker .flag]

/-- From the loop of `TryKeepAlive` to the first `Write`. -/
def openScript : List Label :=
  [.worker (.finished false), .worker .stream, .worker (.wait false)]

/-! ## What one step can do -/

/-- The steps of the system. -/
inductive SystemStep : State B → Label → State B → Prop where
  | ctxDone {s} : SystemStep s .ctxDone { s with ctxDone := true }
  | grantRefused {s o} : s.closing = false → s.session.closed = true ∨ s.session.granted = true →
      SystemStep s (.grant o) s
  | grantOk {s o} : s.closing = false → s.session.closed = false → s.session.granted = false →
      SystemStep s (.grant o)
        { s with thread := .started ⟨o, .loop⟩, session := { s.session with granted := true } }
  | close {s} : s.closing = false →
      SystemStep s .close
        { s with session := { s.session with closed := true }, closing := true }
  | closeJoined {s w} : s.closing = true → s.thread = .started w → w.pc.isEnded = true →
      SystemStep s .closeReturn { s with thread := .joined, closing := false }
  | closeFree {s} : s.closing = true → (∀ w, s.thread ≠ .started w) →
      SystemStep s .closeReturn { s with closing := false }
  | worker {s w a r w'} : s.thread = .started w → a.agrees s.finished = true →
      WorkerStep s.session w a r w' →
      SystemStep s (.worker a) { s with session := r, thread := .started w' }

/-- **The inversion of a system step.** -/
theorem step_iff {s s' : State B} {l : Label} : step s l = some s' ↔ SystemStep s l s' := by
  constructor
  · intro h
    cases l with
    | ctxDone =>
      simp only [step, Option.some.injEq] at h
      subst h
      exact .ctxDone
    | grant o =>
      simp only [step] at h
      split at h
      · cases h
      · rename_i hcl
        simp only [Option.some.injEq, grant] at h
        have hcl' : s.closing = false := by simpa using hcl
        split at h
        · rename_i hc
          subst h
          exact .grantRefused hcl' (Or.inl hc)
        · rename_i hc
          split at h
          · rename_i hg
            subst h
            exact .grantRefused hcl' (Or.inr hg)
          · rename_i hg
            subst h
            exact .grantOk hcl' (by simpa using hc) (by simpa using hg)
    | close =>
      simp only [step] at h
      split at h
      · cases h
      · rename_i hcl
        simp only [Option.some.injEq] at h
        subst h
        exact .close (by simpa using hcl)
    | closeReturn =>
      simp only [step] at h
      split at h
      · rename_i hcl
        split at h
        · rename_i w ht
          split at h
          · rename_i he
            simp only [Option.some.injEq] at h
            subst h
            exact .closeJoined hcl ht he
          · cases h
        · rename_i hn
          simp only [Option.some.injEq] at h
          subst h
          exact .closeFree hcl hn
      · cases h
    | worker a =>
      simp only [step] at h
      cases ht : s.thread with
      | none => simp [ht] at h
      | joined => simp [ht] at h
      | started w =>
        simp only [ht] at h
        split at h
        · rename_i ha
          rw [Option.map_eq_some_iff] at h
          obtain ⟨⟨r, w'⟩, hr, rfl⟩ := h
          exact .worker ht ha (workerNext_iff.mp hr)
        · cases h
  · intro h
    cases h with
    | ctxDone => rfl
    | grantRefused hcl hr =>
      rcases hr with hr | hr <;> simp [step, grant, hcl, hr]
    | grantOk hcl hc hg => simp [step, grant, hcl, hc, hg]
    | close hcl => simp [step, hcl]
    | closeJoined hcl ht he => simp [step, hcl, ht, he]
    | closeFree hcl hn =>
      cases ht : s.thread with
      | none => simp [step, hcl, ht]
      | joined => simp [step, hcl, ht]
      | started w => exact absurd ht (hn w)
    | worker ht ha hw => simp [step, ht, ha, workerNext_iff.mpr hw]

end

end Etcdv3Client
