import Etcdv3Client.Lease

/-!
# session.h and session.cc: the worker

`GrantAndKeepAlive` and the three functions it calls, as a machine: a
program counter for each call the worker waits in, each test of the close
event and each change of an event flag, with the locals of the function it
is in. The step from one counter to the next takes the answer of that call
or test. Everything the source does between two of these is local to the
worker and part of the step.
-/

namespace Etcdv3Client

/-! ## SessionOptions -/

/-- `SessionOptions`. Waiting times are in seconds. -/
structure SessionOptions where
  lease : Int
  ttl : Int := 60
  revokeMaxRetryTimes : Int
  retryMinWaitTime : Int := 1
  retryMaxWaitTime : Int := 60
deriving DecidableEq, Repr

namespace SessionOptions

/-- `SessionOptions()`: value-initialised, so that the members without an
initializer are zero. -/
def new : SessionOptions := { lease := 0, revokeMaxRetryTimes := 0 }

/-- `SessionOptions o;`: the members without an initializer hold whatever
the memory held. -/
def declared (lease revokeMaxRetryTimes : Int) : SessionOptions :=
  { lease := lease, revokeMaxRetryTimes := revokeMaxRetryTimes }

def withTTL (ttl : Int) (o : SessionOptions) : SessionOptions := { o with ttl := ttl }

def withLease (id : Int) (o : SessionOptions) : SessionOptions := { o with lease := id }

def withMaxRevokeRetry (times : Int) (o : SessionOptions) : SessionOptions :=
  { o with revokeMaxRetryTimes := times }

def withRetryWaitTime (min max : Int) (o : SessionOptions) : SessionOptions :=
  { o with retryMinWaitTime := min, retryMaxWaitTime := max }

def setLease (lease : Int) (o : SessionOptions) : SessionOptions := { o with lease := lease }

def setTtl (ttl : Int) (o : SessionOptions) : SessionOptions := { o with ttl := ttl }

end SessionOptions

/-! ## The session object -/

/-- The members of `Session` that calls and the worker change. No
constructor sets `lease_` and `lease_ttl_`; `alive_` is `Event()` and
`expired_` is `Event(false, true)`. -/
structure Session where
  lease : Int
  leaseTtl : Int
  granted : Bool := false
  closed : Bool := false
  alive : Bool := false
  expired : Bool := true
deriving DecidableEq, Repr

/-- `get_lease()`. -/
def Session.getLease (s : Session) : Int := s.lease

/-- `revoke_default_max_retry_times`. -/
def revokeDefaultMaxRetryTimes : Int := 3

/-! ## The program counter -/

/-- Where the worker is. `b` is the `backoff` of the function it is in, `d`
the time it waits or sleeps. -/
inductive Pc (B : BackOffStrategy) where
  /-- `GrantAndKeepAlive`: `while (!close_event->Finished())` -/
  | loop
  /-- `TryGrant`: `while (!close_event->Finished())` -/
  | grantLoop (b : B.State)
  /-- `TryGrant`: `client_->LeaseGrant(...)` -/
  | leaseGrant (b : B.State)
  /-- `TryGrant`: `close_event->Wait(backoff.Next())` -/
  | grantWait (d : ℚ) (b : B.State)
  /-- `GrantAndKeepAlive`: `if (!close_event->Finished())` -/
  | granted
  /-- `expired_->Reset()` -/
  | resetExpired
  /-- `alive_->Set()` -/
  | setAlive
  /-- `TryKeepAlive`: `while (!close_event->Finished())` -/
  | keepAliveLoop (b : B.State)
  /-- `TryKeepAlive`: `client_->LeaseKeepAlive(...)` -/
  | openStream (b : B.State)
  /-- `TryKeepAlive`: `close_event->Wait(backoff.Next())` -/
  | keepAliveWait (d : ℚ) (b : B.State)
  /-- `context->TryCancel(); keep_alive_rw->Finish()` -/
  | cancelStream
  /-- `keep_alive_rw->Write(req)` -/
  | write (b : B.State)
  /-- `keep_alive_rw->Read(&rsp)`, after `req` was written -/
  | read (req : LeaseKeepAliveRequest) (b : B.State)
  /-- `keep_alive_rw->Finish()` after a failed `Write` or `Read` -/
  | finishStream (b : B.State)
  /-- `TryKeepAlive`: `sleep_for(backoff.Next())` -/
  | keepAliveSleep (d : ℚ) (b : B.State)
  /-- `alive_->Reset()` -/
  | resetAlive
  /-- `expired_->Set()` -/
  | setExpired
  /-- `TryRevoke`: `client_->LeaseRevoke(...)` -/
  | leaseRevoke (maxRetryTimes retryTimes : Int) (b : B.State)
  /-- `TryRevoke`: `sleep_for(backoff.Next())` -/
  | revokeSleep (maxRetryTimes retryTimes : Int) (d : ℚ) (b : B.State)
  /-- `closed_.Set()` -/
  | setClosed
  | ended

/-- What the call or test the worker is in answers. -/
inductive Answer where
  /-- `close_event->Finished()` -/
  | finished (b : Bool)
  /-- `close_event->Wait(d)` -/
  | wait (b : Bool)
  | leaseGrant (r : Except GrpcCode LeaseGrantResponse)
  /-- `client_->LeaseKeepAlive` gave the stream -/
  | stream
  | write (ok : Bool)
  | read (rsp : Option LeaseKeepAliveResponse)
  | finish (code : GrpcCode)
  /-- `sleep_for(d)` is over -/
  | slept
  | leaseRevoke (code : GrpcCode)
  /-- a change of an event flag, which answers nothing -/
  | flag

/-! ## The functions -/

/-- The worker thread: its copy of the options and where it is. -/
structure Worker (B : BackOffStrategy) where
  options : SessionOptions
  pc : Pc B

section
variable {B : BackOffStrategy}

/-- Entry of `TryGrant`. -/
def tryGrant (options : SessionOptions) : Pc B :=
  .grantLoop (B.new options.retryMinWaitTime options.retryMaxWaitTime)

/-- Return of `TryGrant`: `options.set_lease(lease_)`, then
`options.set_ttl(lease_ttl_)`. -/
def grantReturn (s : Session) (options : SessionOptions) : Worker B :=
  ⟨(options.setLease s.lease).setTtl s.leaseTtl, .granted⟩

/-- Entry of `TryKeepAlive`: both bounds of the backoff are capped by the
TTL of the moment. -/
def tryKeepAlive (s : Session) (options : SessionOptions) : Pc B :=
  .keepAliveLoop (B.new (min options.retryMinWaitTime s.leaseTtl)
    (min options.retryMaxWaitTime s.leaseTtl))

/-- `close_event->Wait(backoff.Next())` of the inner keep-alive loop. -/
def nextKeepAlive (b : B.State) : Pc B :=
  .keepAliveWait (B.next b).1 (B.next b).2

/-- `while (++retry_times <= revoke_max_retry_times)`, counted in integers:
for a bound below the largest `int`, where `++retry_times` overflows. -/
def nextRevoke (maxRetryTimes retryTimes : Int) (b : B.State) : Pc B :=
  if retryTimes + 1 ≤ maxRetryTimes then .leaseRevoke maxRetryTimes (retryTimes + 1) b
  else .setClosed

/-- `revoke_max_retry_times` after `if (!revoke_max_retry_times)`. -/
def revokeBudget (options : SessionOptions) : Int :=
  if options.revokeMaxRetryTimes = 0 then revokeDefaultMaxRetryTimes
  else options.revokeMaxRetryTimes

/-- Entry of `TryRevoke`. -/
def tryRevoke (options : SessionOptions) : Pc B :=
  nextRevoke (revokeBudget options) 0
    (B.new options.retryMinWaitTime options.retryMaxWaitTime)

/-- One step of the worker with an answer, on the session's members. -/
def workerNext (s : Session) (w : Worker B) (a : Answer) : Option (Session × Worker B) :=
  let o := w.options
  match w.pc, a with
  | .loop, .finished true => some (s, ⟨o, tryRevoke o⟩)
  | .loop, .finished false => some (s, ⟨o, tryGrant o⟩)
  -- TryGrant
  | .grantLoop _, .finished true => some (s, grantReturn s o)
  | .grantLoop b, .finished false => some (s, ⟨o, .leaseGrant b⟩)
  | .leaseGrant _, .leaseGrant (.ok rsp) =>
      let s' := { s with lease := rsp.id, leaseTtl := rsp.ttl }
      some (s', grantReturn s' o)
  | .leaseGrant b, .leaseGrant (.error _) =>
      let p := B.next (B.resetWith false b)
      some (s, ⟨o, .grantWait p.1 p.2⟩)
  | .grantWait _ _, .wait true => some (s, grantReturn s o)
  | .grantWait _ b, .wait false => some (s, ⟨o, .grantLoop b⟩)
  -- GrantAndKeepAlive, after TryGrant
  | .granted, .finished true => some (s, ⟨o, .loop⟩)
  | .granted, .finished false => some (s, ⟨o, .resetExpired⟩)
  | .resetExpired, .flag => some ({ s with expired := false }, ⟨o, .setAlive⟩)
  | .setAlive, .flag => some ({ s with alive := true }, ⟨o, tryKeepAlive s o⟩)
  -- TryKeepAlive
  | .keepAliveLoop _, .finished true => some (s, ⟨o, .resetAlive⟩)
  | .keepAliveLoop b, .finished false => some (s, ⟨o, .openStream b⟩)
  | .openStream b, .stream => some (s, ⟨o, nextKeepAlive b⟩)
  | .keepAliveWait _ _, .wait true => some (s, ⟨o, .cancelStream⟩)
  | .keepAliveWait _ b, .wait false => some (s, ⟨o, .write b⟩)
  | .cancelStream, .finish _ => some (s, ⟨o, .resetAlive⟩)
  | .write b, .write true => some (s, ⟨o, .read { id := s.lease } b⟩)
  | .write b, .write false => some (s, ⟨o, .finishStream b⟩)
  | .read _ b, .read (some rsp) =>
      some ({ s with lease := rsp.id, leaseTtl := rsp.ttl },
        ⟨o, nextKeepAlive (B.reset b)⟩)
  | .read _ b, .read none => some (s, ⟨o, .finishStream b⟩)
  | .finishStream b, .finish code =>
      if code = .notFound then some (s, ⟨o, .resetAlive⟩)
      else
        let p := B.next (B.resetWith false b)
        some (s, ⟨o, .keepAliveSleep p.1 p.2⟩)
  | .keepAliveSleep _ b, .slept => some (s, ⟨o, .keepAliveLoop b⟩)
  -- GrantAndKeepAlive, after TryKeepAlive
  | .resetAlive, .flag => some ({ s with alive := false }, ⟨o, .setExpired⟩)
  | .setExpired, .flag => some ({ s with expired := true }, ⟨o, .loop⟩)
  -- TryRevoke
  | .leaseRevoke m n b, .leaseRevoke code =>
      if code = .ok ∨ code = .notFound then some (s, ⟨o, .setClosed⟩)
      else
        let p := B.next (B.resetWith false b)
        some (s, ⟨o, .revokeSleep m n p.1 p.2⟩)
  | .revokeSleep m n _ b, .slept => some (s, ⟨o, nextRevoke m n b⟩)
  | .setClosed, .flag => some ({ s with closed := true }, ⟨o, .ended⟩)
  | _, _ => none

/-! ## What one step can do -/

/-- The steps of the worker, one rule for each branch of the source. -/
inductive WorkerStep : Session → Worker B → Answer → Session → Worker B → Prop where
  | loopClosed {s o} : 1 ≤ revokeBudget o →
      WorkerStep s ⟨o, .loop⟩ (.finished true) s
        ⟨o, .leaseRevoke (revokeBudget o) 1 (B.new o.retryMinWaitTime o.retryMaxWaitTime)⟩
  | loopClosedNoRevoke {s o} : ¬ 1 ≤ revokeBudget o →
      WorkerStep s ⟨o, .loop⟩ (.finished true) s ⟨o, .setClosed⟩
  | loopOpen {s o} : WorkerStep s ⟨o, .loop⟩ (.finished false) s ⟨o, tryGrant o⟩
  | grantLoopClosed {s o b} :
      WorkerStep s ⟨o, .grantLoop b⟩ (.finished true) s (grantReturn s o)
  | grantLoopOpen {s o b} :
      WorkerStep s ⟨o, .grantLoop b⟩ (.finished false) s ⟨o, .leaseGrant b⟩
  | grantOk {s o b rsp} :
      WorkerStep s ⟨o, .leaseGrant b⟩ (.leaseGrant (.ok rsp))
        { s with lease := rsp.id, leaseTtl := rsp.ttl }
        (grantReturn { s with lease := rsp.id, leaseTtl := rsp.ttl } o)
  | grantError {s o b code} :
      WorkerStep s ⟨o, .leaseGrant b⟩ (.leaseGrant (.error code)) s
        ⟨o, .grantWait (B.next (B.resetWith false b)).1 (B.next (B.resetWith false b)).2⟩
  | grantWaitClosed {s o d b} :
      WorkerStep s ⟨o, .grantWait d b⟩ (.wait true) s (grantReturn s o)
  | grantWaitOver {s o d b} :
      WorkerStep s ⟨o, .grantWait d b⟩ (.wait false) s ⟨o, .grantLoop b⟩
  | grantedClosed {s o} : WorkerStep s ⟨o, .granted⟩ (.finished true) s ⟨o, .loop⟩
  | grantedOpen {s o} : WorkerStep s ⟨o, .granted⟩ (.finished false) s ⟨o, .resetExpired⟩
  | resetExpired {s o} :
      WorkerStep s ⟨o, .resetExpired⟩ .flag { s with expired := false } ⟨o, .setAlive⟩
  | setAlive {s o} :
      WorkerStep s ⟨o, .setAlive⟩ .flag { s with alive := true } ⟨o, tryKeepAlive s o⟩
  | keepAliveLoopClosed {s o b} :
      WorkerStep s ⟨o, .keepAliveLoop b⟩ (.finished true) s ⟨o, .resetAlive⟩
  | keepAliveLoopOpen {s o b} :
      WorkerStep s ⟨o, .keepAliveLoop b⟩ (.finished false) s ⟨o, .openStream b⟩
  | opened {s o b} : WorkerStep s ⟨o, .openStream b⟩ .stream s ⟨o, nextKeepAlive b⟩
  | keepAliveWaitClosed {s o d b} :
      WorkerStep s ⟨o, .keepAliveWait d b⟩ (.wait true) s ⟨o, .cancelStream⟩
  | keepAliveWaitOver {s o d b} :
      WorkerStep s ⟨o, .keepAliveWait d b⟩ (.wait false) s ⟨o, .write b⟩
  | cancelled {s o code} :
      WorkerStep s ⟨o, .cancelStream⟩ (.finish code) s ⟨o, .resetAlive⟩
  | written {s o b} :
      WorkerStep s ⟨o, .write b⟩ (.write true) s ⟨o, .read { id := s.lease } b⟩
  | writeFailed {s o b} :
      WorkerStep s ⟨o, .write b⟩ (.write false) s ⟨o, .finishStream b⟩
  | reply {s o req b rsp} :
      WorkerStep s ⟨o, .read req b⟩ (.read (some rsp))
        { s with lease := rsp.id, leaseTtl := rsp.ttl } ⟨o, nextKeepAlive (B.reset b)⟩
  | readFailed {s o req b} :
      WorkerStep s ⟨o, .read req b⟩ (.read none) s ⟨o, .finishStream b⟩
  | lost {s o b} :
      WorkerStep s ⟨o, .finishStream b⟩ (.finish .notFound) s ⟨o, .resetAlive⟩
  | failed {s o b code} : code ≠ .notFound →
      WorkerStep s ⟨o, .finishStream b⟩ (.finish code) s
        ⟨o, .keepAliveSleep (B.next (B.resetWith false b)).1 (B.next (B.resetWith false b)).2⟩
  | keepAliveSlept {s o d b} :
      WorkerStep s ⟨o, .keepAliveSleep d b⟩ .slept s ⟨o, .keepAliveLoop b⟩
  | resetAlive {s o} :
      WorkerStep s ⟨o, .resetAlive⟩ .flag { s with alive := false } ⟨o, .setExpired⟩
  | setExpired {s o} :
      WorkerStep s ⟨o, .setExpired⟩ .flag { s with expired := true } ⟨o, .loop⟩
  | revoked {s o m n b code} : code = .ok ∨ code = .notFound →
      WorkerStep s ⟨o, .leaseRevoke m n b⟩ (.leaseRevoke code) s ⟨o, .setClosed⟩
  | revokeFailed {s o m n b code} : ¬ (code = .ok ∨ code = .notFound) →
      WorkerStep s ⟨o, .leaseRevoke m n b⟩ (.leaseRevoke code) s
        ⟨o, .revokeSleep m n (B.next (B.resetWith false b)).1 (B.next (B.resetWith false b)).2⟩
  | revokeAgain {s o m n d b} : n + 1 ≤ m →
      WorkerStep s ⟨o, .revokeSleep m n d b⟩ .slept s ⟨o, .leaseRevoke m (n + 1) b⟩
  | revokeSpent {s o m n d b} : ¬ n + 1 ≤ m →
      WorkerStep s ⟨o, .revokeSleep m n d b⟩ .slept s ⟨o, .setClosed⟩
  | setClosed {s o} :
      WorkerStep s ⟨o, .setClosed⟩ .flag { s with closed := true } ⟨o, .ended⟩

/-- **The inversion of a worker step.** -/
theorem workerNext_iff {s s' : Session} {w w' : Worker B} {a : Answer} :
    workerNext s w a = some (s', w') ↔ WorkerStep s w a s' w' := by
  constructor
  · intro h
    obtain ⟨o, pc⟩ := w
    unfold workerNext at h
    simp only at h
    split at h
    -- the branches without a test of their own
    all_goals try (cases h; constructor)
    · cases h
      unfold tryRevoke nextRevoke
      split
      · rename_i hle
        exact .loopClosed (by simpa using hle)
      · rename_i hgt
        exact .loopClosedNoRevoke (by simpa using hgt)
    · split at h
      · rename_i hcode
        cases h
        subst hcode
        exact .lost
      · rename_i hcode
        cases h
        exact .failed hcode
    · split at h
      · rename_i hcode
        cases h
        exact .revoked hcode
      · rename_i hcode
        cases h
        exact .revokeFailed hcode
    · cases h
      unfold nextRevoke
      split
      · rename_i hle
        exact .revokeAgain hle
      · rename_i hgt
        exact .revokeSpent hgt
    · cases h
  · intro h
    cases h with
    | loopClosed hle => simp [workerNext, tryRevoke, nextRevoke, hle]
    | loopClosedNoRevoke hgt => simp [workerNext, tryRevoke, nextRevoke, hgt]
    | failed hcode => simp [workerNext, hcode]
    | revoked hcode => simp [workerNext, hcode]
    | revokeFailed hcode => simp [workerNext, hcode]
    | revokeAgain hle => simp [workerNext, nextRevoke, hle]
    | revokeSpent hgt => simp [workerNext, nextRevoke, hgt]
    | _ => rfl

end

end Etcdv3Client
