import Etcdv3Client.Lib.Monitor
import Etcdv3Client.Session.Lifecycle

/-!
# What the worker does to its stream

The contract of a stream with one call at a time: it is opened before it is
used; after a `Write` comes its `Read`; after a call that failed, or
`TryCancel`, comes `Finish` and nothing else; and `Finish` comes after one
of these only. The worker keeps to it in every run, has one stream at a
time, and none while it grants or revokes.
-/

namespace Etcdv3Client

open Transition

/-! ## The contract -/

/-- What a client does with the lease service. -/
inductive StreamEvent where
  /-- a call that is not on a stream -/
  | unary
  | open_
  | write (ok : Bool)
  | read (ok : Bool)
  | cancel
  | finish
deriving DecidableEq, Repr

/-- What it may do next. -/
inductive StreamUse where
  /-- there is no stream -/
  | idle
  /-- a request can be written -/
  | ready
  /-- a reply is to be read -/
  | awaiting
  /-- a call failed, or the stream was cancelled -/
  | over
deriving DecidableEq, Repr

/-- The contract. -/
def StreamUse.next : StreamUse → StreamEvent → Option StreamUse
  | .idle, .unary => some .idle
  | .idle, .open_ => some .ready
  | .ready, .write true => some .awaiting
  | .ready, .write false => some .over
  | .ready, .cancel => some .over
  | .awaiting, .read true => some .ready
  | .awaiting, .read false => some .over
  | .awaiting, .cancel => some .over
  | .over, .finish => some .idle
  | _, _ => none

/-- As many streams are finished as were opened, but for one in use. -/
theorem StreamUse.opened {m m' : StreamUse} {es : List StreamEvent}
    (h : reads StreamUse.next m es = some m') :
    es.count .open_ + (m != .idle).toNat = es.count .finish + (m' != .idle).toNat := by
  refine reads_countP (v := fun m => (m != StreamUse.idle).toNat) (fun hnext => ?_) h
  unfold StreamUse.next at hnext
  split at hnext <;> cases hnext <;> rfl

section
variable {B : BackOffStrategy}

/-! ## The worker's events -/

/-- What the worker does when the call at a counter answers. -/
def Pc.events : Pc B → Answer → List StreamEvent
  | .leaseGrant _, .leaseGrant _ => [.unary]
  | .leaseRevoke _ _ _, .leaseRevoke _ => [.unary]
  | .openStream _, .stream => [.open_]
  | .write _, .write ok => [.write ok]
  | .read _ _, .read rsp => [.read rsp.isSome]
  -- `context->TryCancel(); keep_alive_rw->Finish()`
  | .cancelStream, .finish _ => [.cancel, .finish]
  | .finishStream _, .finish _ => [.finish]
  | _, _ => []

def State.events (s : State B) : Label → List StreamEvent
  | .worker a =>
      match s.thread with
      | .started w => w.pc.events a
      | _ => []
  | _ => []

/-- What the worker may do with its stream at each counter. -/
def Pc.streamUse : Pc B → StreamUse
  | .keepAliveWait _ _ | .cancelStream | .write _ => .ready
  | .read _ _ => .awaiting
  | .finishStream _ => .over
  | _ => .idle

def State.streamUse (s : State B) : StreamUse :=
  match s.thread with
  | .started w => w.pc.streamUse
  | _ => .idle

/-- The worker's step does what the contract allows. -/
theorem WorkerStep.reads_stream {s s' : Session} {w w' : Worker B} {a : Answer}
    (hw : WorkerStep s w a s' w') :
    reads StreamUse.next w.pc.streamUse (w.pc.events a) = some w'.pc.streamUse := by
  cases hw <;> rfl

theorem reads_stream_step {s s' : State B} {l : Label} (hinv : Inv s)
    (hs : step s l = some s') :
    reads StreamUse.next s.streamUse (s.events l) = some s'.streamUse := by
  cases step_iff.mp hs with
  | @worker w a r w' ht _ hw =>
    have hevents : s.events (.worker a) = w.pc.events a := by rw [State.events, ht]
    have huse : s.streamUse = w.pc.streamUse := by rw [State.streamUse, ht]
    rw [hevents, huse]
    exact hw.reads_stream
  | @grantOk o _ _ hg =>
    have huse : s.streamUse = .idle := by rw [State.streamUse, hinv.thread_none hg]
    rw [huse]
    rfl
  | @closeJoined w _ ht he =>
    have huse : s.streamUse = .idle := by
      rw [State.streamUse, ht]
      obtain ⟨o, pc⟩ := w
      cases pc <;> first | rfl | cases he
    rw [huse]
    rfl
  | _ => rfl

/-- **The stream is used by its contract.** In every run the calls of the
worker, in their order, keep to the contract; and where there is no worker,
or it has ended, every stream that was opened has been finished. -/
theorem stream_contract {h : History (State B) Label} {s : State B} (hr : SRun h s) :
    (reads StreamUse.next .idle (eventsOf State.events h)).isSome = true ∧
    (s.thread.joinable = false ∨ s.thread.hasEnded = true →
      (eventsOf State.events h).count .open_ = (eventsOf State.events h).count .finish) := by
  have hreads : reads StreamUse.next .idle (eventsOf State.events h) = some s.streamUse := by
    refine Run.monitored State.streamUse ?_ ?_ hr
    · intro s hs
      obtain ⟨lease, leaseTtl, rfl⟩ := hs
      rfl
    · exact fun hr' hs => reads_stream_step (inv_run hr') hs
  refine ⟨by rw [hreads]; rfl, fun hend => ?_⟩
  have hidle : s.streamUse = .idle := by
    unfold State.streamUse
    cases ht : s.thread with
    | started w =>
      rw [ht] at hend
      have he : w.pc.isEnded = true := hend.resolve_left (by simp [Thread.joinable])
      obtain ⟨o, pc⟩ := w
      cases pc <;> first | rfl | cases he
    | _ => rfl
  rw [hidle] at hreads
  exact StreamUse.opened hreads

/-- A session whose request is lost once, and which is closed while it
waits on the next stream. -/
def twoStreamsScript : List Label :=
  announceScript .new { id := 7, ttl := 60 } ++ openScript ++
    [.worker (.write true), .worker (.read (some { id := 7, ttl := 60 })), .worker (.wait false),
      .worker (.write false), .worker (.finish .unavailable), .worker .slept,
      .worker (.finished false), .worker .stream, .close, .worker (.wait true),
      .worker (.finish .cancelled), .worker .flag, .worker .flag, .worker (.finished true),
      .worker (.leaseRevoke .ok), .worker .flag, .closeReturn]

/-- Both streams are finished, the second one cancelled. -/
theorem stream_contract_two :
    ∃ h s, exec step [] (State.new 5 0 : State .constant) twoStreamsScript = some (h, s) ∧
      eventsOf State.events h = [.unary, .open_, .write true, .read true, .write false, .finish,
        .open_, .cancel, .finish, .unary] ∧
      (eventsOf State.events h).count .open_ = (eventsOf State.events h).count .finish := by
  refine ⟨_, _, rfl, rfl, ?_⟩
  exact (stream_contract (Run.exec (.start ⟨5, 0, rfl⟩)
    (rfl : exec step [] (State.new 5 0 : State .constant) twoStreamsScript = some (_, _)))).2
    (Or.inl rfl)

end

end Etcdv3Client
