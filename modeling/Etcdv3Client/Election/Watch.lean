import Etcdv3Client.Election.Node
import Etcdv3Client.Lib.Run
import Etcdv3Client.Watch

/-!
# election.cc: Watch

The three nested loops of `ElectionImpl::Watch` as a machine: a program
counter for each call that the environment answers, with the round's watch
options and awaited event; the node, the revision and the backoff are its
variables. What the source does between two such calls is part of the step
that takes the answer. Revisions are integers: at the two ends of `int64`
the source's `+ 1` and `- 1` are undefined.
-/

namespace Etcdv3Client

/-- `ElectionWatchOptions`. Its `revision_` has no initializer. -/
structure ElectionWatchOptions where
  revision : Int
deriving DecidableEq, Repr

def ElectionWatchOptions.withRevision (revision : Int) (o : ElectionWatchOptions) :
    ElectionWatchOptions :=
  { o with revision := revision }

namespace Election

open Transition

/-- The arguments of `Watch` that do not change, and the platform's
`char`. -/
structure Call where
  char : PlainChar
  keyPrefix : Bytes
  options : ElectionWatchOptions

inductive Pc where
  /-- `client_->Range(...)` in `GetLeader` -/
  | getLeader
  /-- `ctx->Wait(backoff.Next())` after it failed -/
  | getLeaderWait (d : ℚ)
  /-- `client_->WatchSingle(...)` -/
  | watchSingle (watchOptions : WatchOptions) (watchEvent : EventType)
  /-- `watch_rw->Read(&watch_rsp)` -/
  | read (watchOptions : WatchOptions) (watchEvent : EventType)
  /-- `watch_rw->Finish()`, the event found -/
  | finishFound
  /-- `watch_rw->Finish()` after a failed `Read` -/
  | finishError (watchOptions : WatchOptions) (watchEvent : EventType)
  /-- `ctx->Wait(backoff.Next())` before another watch request -/
  | watchWait (d : ℚ) (watchOptions : WatchOptions) (watchEvent : EventType)
  | returned (status : Status)

/-- What the call answers. -/
inductive Answer where
  | range (r : Except GrpcCode RangeResponse)
  /-- `ctx->Wait`: whether the context is done -/
  | wait (done : Bool)
  /-- `WatchSingle` gave the stream -/
  | stream
  | read (rsp : Option WatchResponse)
  | finish (code : GrpcCode)

/-- The variables of `Watch`; the node is the caller's. -/
structure State (B : BackOffStrategy) where
  node : ElectionNode
  revision : Int
  backoff : B.State
  pc : Pc

section
variable {B : BackOffStrategy}

def State.new (call : Call) (node : ElectionNode) : State B :=
  { node := node, revision := call.options.revision, backoff := B.new 1 10, pc := .getLeader }

/-- `return Status()` after a read. -/
def State.isNew (s : State B) : Bool :=
  s.node.isValid && (s.revision == 0 || s.revision < s.node.createRevision)

/-- `revision` as it is set "to watch new leader". -/
def State.watchFrom (s : State B) : Int :=
  if s.node.isValid then max (s.node.watchRevision + 1) s.revision else s.revision

/-- From a successful `GetLeader` to the return or the first `WatchSingle`
of the round. -/
def afterLeader (call : Call) (s : State B) : State B :=
  if s.isNew then { s with pc := .returned {} }
  else
    let watchOptions :=
      (WatchOptions.withPrefix call.char {}).withStartRevision s.watchFrom
    { s with
      backoff := B.reset s.backoff
      revision := s.watchFrom
      pc :=
        if s.node.isValid then .watchSingle watchOptions.withNoPut .delete
        else .watchSingle watchOptions.withNoDelete .put }

/-- The `for` loop over the events of a response: the first one of the
awaited type. -/
def findEvent (watchEvent : EventType) (rsp : WatchResponse) : Option Event :=
  rsp.events.find? fun event => event.type == watchEvent

/-- One step of `Watch` with an answer. -/
def step (call : Call) (s : State B) (a : Answer) : Option (State B) :=
  match s.pc, a with
  | .getLeader, .range r =>
      let p := getLeaderReply s.node r
      if p.1.isOk then some (afterLeader call { s with node := p.2 })
      else
        let q := B.next (B.resetWith false s.backoff)
        some { s with node := p.2, backoff := q.2, pc := .getLeaderWait q.1 }
  | .getLeaderWait _, .wait true => some { s with pc := .returned { code := .cancelled } }
  | .getLeaderWait _, .wait false => some { s with pc := .getLeader }
  | .watchSingle o e, .stream => some { s with pc := .read o e }
  | .read o e, .read (some rsp) =>
      match findEvent e rsp with
      | some event =>
          some { s with revision := event.kv.createRevision - 1, pc := .finishFound }
      | none => some { s with pc := .read o e }
  | .read o e, .read none => some { s with pc := .finishError o e }
  | .finishFound, .finish _ => some { s with pc := .getLeader }
  | .finishError o e, .finish _ =>
      let q := B.next (B.resetWith false s.backoff)
      some { s with backoff := q.2, pc := .watchWait q.1 o e }
  | .watchWait _ _ _, .wait true => some { s with pc := .returned { code := .cancelled } }
  | .watchWait _ o e, .wait false => some { s with pc := .watchSingle o e }
  | _, _ => none

/-- A call of `Watch` with any node. -/
def Init (call : Call) (s : State B) : Prop := ∃ node, s = State.new call node

abbrev WatchRun (call : Call) (h : History (State B) Answer) (s : State B) : Prop :=
  Run (step call) (Init call) h s

/-- What `Watch` sends. -/
inductive Request where
  | range (req : RangeRequest)
  | watch (req : WatchCreateRequest)
deriving DecidableEq, Repr

/-- The request about to be sent. -/
def State.request (call : Call) (s : State B) : Option Request :=
  match s.pc with
  | .getLeader => some (.range (leaderRequest call.char call.keyPrefix))
  | .watchSingle o _ => some (.watch (Client.watchSingleRequest call.keyPrefix o))
  | _ => none

/-- The status `Watch` has returned. -/
def State.status (s : State B) : Option Status :=
  match s.pc with
  | .returned status => some status
  | _ => none

/-! ## What one step can do -/

/-- The steps of `Watch`, one rule for each branch of the source. -/
inductive WatchStep (call : Call) : State B → Answer → State B → Prop where
  | leader {n r b rsp} :
      WatchStep call ⟨n, r, b, .getLeader⟩ (.range (.ok rsp))
        (afterLeader call ⟨(getLeaderReply n (.ok rsp)).2, r, b, .getLeader⟩)
  | leaderError {n r b code} :
      WatchStep call ⟨n, r, b, .getLeader⟩ (.range (.error code))
        ⟨n, r, (B.next (B.resetWith false b)).2, .getLeaderWait (B.next (B.resetWith false b)).1⟩
  | leaderWaitDone {n r b d} :
      WatchStep call ⟨n, r, b, .getLeaderWait d⟩ (.wait true)
        ⟨n, r, b, .returned { code := .cancelled }⟩
  | leaderWaitOver {n r b d} :
      WatchStep call ⟨n, r, b, .getLeaderWait d⟩ (.wait false) ⟨n, r, b, .getLeader⟩
  | opened {n r b o e} :
      WatchStep call ⟨n, r, b, .watchSingle o e⟩ .stream ⟨n, r, b, .read o e⟩
  | found {n r b o e rsp event} : findEvent e rsp = some event →
      WatchStep call ⟨n, r, b, .read o e⟩ (.read (some rsp))
        ⟨n, event.kv.createRevision - 1, b, .finishFound⟩
  | notFound {n r b o e rsp} : findEvent e rsp = none →
      WatchStep call ⟨n, r, b, .read o e⟩ (.read (some rsp)) ⟨n, r, b, .read o e⟩
  | readFailed {n r b o e} :
      WatchStep call ⟨n, r, b, .read o e⟩ (.read none) ⟨n, r, b, .finishError o e⟩
  | roundOver {n r b code} :
      WatchStep call ⟨n, r, b, .finishFound⟩ (.finish code) ⟨n, r, b, .getLeader⟩
  | failed {n r b o e code} :
      WatchStep call ⟨n, r, b, .finishError o e⟩ (.finish code)
        ⟨n, r, (B.next (B.resetWith false b)).2,
          .watchWait (B.next (B.resetWith false b)).1 o e⟩
  | watchWaitDone {n r b d o e} :
      WatchStep call ⟨n, r, b, .watchWait d o e⟩ (.wait true)
        ⟨n, r, b, .returned { code := .cancelled }⟩
  | watchWaitOver {n r b d o e} :
      WatchStep call ⟨n, r, b, .watchWait d o e⟩ (.wait false) ⟨n, r, b, .watchSingle o e⟩

/-- **The inversion of a step of `Watch`.** -/
theorem step_iff {call : Call} {s s' : State B} {a : Answer} :
    step call s a = some s' ↔ WatchStep call s a s' := by
  constructor
  · intro h
    obtain ⟨n, r, b, pc⟩ := s
    unfold step at h
    simp only at h
    split at h
    · rename_i reply
      cases reply with
      | error code =>
        simp only [getLeaderReply, Status.isOk] at h
        cases h
        exact .leaderError
      | ok rsp =>
        rw [if_pos ((getLeaderReply_isOk n _).mpr ⟨rsp, rfl⟩)] at h
        cases h
        exact .leader
    · cases h
      exact .leaderWaitDone
    · cases h
      exact .leaderWaitOver
    · cases h
      exact .opened
    · split at h
      · rename_i hfound
        cases h
        exact .found hfound
      · rename_i hnone
        cases h
        exact .notFound hnone
    · cases h
      exact .readFailed
    · cases h
      exact .roundOver
    · cases h
      exact .failed
    · cases h
      exact .watchWaitDone
    · cases h
      exact .watchWaitOver
    · cases h
  · intro h
    cases h with
    | @leader n r b rsp =>
      simp only [step]
      rw [if_pos ((getLeaderReply_isOk n _).mpr ⟨rsp, rfl⟩)]
    | found hfound => simp only [step, hfound]
    | notFound hnone => simp only [step, hnone]
    | _ => rfl

/-- What follows a successful `GetLeader`: the return, the wait for a new
leader, or the wait for a first one. -/
theorem afterLeader_cases (call : Call) (s : State B) :
    (s.isNew = true ∧ afterLeader call s = { s with pc := .returned {} }) ∨
    (s.isNew = false ∧ ∃ o e, afterLeader call s =
        { s with backoff := B.reset s.backoff, revision := s.watchFrom, pc := .watchSingle o e } ∧
      (Client.watchSingleRequest call.keyPrefix o).startRevision = s.watchFrom) := by
  unfold afterLeader
  cases hnew : s.isNew with
  | true => exact Or.inl ⟨rfl, rfl⟩
  | false =>
    refine Or.inr ⟨rfl, ?_⟩
    cases hv : s.node.isValid with
    | true =>
      exact ⟨_, _, rfl, by simp [Client.watchSingleRequest, WatchOptions.withNoPut,
        WatchOptions.withStartRevision]⟩
    | false =>
      exact ⟨_, _, rfl, by simp [Client.watchSingleRequest, WatchOptions.withNoDelete,
        WatchOptions.withStartRevision]⟩

end

end Election

end Etcdv3Client
