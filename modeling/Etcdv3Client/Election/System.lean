import Etcdv3Client.Election.Watch
import Etcdv3Client.Server

/-!
# election.cc: Watch and a store that others change

`Watch`, its two calls under way and the server. The server handles the
`Range` of `GetLeader` at one moment and `Watch` takes the reply at a later
one; a watch stream is opened, then created by the server, then delivers the
events of the history in order, in pieces of any size; every call may fail.
In between the others put and delete keys, in transactions or not, and
leases end; and they compact the history, which may cost `Watch` a watcher.
-/

namespace Etcdv3Client

namespace Election

open Transition

structure Sys (B : BackOffStrategy) where
  watch : State B
  mvcc : Mvcc
  /-- the reply to the `Range` under way -/
  reply : Option RangeResponse := none
  /-- the watcher of the stream that is open -/
  stream : Option Watcher := none

inductive SysLabel where
  /-- `Watch` takes an answer -/
  | party (a : Answer)
  /-- the server handles the `Range` -/
  | serve
  /-- the server creates the watcher -/
  | create
  /-- the server cancels a watcher that "cannot catch up" -/
  | cancel
  /-- a request of somebody else, or the end of a lease -/
  | commit (c : Commit)

section
variable {B : BackOffStrategy}

/-- The reply and the stream after `Watch` has taken an answer, where there
is that answer to take. -/
def Sys.take (call : Call) (n : Sys B) :
    Answer → Option (Option RangeResponse × Option Watcher)
  | .range (.ok rsp) => if n.reply = some rsp then some (none, n.stream) else none
  | .range (.error _) => some (none, n.stream)
  | .wait _ => some (n.reply, n.stream)
  | .stream =>
      match n.watch.request call with
      | some (.watch req) => some (n.reply, some { req := req })
      | _ => none
  | .read (some rsp) =>
      match n.stream with
      | some wr =>
          match wr.since with
          | some since =>
              if rsp.events <+: wr.pending n.mvcc since then
                some (n.reply, some { wr with delivered := wr.delivered + rsp.events.length })
              else none
          | none => none
      | none => none
  | .read none => some (n.reply, n.stream)
  | .finish _ => some (n.reply, none)

def sysStep (S : Server) (call : Call) (n : Sys B) : SysLabel → Option (Sys B)
  | .party a =>
      (n.take call a).bind fun r =>
        (step call n.watch a).map fun s => { n with watch := s, reply := r.1, stream := r.2 }
  | .serve =>
      match n.watch.request call, n.reply with
      | some (.range req), none =>
          (S.range req n.mvcc).map fun rsp => { n with reply := some rsp }
      | _, _ => none
  | .create =>
      match n.stream with
      | some wr =>
          if wr.since = none then some { n with stream := some (wr.create n.mvcc) } else none
      | none => none
  | .cancel =>
      match n.stream with
      | some wr =>
          match wr.since with
          | some since =>
              if since < n.mvcc.compacted then
                some { n with stream := some { wr with canceled := true } }
              else none
          | none => none
      | none => none
  | .commit c => (S.step n.mvcc c).map fun m => { n with mvcc := m }

/-- A call of `Watch` on a store with any past. -/
def SysInit (call : Call) (n : Sys B) : Prop :=
  Init call n.watch ∧ n.mvcc.Wf ∧ n.reply = none ∧ n.stream = none

abbrev SysRun (S : Server) (call : Call) (h : History (Sys B) SysLabel) (n : Sys B) : Prop :=
  Run (sysStep S call) (SysInit call) h n

/-! ## What one step can do -/

inductive SysStep (S : Server) (call : Call) : Sys B → SysLabel → Sys B → Prop where
  | range {n rsp s} : n.reply = some rsp → step call n.watch (.range (.ok rsp)) = some s →
      SysStep S call n (.party (.range (.ok rsp))) { n with watch := s, reply := none }
  | rangeError {n code s} : step call n.watch (.range (.error code)) = some s →
      SysStep S call n (.party (.range (.error code))) { n with watch := s, reply := none }
  | wait {n done s} : step call n.watch (.wait done) = some s →
      SysStep S call n (.party (.wait done)) { n with watch := s }
  | stream {n req s} : n.watch.request call = some (.watch req) →
      step call n.watch .stream = some s →
      SysStep S call n (.party .stream) { n with watch := s, stream := some { req := req } }
  | read {n wr since rsp s} : n.stream = some wr → wr.since = some since →
      rsp.events <+: wr.pending n.mvcc since → step call n.watch (.read (some rsp)) = some s →
      SysStep S call n (.party (.read (some rsp)))
        { n with
          watch := s
          stream := some { wr with delivered := wr.delivered + rsp.events.length } }
  | readFailed {n s} : step call n.watch (.read none) = some s →
      SysStep S call n (.party (.read none)) { n with watch := s }
  | finish {n code s} : step call n.watch (.finish code) = some s →
      SysStep S call n (.party (.finish code)) { n with watch := s, stream := none }
  | serve {n req rsp} : n.watch.request call = some (.range req) → n.reply = none →
      S.range req n.mvcc = some rsp → SysStep S call n .serve { n with reply := some rsp }
  | create {n wr} : n.stream = some wr → wr.since = none →
      SysStep S call n .create { n with stream := some (wr.create n.mvcc) }
  | cancel {n wr since} : n.stream = some wr → wr.since = some since →
      since < n.mvcc.compacted →
      SysStep S call n .cancel { n with stream := some { wr with canceled := true } }
  | commit {n c m} : S.step n.mvcc c = some m → SysStep S call n (.commit c) { n with mvcc := m }

theorem sysStep_party {S : Server} {call : Call} {n n' : Sys B} {a : Answer}
    (h : sysStep S call n (.party a) = some n') :
    ∃ r s, n.take call a = some r ∧ step call n.watch a = some s ∧
      n' = { n with watch := s, reply := r.1, stream := r.2 } := by
  simp only [sysStep, Option.bind_eq_some_iff, Option.map_eq_some_iff] at h
  obtain ⟨r, hr, s, hs, rfl⟩ := h
  exact ⟨r, s, hr, hs, rfl⟩

/-- **The inversion of a step of the system.** -/
theorem sysStep_cases {S : Server} {call : Call} {n n' : Sys B} {l : SysLabel}
    (h : sysStep S call n l = some n') : SysStep S call n l n' := by
  cases l with
  | party a =>
    obtain ⟨r, s, htake, hs, rfl⟩ := sysStep_party h
    unfold Sys.take at htake
    split at htake
    · split at htake
      · rename_i hreply
        cases htake
        exact .range hreply hs
      · cases htake
    · cases htake
      exact .rangeError hs
    · cases htake
      exact .wait hs
    · split at htake
      · rename_i hreq
        cases htake
        exact .stream hreq hs
      · cases htake
    · split at htake
      · rename_i wr hstream
        split at htake
        · rename_i since hsince
          split at htake
          · rename_i hevents
            cases htake
            exact .read hstream hsince hevents hs
          · cases htake
        · cases htake
      · cases htake
    · cases htake
      exact .readFailed hs
    · cases htake
      exact .finish hs
  | serve =>
    simp only [sysStep] at h
    split at h
    · rename_i hreq hreply
      obtain ⟨rsp, hrange, rfl⟩ := Option.map_eq_some_iff.mp h
      exact .serve hreq hreply hrange
    · cases h
  | create =>
    simp only [sysStep] at h
    split at h
    · rename_i wr hstream
      split at h
      · rename_i hsince
        cases h
        exact .create hstream hsince
      · cases h
    · cases h
  | cancel =>
    simp only [sysStep] at h
    split at h
    · rename_i wr hstream
      split at h
      · rename_i since hsince
        split at h
        · rename_i hcompacted
          cases h
          exact .cancel hstream hsince hcompacted
        · cases h
      · cases h
    · cases h
  | commit c =>
    obtain ⟨m, hstep, rfl⟩ := Option.map_eq_some_iff.mp h
    exact .commit hstep

/-! ## Watch in the system -/

/-- The steps of `Watch`. -/
def watchSteps : History (Sys B) SysLabel → History (State B) Answer
  | [] => []
  | (n, .party a) :: h => (n.watch, a) :: watchSteps h
  | _ :: h => watchSteps h

/-- `GetLeader` asks for the newest revision, not of one member only, and
leaves nothing out but by its limit. -/
theorem leaderRequest_newest (char : PlainChar) (keyPrefix : Bytes) :
    (leaderRequest char keyPrefix).serializable = false ∧
      (leaderRequest char keyPrefix).narrows = (0, (0, 0), (0, 0), false, false) := by
  obtain ⟨key, rangeEnd, hset⟩ := setPrefix_eq char ({ key := keyPrefix } : RangeRequest)
  rw [leaderRequest, rangeRequest_withFirstCreate, hset]
  exact ⟨rfl, rfl⟩

theorem request_range {call : Call} {s : State B} {req : RangeRequest}
    (h : s.request call = some (.range req)) :
    s.pc = .getLeader ∧ req = leaderRequest call.char call.keyPrefix := by
  obtain ⟨n, r, b, pc⟩ := s
  cases pc <;> simp only [State.request, Option.some.injEq, Request.range.injEq, reduceCtorEq]
    at h
  exact ⟨rfl, h.symm⟩

/-- A step of the system is one of `Watch`, or leaves it. -/
theorem sysStep_watch {S : Server} {call : Call} {n n' : Sys B} {l : SysLabel}
    (h : sysStep S call n l = some n') :
    (∃ a, l = .party a ∧ step call n.watch a = some n'.watch) ∨
      ((∀ a, l ≠ .party a) ∧ n'.watch = n.watch) := by
  cases l with
  | party a =>
    obtain ⟨r, s, -, hs, rfl⟩ := sysStep_party h
    exact Or.inl ⟨a, rfl, hs⟩
  | _ =>
    refine Or.inr ⟨nofun, ?_⟩
    cases sysStep_cases h
    rfl

/-- **The system's runs are runs of Watch.** -/
theorem SysRun.watch {S : Server} {call : Call} {h : History (Sys B) SysLabel} {n : Sys B}
    (hr : SysRun S call h n) : WatchRun call (watchSteps h) n.watch := by
  induction hr with
  | start hi => exact .start hi.1
  | @next h n n' l _ hs ih =>
    rcases sysStep_watch hs with ⟨a, rfl, ha⟩ | ⟨hl, hsame⟩
    · exact ih.next ha
    · rw [hsame]
      cases l with
      | party a => exact absurd rfl (hl a)
      | _ => exact ih

/-- The store changes by commits only, and keeps its history. -/
theorem sysStep_mvcc {S : Server} {call : Call} {n n' : Sys B} {l : SysLabel}
    (h : sysStep S call n l = some n') :
    n'.mvcc = n.mvcc ∨
      (∃ events, Mvcc.Later n.mvcc n'.mvcc events) ∧ (∀ a, l ≠ .party a) ∧
        n'.reply = n.reply ∧ n'.stream = n.stream := by
  cases sysStep_cases h with
  | commit hstep => exact Or.inr ⟨Server.step_later hstep, nofun, rfl, rfl⟩
  | _ => exact Or.inl rfl

theorem wf_step {S : Server} {call : Call} {n n' : Sys B} {l : SysLabel} (hw : n.mvcc.Wf)
    (h : sysStep S call n l = some n') : n'.mvcc.Wf := by
  cases sysStep_cases h with
  | commit hstep => exact Server.step_wf hw hstep
  | _ => exact hw

theorem wf_run {S : Server} {call : Call} {h : History (Sys B) SysLabel} {n : Sys B}
    (hr : SysRun S call h n) : n.mvcc.Wf :=
  hr.inv_state (P := fun n => n.mvcc.Wf) (fun _ hi => hi.2.1) (fun hw hs => wf_step hw hs)

/-- `Watch` is called on a server without keys. -/
def freshSys (call : Call) : Sys .constant :=
  { watch := State.new call ⟨[], [], 0, 0, 0, 0, 0⟩, mvcc := Mvcc.empty }

theorem sysInit_fresh (call : Call) : SysInit call (freshSys call) :=
  ⟨⟨_, rfl⟩, Mvcc.wf_empty, rfl, rfl⟩

end

end Election

end Etcdv3Client
