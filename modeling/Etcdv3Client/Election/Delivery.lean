import Etcdv3Client.Election.Forward
import Etcdv3Client.Election.System

/-!
# What the streams deliver

A round reads one stream after another until an event of the kind it awaits
comes. Whatever fails and restarts, however the events are cut into
responses and whoever commits in between, it ends on the first such event of
the history.
-/

namespace Etcdv3Client

namespace Election

open Transition

section
variable {B : BackOffStrategy}

/-! ## The options of a round -/

/-- The options of the round, and the kind of event that it awaits. -/
def Pc.round : Pc → Option (WatchOptions × EventType)
  | .watchSingle o e | .read o e | .finishError o e | .watchWait _ o e => some (o, e)
  | _ => none

/-- The request of a round. -/
def roundRequest (call : Call) (o : WatchOptions) : WatchCreateRequest :=
  Client.watchSingleRequest call.keyPrefix o

/-- The request's filters leave the kind of event that the round awaits, and
it is for the keys of the election. -/
structure RoundOf (call : Call) (o : WatchOptions) (e : EventType) : Prop where
  filters : ∀ filter ∈ (roundRequest call o).filters, filter.drops e = false
  keys : ∀ s, Requests (roundRequest call o) s ↔
    Requests (leaderRequest call.char call.keyPrefix) s

theorem setPrefix_filters (char : PlainChar) (req : WatchCreateRequest) :
    (setPrefix char req).filters = req.filters := by
  unfold setPrefix
  split <;> rfl

/-- `GetLeader` and the watch ask for the same keys. -/
theorem requests_prefix {call : Call} {o : WatchOptions}
    (h : ∀ req : WatchCreateRequest,
      KeyRange.key (o.apply req) = KeyRange.key (setPrefix call.char req) ∧
        KeyRange.rangeEnd (o.apply req) = KeyRange.rangeEnd (setPrefix call.char req))
    (s : Bytes) :
    Requests (roundRequest call o) s ↔ Requests (leaderRequest call.char call.keyPrefix) s := by
  obtain ⟨hkey, hend⟩ := h { key := call.keyPrefix }
  unfold Requests roundRequest Client.watchSingleRequest
  rw [hkey, hend, leaderRequest, rangeRequest_withFirstCreate]
  by_cases hnil : call.keyPrefix = []
  · simp [setPrefix, hnil, KeyRange.key, KeyRange.rangeEnd, KeyRange.setKey, KeyRange.setRangeEnd]
  · simp [setPrefix, hnil, KeyRange.key, KeyRange.rangeEnd, KeyRange.setRangeEnd]

theorem afterLeader_round {call : Call} {s : State B} {o : WatchOptions} {e : EventType}
    (h : (afterLeader call s).pc = .watchSingle o e) : RoundOf call o e := by
  unfold afterLeader at h
  split at h
  · cases h
  · dsimp only at h
    split at h
    · cases h
      refine ⟨?_, requests_prefix fun req => ?_⟩
      · intro filter hfilter
        rw [show (roundRequest call _).filters = [FilterType.noput] by
          simp [roundRequest, Client.watchSingleRequest, WatchOptions.withNoPut,
            WatchOptions.withStartRevision, WatchOptions.withPrefix, setPrefix_filters],
          List.mem_singleton] at hfilter
        rw [hfilter]
        rfl
      · simp [WatchOptions.withNoPut, WatchOptions.withStartRevision, WatchOptions.withPrefix,
          KeyRange.key, KeyRange.rangeEnd]
    · cases h
      refine ⟨?_, requests_prefix fun req => ?_⟩
      · intro filter hfilter
        rw [show (roundRequest call _).filters = [FilterType.nodelete] by
          simp [roundRequest, Client.watchSingleRequest, WatchOptions.withNoDelete,
            WatchOptions.withStartRevision, WatchOptions.withPrefix, setPrefix_filters],
          List.mem_singleton] at hfilter
        rw [hfilter]
        rfl
      · simp [WatchOptions.withNoDelete, WatchOptions.withStartRevision, WatchOptions.withPrefix,
          KeyRange.key, KeyRange.rangeEnd]

/-- A round goes on as it began, and a new one begins with a read. -/
theorem round_step {call : Call} {s s' : State B} {a : Answer} {o : WatchOptions} {e : EventType}
    (hs : step call s a = some s') (h : s'.pc.round = some (o, e)) :
    (s.pc.round = some (o, e) ∧ a.reply = none) ∨
      RoundOf call o e ∧ s.pc = .getLeader ∧ ∃ rsp, a = .range (.ok rsp) ∧
        s' = afterLeader call (s.withReply rsp) := by
  cases step_iff.mp hs with
  | @leader n r b rsp =>
    refine Or.inr ⟨?_, rfl, rsp, rfl, rfl⟩
    rcases afterLeader_cases call ⟨(getLeaderReply n (.ok rsp)).2, r, b, .getLeader⟩ with
      ⟨-, hret⟩ | ⟨-, o', e', hwatch, -⟩
    · rw [hret] at h
      cases h
    · have hpc := congrArg State.pc hwatch
      rw [hwatch] at h
      cases h
      exact afterLeader_round hpc
  | opened => exact Or.inl ⟨h, rfl⟩
  | notFound => exact Or.inl ⟨h, rfl⟩
  | readFailed => exact Or.inl ⟨h, rfl⟩
  | failed => exact Or.inl ⟨h, rfl⟩
  | watchWaitOver => exact Or.inl ⟨h, rfl⟩
  | _ => cases h

theorem roundOf_run {call : Call} {h : History (State B) Answer} {s : State B}
    (hr : WatchRun call h s) {o : WatchOptions} {e : EventType}
    (hround : s.pc.round = some (o, e)) : RoundOf call o e := by
  refine hr.inv_state (P := fun s => ∀ o e, s.pc.round = some (o, e) → RoundOf call o e)
    ?_ ?_ o e hround
  · intro s ⟨node, hs⟩ o e h
    rw [hs] at h
    cases h
  · intro s s' a hi hs o e h
    rcases round_step hs h with ⟨h', -⟩ | ⟨hround, -⟩
    · exact hi o e h'
    · exact hround

/-! ## The stream of a round -/

/-- Where a watcher of the request begins. -/
def BeginsAt (req : WatchCreateRequest) (since : Int) : Prop :=
  since = req.startRevision ∨ req.startRevision = 0 ∧ 1 ≤ since

/-- The event is one of a kind. -/
def Event.isOf (e : EventType) (event : Event) : Bool := event.type == e

/-- While the round reads, its watcher is for its request, and no event
delivered to it was awaited. -/
structure ReadsOn (req : WatchCreateRequest) (e : EventType) (log : List Event) (wr : Watcher) :
    Prop where
  req_eq : wr.req = req
  fresh : wr.since = none → wr.delivered = 0
  passed : ∀ since, wr.since = some since → BeginsAt req since ∧
    Cursor.Passed (req.carries since) (Event.isOf e) log wr.delivered

def Reading (call : Call) (n : Sys B) : Prop :=
  ∀ o e, n.watch.pc = .read o e →
    ∃ wr, n.stream = some wr ∧ ReadsOn (roundRequest call o) e n.mvcc.log wr

theorem startsAt_begins {m : Mvcc} (hw : m.Wf) (req : WatchCreateRequest) :
    BeginsAt req (startsAt m req) := by
  have hpos := hw.positive
  unfold BeginsAt startsAt
  split
  · rename_i h0
    exact Or.inr ⟨h0, by omega⟩
  · exact Or.inl rfl

theorem ReadsOn.grow {req : WatchCreateRequest} {e : EventType} {log : List Event} {wr : Watcher}
    (h : ReadsOn req e log wr) (more : List Event) : ReadsOn req e (log ++ more) wr :=
  ⟨h.req_eq, h.fresh, fun since hs => ⟨(h.passed since hs).1, (h.passed since hs).2.grow more⟩⟩

/-- Where a step comes to read: the stream was opened, or nothing was found. -/
theorem read_step {call : Call} {s s' : State B} {a : Answer} {o : WatchOptions} {e : EventType}
    (hs : step call s a = some s') (h : s'.pc = .read o e) :
    (s.pc = .watchSingle o e ∧ a = .stream) ∨
      s.pc = .read o e ∧ ∃ rsp, a = .read (some rsp) ∧ findEvent e rsp = none := by
  cases step_iff.mp hs with
  | @leader n r b rsp =>
    rcases afterLeader_cases call ⟨(getLeaderReply n (.ok rsp)).2, r, b, .getLeader⟩ with
      ⟨-, hret⟩ | ⟨-, o', e', hwatch, -⟩
    · rw [hret] at h
      cases h
    · rw [hwatch] at h
      cases h
  | opened =>
    cases h
    exact Or.inl ⟨rfl, rfl⟩
  | notFound hnone =>
    cases h
    exact Or.inr ⟨rfl, _, rfl, hnone⟩
  | _ => cases h

theorem findEvent_none {e : EventType} {rsp : WatchResponse} (h : findEvent e rsp = none) :
    ∀ event ∈ rsp.events, Event.isOf e event = false := by
  intro event hevent
  have hno := List.find?_eq_none.mp h event hevent
  simpa [Event.isOf] using hno

/-- The server creates the watcher of a round. -/
theorem ReadsOn.create {req : WatchCreateRequest} {e : EventType} {m : Mvcc} {wr : Watcher}
    (h : ReadsOn req e m.log wr) (hw : m.Wf) (hnone : wr.since = none) :
    ReadsOn req e m.log (wr.create m) := by
  refine ⟨h.req_eq, nofun, fun since hsince => ?_⟩
  cases hsince
  rw [h.req_eq, show (wr.create m).delivered = 0 from h.fresh hnone]
  exact ⟨startsAt_begins hw _, Cursor.passed_zero _ _ _⟩

/-- A response without an awaited event. -/
theorem ReadsOn.read {req : WatchCreateRequest} {e : EventType} {m : Mvcc} {wr : Watcher}
    {since : Int} {rsp : WatchResponse} (h : ReadsOn req e m.log wr)
    (hsince : wr.since = some since) (hevents : rsp.events <+: wr.pending m since)
    (hnone : findEvent e rsp = none) :
    ReadsOn req e m.log { wr with delivered := wr.delivered + rsp.events.length } := by
  obtain ⟨hbegins, hpassed⟩ := h.passed since hsince
  have hprefix := Watcher.prefix_of_pending hevents
  rw [h.req_eq] at hprefix
  refine ⟨h.req_eq, fun hnot => ?_, fun since' hsince' => ?_⟩
  · cases hsince.symm.trans hnot
  · cases hsince.symm.trans hsince'
    exact ⟨hbegins, hpassed.give hprefix (findEvent_none hnone)⟩

theorem reading_step {S : Server} {call : Call} {n n' : Sys B} {l : SysLabel}
    (hw : n.mvcc.Wf) (hi : Reading call n) (hs : sysStep S call n l = some n') :
    Reading call n' := by
  intro o e hpc
  rcases sysStep_watch hs with ⟨a, rfl, hs'⟩ | ⟨hl, hwatch⟩
  · rcases read_step hs' hpc with ⟨hpc', rfl⟩ | ⟨hpc', rsp, rfl, hnone⟩
    · cases sysStep_cases hs with
      | stream hreq _ =>
        -- the request about to be sent is the round's
        simp only [State.request, hpc', Option.some.injEq, Request.watch.injEq] at hreq
        exact ⟨_, rfl, hreq.symm, fun _ => rfl, fun _ h => by cases h⟩
    · obtain ⟨wr, hwr, hreads⟩ := hi o e hpc'
      cases sysStep_cases hs with
      | read hstream hsince hevents _ =>
        cases hstream.symm.trans hwr
        exact ⟨_, rfl, hreads.read hsince hevents hnone⟩
  · rw [hwatch] at hpc
    obtain ⟨wr, hwr, hreads⟩ := hi o e hpc
    cases sysStep_cases hs with
    | serve => exact ⟨wr, hwr, hreads⟩
    | create hstream hnone =>
      cases hstream.symm.trans hwr
      exact ⟨_, rfl, hreads.create hw hnone⟩
    | cancel hstream hsince _ =>
      cases hstream.symm.trans hwr
      exact ⟨_, rfl, hreads.req_eq, fun hnot => (by cases hsince.symm.trans hnot), hreads.passed⟩
    | commit hstep =>
      -- the history grows
      obtain ⟨events, hlater⟩ := Server.step_later hstep
      refine ⟨wr, hwr, ?_⟩
      show ReadsOn _ _ (_ : Mvcc).log wr
      rw [hlater.log]
      exact hreads.grow events
    | _ => exact absurd rfl (hl _)

theorem reading_run {S : Server} {call : Call} {h : History (Sys B) SysLabel} {n : Sys B}
    (hr : SysRun S call h n) : Reading call n := by
  have hboth : n.mvcc.Wf ∧ Reading call n := by
    refine hr.inv_state (P := fun n => n.mvcc.Wf ∧ Reading call n) ?_ ?_
    · intro n hinit
      obtain ⟨⟨node, hwatch⟩, hw, -⟩ := hinit
      refine ⟨hw, fun o e hpc => ?_⟩
      rw [hwatch] at hpc
      cases hpc
    · exact fun hi hs => ⟨wf_step hi.1 hs, reading_step hi.1 hi.2 hs⟩
  exact hboth.2

/-! ## The event that ends a round -/

/-- An event of the kind that is awaited, from `since` on, under a key that
`GetLeader` asks for too. -/
def Awaited (call : Call) (e : EventType) (since : Int) (event : Event) : Prop :=
  since ≤ event.kv.modRevision ∧ Requests (leaderRequest call.char call.keyPrefix) event.kv.key ∧
    event.type = e

theorem RoundOf.awaited_iff {call : Call} {o : WatchOptions} {e : EventType}
    (h : RoundOf call o e) {since : Int} {event : Event} :
    (roundRequest call o).carries since event = true ∧ Event.isOf e event = true ↔
      Awaited call e since event := by
  rw [WatchCreateRequest.carries_iff, h.keys, Event.isOf, beq_iff_eq]
  constructor
  · intro ⟨⟨hsince, hreq, _⟩, hkind⟩
    exact ⟨hsince, hreq, hkind⟩
  · intro ⟨hsince, hreq, hkind⟩
    exact ⟨⟨hsince, hreq, fun filter hfilter => hkind ▸ h.filters filter hfilter⟩, hkind⟩

/-- The event that ends a round is one of the history that the round awaits,
and none before it is, from where the watcher of its stream begins: at the
request's `start_revision`, or where that is 0 when the server created it. -/
def EndsOnFirst (call : Call) (_ : History (Sys B) SysLabel) (n : Sys B) (l : SysLabel) : Prop :=
  ∀ o e rsp event, n.watch.pc = .read o e → l = .party (.read (some rsp)) →
    findEvent e rsp = some event →
    ∃ wr since, n.stream = some wr ∧ wr.req = roundRequest call o ∧ wr.since = some since ∧
      BeginsAt (roundRequest call o) since ∧ event ∈ n.mvcc.log ∧ Awaited call e since event ∧
      ∀ event' ∈ n.mvcc.log, Awaited call e since event' →
        event.kv.modRevision ≤ event'.kv.modRevision

theorem endsOnFirst_step {S : Server} {call : Call} {h : History (Sys B) SysLabel}
    {n n' : Sys B} {l : SysLabel} (hr : SysRun S call h n) (hs : sysStep S call n l = some n') :
    EndsOnFirst call h n l := by
  intro o e rsp event hpc hl hfound
  subst hl
  have hround : RoundOf call o e := roundOf_run hr.watch (by rw [hpc]; rfl)
  obtain ⟨wr, hwr, hreads⟩ := reading_run hr o e hpc
  cases sysStep_cases hs with
  | @read _ since _ _ hstream hsince hevents _ =>
    cases hstream.symm.trans hwr
    obtain ⟨hbegins, hpassed⟩ := hreads.passed since hsince
    have hprefix := Watcher.prefix_of_pending hevents
    rw [hreads.req_eq] at hprefix
    have hfirst := hpassed.find hprefix hfound
    obtain ⟨hmem, hcarries⟩ := List.mem_filter.mp (List.mem_of_find?_eq_some hfirst)
    have hkind := List.find?_some hfirst
    refine ⟨wr, since, hwr, hreads.req_eq, hsince, hbegins, hmem,
      hround.awaited_iff.mp ⟨hcarries, hkind⟩, ?_⟩
    intro event' hmem' hawaited'
    obtain ⟨hcarries', hkind'⟩ := hround.awaited_iff.mpr hawaited'
    exact Cursor.find?_rel (R := fun a b : Event => a.kv.modRevision ≤ b.kv.modRevision)
      (fun _ => le_refl _) ((wf_run hr).ordered.filter _) hfirst
      (List.mem_filter.mpr ⟨hmem', hcarries'⟩) hkind'

/-- **Every round ends on the first event it awaits.** In every run of
`Watch` against a changing store, whatever fails, however often a stream is
opened again and however the server cuts the events into responses. -/
theorem rounds_end_on_first {S : Server} {call : Call} {h : History (Sys B) SysLabel} {n : Sys B}
    (hr : SysRun S call h n) : Along (EndsOnFirst call) h := by
  induction hr with
  | start _ => trivial
  | next hr hs ih => exact ⟨ih, endsOnFirst_step hr hs⟩

/-- A leader comes at 2, and `Watch` reads it. -/
def firstReadScript : List SysLabel :=
  [.commit (.request (.put { key := [0x61], lease := 1 })), .serve,
    .party (reply 2
      [{ key := [0x61], createRevision := 2, modRevision := 2, version := 1, lease := 1 }]),
    .party .stream, .create]

/-- The stream fails and is opened again; the leader goes at 3 and another
comes at 4; the server sends a response without an event first. -/
def retriedReadScript : List SysLabel :=
  firstReadScript ++
    [.party (.read none), .party (.finish .unavailable),
      .commit (.request (.deleteRange { key := [0x61] })), .party (.wait false), .party .stream,
      .create,
      .commit (.request (.put { key := [0x61, 0x62], lease := 2 })), .party (.read (some {})),
      .party (.read (some { events := [⟨.delete, { key := [0x61], modRevision := 3 }⟩] }))]

theorem rounds_end_on_first_retried :
    ∃ h n, exec (sysStep sampleServer (electionA 2)) [] (freshSys (electionA 2))
        retriedReadScript = some (h, n) ∧
      endedMods (watchSteps h) = [3] ∧ Along (EndsOnFirst (electionA 2)) h := by
  have hrun : (exec (sysStep sampleServer (electionA 2)) [] (freshSys (electionA 2))
      retriedReadScript).map (fun r => endedMods (watchSteps r.1)) = some [3] := by
    decide +kernel
  obtain ⟨⟨h, n⟩, hexec, hmods⟩ := Option.map_eq_some_iff.mp hrun
  exact ⟨h, n, hexec, hmods, rounds_end_on_first (Run.exec (.start (sysInit_fresh _)) hexec)⟩

end

end Election

end Etcdv3Client
