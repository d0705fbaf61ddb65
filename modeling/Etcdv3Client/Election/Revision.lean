import Etcdv3Client.Election.Watch

/-!
# What Watch remembers between rounds

`revision` starts as the caller's and is overwritten by every event that
ends a round. Two laws rest on it: the leader that `Watch` returns is newer
than the caller's revision, and every watch request starts no later than
the revision after the read. Each is kept exactly where what the events
carry lets it be.
-/

namespace Etcdv3Client

namespace Election

open Transition

section
variable {B : BackOffStrategy}

/-! ## The revision between rounds -/

/-- The `create_revision` of the event that ends the round. -/
def endedBy (s : State B) (a : Answer) : Option Int :=
  match s.pc, a with
  | .read _ e, .read (some rsp) => (findEvent e rsp).map fun event => event.kv.createRevision
  | _, _ => none

/-- The same of the last round that an event ended. -/
def lastEnded (h : History (State B) Answer) : Option Int :=
  h.findSome? fun p => endedBy p.1 p.2

/-- What `revision` holds between rounds. -/
def bound (call : Call) (h : History (State B) Answer) : Int :=
  match lastEnded h with
  | none => call.options.revision
  | some e => e - 1

/-- A successful Range reply. -/
def Answer.reply : Answer → Option RangeResponse
  | .range (.ok rsp) => some rsp
  | _ => none

theorem forall_reply {rsp : RangeResponse} {P : RangeResponse → Prop} :
    (∀ rsp' ∈ (Answer.range (.ok rsp)).reply, P rsp') ↔ P rsp := by
  constructor
  · intro h
    exact h rsp rfl
  · intro h rsp' hrsp
    cases hrsp
    exact h

/-- The last read. -/
def lastReply (h : History (State B) Answer) : Option RangeResponse :=
  h.findSome? fun p => p.2.reply

/-- The store revision of the last read. -/
def readRevision (h : History (State B) Answer) : Option Int :=
  (lastReply h).map fun rsp => rsp.header.revision

/-- The counters from the end of a round to the read of the next. -/
def Pc.betweenRounds : Pc → Bool
  | .getLeader | .getLeaderWait _ | .finishFound => true
  | _ => false

def Bounded (call : Call) (h : History (State B) Answer) (s : State B) : Prop :=
  s.pc.betweenRounds = true → s.revision = bound call h

theorem isNew_iff {s : State B} :
    s.isNew = true ↔
      s.node.isValid = true ∧ (s.revision = 0 ∨ s.revision < s.node.createRevision) := by
  simp [State.isNew]

theorem afterLeader_not_between (call : Call) (s : State B) :
    (afterLeader call s).pc.betweenRounds = false := by
  rcases afterLeader_cases call s with ⟨-, hret⟩ | ⟨-, o, e, hwatch, -⟩
  · rw [hret]
    rfl
  · rw [hwatch]
    rfl

theorem bounded_step {call : Call} {h : History (State B) Answer} {s s' : State B} {a : Answer}
    (hi : Bounded call h s) (hs : step call s a = some s') : Bounded call ((s, a) :: h) s' := by
  intro hb
  cases step_iff.mp hs with
  | leader => simp [afterLeader_not_between] at hb
  | leaderError => exact hi rfl
  | leaderWaitOver => exact hi rfl
  | found hfound => simp [bound, lastEnded, endedBy, hfound]
  | roundOver => exact hi rfl
  | _ => cases hb

theorem bounded_init {call : Call} {s : State B} (h : Init call s) : Bounded call [] s := by
  obtain ⟨node, rfl⟩ := h
  exact fun _ => rfl

/-! ## The leader is new -/

/-- Where `Watch` has returned OK its node was created after the caller's
revision. -/
def ReportsNew (call : Call) (_ : History (State B) Answer) (s : State B) : Prop :=
  ∀ status, s.status = some status → status.isOk = true →
    call.options.revision < s.node.createRevision

/-- Where a read after a round leaves a valid leader that the caller has
seen, the event that ended the round was created later than that leader,
and not at revision 1. -/
def EventsTell (call : Call) (h : History (State B) Answer) (s : State B) (a : Answer) : Prop :=
  ∀ rsp ∈ a.reply, ∀ e ∈ lastEnded h,
    (getLeaderReply s.node (.ok rsp)).2.isValid = true →
    (getLeaderReply s.node (.ok rsp)).2.createRevision ≤ call.options.revision →
    e ≠ 1 ∧ (getLeaderReply s.node (.ok rsp)).2.createRevision < e

instance (call : Call) (h : History (State B) Answer) (s : State B) (a : Answer) :
    Decidable (EventsTell call h s a) :=
  inferInstanceAs (Decidable (∀ rsp ∈ a.reply, ∀ e ∈ lastEnded h,
    (getLeaderReply s.node (.ok rsp)).2.isValid = true →
    (getLeaderReply s.node (.ok rsp)).2.createRevision ≤ call.options.revision →
    e ≠ 1 ∧ (getLeaderReply s.node (.ok rsp)).2.createRevision < e))

theorem reportsNew_step {call : Call} {h : History (State B) Answer} {s s' : State B}
    {a : Answer} (hR : 0 < call.options.revision) (hi : Bounded call h s)
    (hs : step call s a = some s') :
    ReportsNew call ((s, a) :: h) s' ↔ EventsTell call h s a := by
  cases step_iff.mp hs with
  | @leader n r b rsp =>
    have hrev : r = bound call h := hi rfl
    have hnew := isNew_iff (s := ⟨(getLeaderReply n (.ok rsp)).2, r, b, .getLeader⟩)
    rcases afterLeader_cases call ⟨(getLeaderReply n (.ok rsp)).2, r, b, .getLeader⟩ with
      ⟨htrue, hret⟩ | ⟨hfalse, o, e, hwatch, -⟩
    · rw [hret]
      obtain ⟨hvalid, hlt⟩ := hnew.mp htrue
      constructor
      · intro hrep rsp' ha e' hlast _ hle
        cases ha
        have hgt := hrep {} rfl rfl
        exact absurd hle (not_le.mpr hgt)
      · intro htell status _ _
        by_contra hle
        unfold bound at hrev
        cases hlast : lastEnded h with
        | none =>
          rw [hlast] at hrev
          dsimp only at hrev hlt hle
          omega
        | some e =>
          have he := htell rsp rfl e hlast hvalid (not_lt.mp hle)
          rw [hlast] at hrev
          dsimp only at hrev hlt he
          omega
    · rw [hwatch]
      refine iff_of_true (fun status hst => by simp [State.status] at hst) ?_
      intro rsp' ha e' hlast hvalid hle
      cases ha
      have hold : ¬ (r = 0 ∨ r < (getLeaderReply n (.ok rsp)).2.createRevision) := fun hlt => by
        rw [hnew.mpr ⟨hvalid, hlt⟩] at hfalse
        cases hfalse
      unfold bound at hrev
      rw [Option.mem_def.mp hlast] at hrev
      dsimp only at hrev hle ⊢
      omega
  | leaderWaitDone =>
    refine iff_of_true (fun status hst hok => ?_) (fun rsp ha => by cases ha)
    cases hst
    cases hok
  | watchWaitDone =>
    refine iff_of_true (fun status hst hok => ?_) (fun rsp ha => by cases ha)
    cases hst
    cases hok
  | _ =>
    exact iff_of_true (fun status hst => by simp [State.status] at hst) (fun rsp ha => by cases ha)

/-- **Watch reports no leader the caller has seen.** For a caller's revision
above zero: `Watch` returns OK only with a leader created after it, if and
only if no read after a round finds a leader the caller has seen that was
created at or after the event that ended the round (or a round ended by an
event created at revision 1). A DELETE event, whose `create_revision` is 0,
never tells. -/
theorem watch_reports_new_iff {call : Call} {h : History (State B) Answer} {s : State B}
    (hR : 0 < call.options.revision) (hr : WatchRun call h s) :
    Throughout (ReportsNew call) h s ↔ Along (EventsTell call) h := by
  refine Run.throughout_iff (J := Bounded call) (D := fun _ _ _ => True) (fun s hs => ?_)
    (fun _ hj _ _ hs => bounded_step hj hs) (fun _ hj _ _ hs => reportsNew_step hR hj hs) hr
    (Along.of_true h)
  refine ⟨?_, bounded_init hs⟩
  obtain ⟨node, rfl⟩ := hs
  exact fun status hst => by simp [State.status, State.new] at hst

/-- The election `"a"`, watched from a revision. -/
def electionA (revision : Int) : Call := ⟨.unsigned, [0x61], { revision := revision }⟩

/-- A reply with the keys `kvs` at a store revision. -/
def reply (revision : Int) (kvs : List KeyValue) : Answer :=
  .range (.ok { header := { revision := revision }, kvs := kvs })

/-- A stream that delivers one event, and is finished. -/
def delivered (event : Event) : List Answer :=
  [.stream, .read (some { events := [event] }), .finish .cancelled]

/-- The election is empty, and a key created at 7 becomes its leader. -/
def firstLeaderScript : List Answer :=
  reply 6 [] :: delivered ⟨.put, { key := [0x61], createRevision := 7, lease := 1 }⟩ ++
    [reply 7 [{ key := [0x61], createRevision := 7, lease := 1 }]]

/-- The caller has seen revision 5 when that happens. -/
theorem watch_reports_new_first :
    ∃ h s, exec (step (electionA 5)) []
        (State.new (electionA 5) ⟨[], [], 0, 0, 0, 0, 0⟩ : State .constant)
        firstLeaderScript = some (h, s) ∧
      s.status = some {} ∧ s.node.createRevision = 7 ∧
      Throughout (ReportsNew (electionA 5)) h s := by
  refine ⟨_, _, rfl, rfl, rfl, ?_⟩
  refine (watch_reports_new_iff (by decide) (Run.exec (.start ⟨_, rfl⟩)
    (rfl : exec (step (electionA 5)) []
      (State.new (electionA 5) ⟨[], [], 0, 0, 0, 0, 0⟩ : State .constant)
      firstLeaderScript = some (_, _)))).mpr ?_
  decide

/-- The caller has seen the leader created at 5. The deletion of another
candidate ends the round, and the same leader is reported as new. -/
theorem watch_reports_seen :
    ∃ h s, exec (step (electionA 5)) []
        (State.new (electionA 5) ⟨[], [], 0, 0, 0, 0, 0⟩ : State .constant)
        (reply 6 [{ key := [0x61], createRevision := 5, lease := 1 }] ::
          delivered ⟨.delete, { key := [0x61, 0x62], modRevision := 7 }⟩ ++
          [reply 7 [{ key := [0x61], createRevision := 5, lease := 1 }]]) = some (h, s) ∧
      s.status = some {} ∧ s.node.createRevision = 5 ∧
      ¬ ReportsNew (electionA 5) h s := by
  refine ⟨_, _, rfl, rfl, rfl, fun hnew => ?_⟩
  exact absurd (hnew {} rfl rfl) (by decide)

/-! ## The watch starts in time -/

/-- A stream created with a start revision when the store is at `now`
delivers the events of a revision: `start_revision` is inclusive, and "No
start_revision is now". -/
def Delivers (start now revision : Int) : Prop :=
  if start = 0 then now < revision else start ≤ revision

instance (start now revision : Int) : Decidable (Delivers start now revision) :=
  inferInstanceAs (Decidable (if start = 0 then now < revision else start ≤ revision))

/-- Every watch-create request about to be sent starts at 1 or later and at
most one past the revision of the round's read. -/
def StartsInTime (call : Call) (h : History (State B) Answer) (s : State B) : Prop :=
  ∀ req, s.request call = some (.watch req) →
    ∃ c, readRevision h = some c ∧ 1 ≤ req.startRevision ∧ req.startRevision ≤ c + 1

/-- Then its stream delivers everything committed after the read. -/
theorem StartsInTime.delivers {call : Call} {h : History (State B) Answer} {s : State B}
    (hs : StartsInTime call h s) {req : WatchCreateRequest}
    (hreq : s.request call = some (.watch req)) {c now revision : Int}
    (hc : readRevision h = some c) (hrev : c < revision) :
    Delivers req.startRevision now revision := by
  obtain ⟨c', hc', hpos, hle⟩ := hs req hreq
  cases hc.symm.trans hc'
  unfold Delivers
  rw [if_neg (by omega)]
  omega

/-- A read whose round watches leaves a `revision` that is no later than the
read allows: with a leader, at most one past the read; without, at least 1
as well. -/
def BoundInTime (call : Call) (h : History (State B) Answer) (s : State B) (a : Answer) : Prop :=
  ∀ rsp ∈ a.reply,
    if (getLeaderReply s.node (.ok rsp)).2.isValid = true then
      bound call h = 0 ∨
        bound call h < (getLeaderReply s.node (.ok rsp)).2.createRevision ∨
        (bound call h ≤ rsp.header.revision + 1 ∧ (0 ≤ rsp.header.revision ∨ 1 ≤ bound call h))
    else 1 ≤ bound call h ∧ bound call h ≤ rsp.header.revision + 1

instance (call : Call) (h : History (State B) Answer) (s : State B) (a : Answer) :
    Decidable (BoundInTime call h s a) :=
  inferInstanceAs (Decidable (∀ rsp ∈ a.reply,
    if (getLeaderReply s.node (.ok rsp)).2.isValid = true then
      bound call h = 0 ∨
        bound call h < (getLeaderReply s.node (.ok rsp)).2.createRevision ∨
        (bound call h ≤ rsp.header.revision + 1 ∧ (0 ≤ rsp.header.revision ∨ 1 ≤ bound call h))
    else 1 ≤ bound call h ∧ bound call h ≤ rsp.header.revision + 1))

/-- The watch options of the round. -/
def Pc.watchOptions : Pc → Option WatchOptions
  | .watchSingle o _ | .read o _ | .finishError o _ | .watchWait _ o _ => some o
  | _ => none

theorem request_watch {call : Call} {s : State B} {req : WatchCreateRequest}
    (h : s.request call = some (.watch req)) :
    ∃ o, s.pc.watchOptions = some o ∧ req = Client.watchSingleRequest call.keyPrefix o := by
  obtain ⟨n, r, b, pc⟩ := s
  cases pc <;> simp only [State.request, Option.some.injEq, Request.watch.injEq, reduceCtorEq]
    at h
  exact ⟨_, rfl, h.symm⟩

/-- The state after `GetLeader` has read a reply. -/
def State.withReply (s : State B) (rsp : RangeResponse) : State B :=
  { s with node := (getLeaderReply s.node (.ok rsp)).2 }

/-- A round keeps its options; a new round takes them from the read. -/
theorem watchOptions_step {call : Call} {s s' : State B} {a : Answer} {o : WatchOptions}
    (hs : step call s a = some s') (ho : s'.pc.watchOptions = some o) :
    (s.pc.watchOptions = some o ∧ a.reply = none) ∨
      ∃ rsp, a = .range (.ok rsp) ∧ s.pc = .getLeader ∧ (s.withReply rsp).isNew = false ∧
        (Client.watchSingleRequest call.keyPrefix o).startRevision
          = (s.withReply rsp).watchFrom := by
  cases step_iff.mp hs with
  | @leader n r b rsp =>
    rcases afterLeader_cases call ⟨(getLeaderReply n (.ok rsp)).2, r, b, .getLeader⟩ with
      ⟨-, hret⟩ | ⟨hold, o', e, hwatch, hstart⟩
    · rw [hret] at ho
      cases ho
    · rw [hwatch] at ho
      cases ho
      exact Or.inr ⟨rsp, rfl, rfl, hold, hstart⟩
  | opened => exact Or.inl ⟨ho, rfl⟩
  | notFound => exact Or.inl ⟨ho, rfl⟩
  | readFailed => exact Or.inl ⟨ho, rfl⟩
  | failed => exact Or.inl ⟨ho, rfl⟩
  | watchWaitOver => exact Or.inl ⟨ho, rfl⟩
  | _ => cases ho

/-- A read whose leader is not new is followed by a watch request. -/
theorem request_of_watches {call : Call} {s s' : State B} {rsp : RangeResponse}
    (hs : step call s (.range (.ok rsp)) = some s') (hold : (s.withReply rsp).isNew = false) :
    ∃ req, s'.request call = some (.watch req) ∧
      req.startRevision = (s.withReply rsp).watchFrom := by
  cases step_iff.mp hs with
  | @leader n r b =>
    rcases afterLeader_cases call ⟨(getLeaderReply n (.ok rsp)).2, r, b, .getLeader⟩ with
      ⟨hnew, -⟩ | ⟨-, o, e, hwatch, hstart⟩
    · exact absurd (hnew.symm.trans hold) (by decide)
    · rw [hwatch]
      exact ⟨_, rfl, hstart⟩

theorem getLeaderReply_watchRevision (node : ElectionNode) (rsp : RangeResponse) :
    (getLeaderReply node (.ok rsp)).2.watchRevision = rsp.header.revision := by
  unfold getLeaderReply
  dsimp only
  split <;> rfl

/-- What holds of the revision that the round of a read starts at: past the
read or at `revision` with a leader, at `revision` without. -/
theorem watchFrom_iff {call : Call} {h : History (State B) Answer} {s : State B}
    {rsp : RangeResponse} {P : Int → Prop} (hrev : s.revision = bound call h) :
    ((s.withReply rsp).isNew = false → P (s.withReply rsp).watchFrom) ↔
      if (s.withReply rsp).node.isValid = true then
        bound call h = 0 ∨ bound call h < (s.withReply rsp).node.createRevision ∨
          P (max (rsp.header.revision + 1) (bound call h))
      else P (bound call h) := by
  have hrev' : (s.withReply rsp).revision = bound call h := hrev
  have hread : (s.withReply rsp).node.watchRevision = rsp.header.revision :=
    getLeaderReply_watchRevision s.node rsp
  unfold State.isNew State.watchFrom
  rw [hread, hrev']
  generalize (s.withReply rsp).node = node
  cases node.isValid with
  | true =>
    simp only [if_true, Bool.true_and, Bool.or_eq_false_iff, beq_eq_false_iff_ne,
      decide_eq_false_iff_not, ne_eq]
    tauto
  | false => simp

/-- The options of a round start in time, in its retries too. -/
structure RoundInTime (call : Call) (h : History (State B) Answer) (s : State B) : Prop where
  bounded : Bounded call h s
  start : ∀ o, s.pc.watchOptions = some o →
    ∃ c, readRevision h = some c ∧
      1 ≤ (Client.watchSingleRequest call.keyPrefix o).startRevision ∧
      (Client.watchSingleRequest call.keyPrefix o).startRevision ≤ c + 1

/-- The condition is that the round returns or watches from a revision in
time. -/
theorem boundInTime_iff {call : Call} {h : History (State B) Answer} {s : State B}
    {rsp : RangeResponse} (hrev : s.revision = bound call h) :
    BoundInTime call h s (.range (.ok rsp)) ↔
      ((s.withReply rsp).isNew = false →
        1 ≤ (s.withReply rsp).watchFrom ∧
        (s.withReply rsp).watchFrom ≤ rsp.header.revision + 1) := by
  rw [watchFrom_iff (P := fun start => 1 ≤ start ∧ start ≤ rsp.header.revision + 1) hrev]
  have hnode : (getLeaderReply s.node (.ok rsp)).2 = (s.withReply rsp).node := rfl
  unfold BoundInTime
  rw [forall_reply, hnode]
  by_cases hvalid : (s.withReply rsp).node.isValid = true
  · rw [if_pos hvalid, if_pos hvalid]
    -- the later of the two is in time
    refine or_congr_right (or_congr_right ?_)
    omega
  · rw [if_neg hvalid, if_neg hvalid]

theorem roundInTime_step {call : Call} {h : History (State B) Answer} {s s' : State B}
    {a : Answer} (hi : RoundInTime call h s) (hc : BoundInTime call h s a)
    (hs : step call s a = some s') : RoundInTime call ((s, a) :: h) s' := by
  refine ⟨bounded_step hi.bounded hs, ?_⟩
  intro o ho
  rcases watchOptions_step hs ho with ⟨ho', ha⟩ | ⟨rsp, rfl, hpc, hold, hstart⟩
  · have hsame : readRevision ((s, a) :: h) = readRevision h := by
      simp [readRevision, lastReply, ha]
    rw [hsame]
    exact hi.start o ho'
  · have hrev : s.revision = bound call h := hi.bounded (by rw [hpc]; rfl)
    rw [hstart]
    exact ⟨rsp.header.revision, rfl, (boundInTime_iff hrev).mp hc hold⟩

theorem RoundInTime.startsInTime {call : Call} {h : History (State B) Answer} {s : State B}
    (hi : RoundInTime call h s) : StartsInTime call h s := by
  intro req hreq
  obtain ⟨o, ho, rfl⟩ := request_watch hreq
  exact hi.start o ho

theorem boundInTime_of_starts {call : Call} {h : History (State B) Answer} {s s' : State B}
    {a : Answer} (hi : RoundInTime call h s) (hs : step call s a = some s')
    (hp : StartsInTime call ((s, a) :: h) s') : BoundInTime call h s a := by
  have hs' := hs
  cases step_iff.mp hs with
  | leader =>
    refine (boundInTime_iff (hi.bounded rfl)).mpr ?_
    intro hold
    obtain ⟨req, hreq, hstart⟩ := request_of_watches hs' hold
    obtain ⟨c, hc, hle⟩ := hp req hreq
    cases hc
    rw [hstart] at hle
    exact hle
  | _ => exact fun rsp ha => by cases ha

/-- **Watch misses nothing between its read and its watch**: every watch
request, retries included, starts at 1 or later and at most one past the
revision of the round's read, if and only if after every read whose round
watches, `revision` is as `BoundInTime` says. Where there is a leader the
source lifts it past the read, where there is none it does not. -/
theorem watch_starts_in_time_iff {call : Call} {h : History (State B) Answer} {s : State B}
    (hr : WatchRun call h s) :
    Throughout (StartsInTime call) h s ↔ Along (BoundInTime call) h := by
  refine Run.throughout_iff (J := RoundInTime call) (D := fun _ _ _ => True) (fun s hs => ?_)
    (fun _ hj _ hc hs => roundInTime_step hj hc hs)
    (fun _ hj _ _ hs => ⟨fun hp => boundInTime_of_starts hj hs hp,
      fun hc => (roundInTime_step hj hc hs).startsInTime⟩) hr (Along.of_true h)
  have hj : RoundInTime call [] s := by
    refine ⟨bounded_init hs, ?_⟩
    obtain ⟨node, rfl⟩ := hs
    exact fun o ho => by cases ho
  exact ⟨hj.startsInTime, hj⟩

/-- An election with a leader, whose stream fails once. -/
def retriedScript : List Answer :=
  [reply 6 [{ key := [0x61], createRevision := 5, lease := 1 }], .stream, .read none,
    .finish .unavailable, .wait false]

/-- The stream is opened again from one past the read. -/
theorem watch_starts_in_time_retried :
    ∃ h s, exec (step (electionA 5)) []
        (State.new (electionA 5) ⟨[], [], 0, 0, 0, 0, 0⟩ : State .constant)
        retriedScript = some (h, s) ∧
      (∃ req, s.request (electionA 5) = some (.watch req) ∧ req.startRevision = 7) ∧
      Throughout (StartsInTime (electionA 5)) h s := by
  refine ⟨_, _, rfl, ⟨_, rfl, rfl⟩, ?_⟩
  refine (watch_starts_in_time_iff (Run.exec (.start ⟨_, rfl⟩)
    (rfl : exec (step (electionA 5)) []
      (State.new (electionA 5) ⟨[], [], 0, 0, 0, 0, 0⟩ : State .constant)
      retriedScript = some (_, _)))).mpr ?_
  decide

/-- No leader, and no revision from the caller: the watch starts "now", and
a leader that came between the read and the watch is not delivered. -/
theorem watch_starts_now :
    ∃ h s, exec (step (electionA 0)) []
        (State.new (electionA 0) ⟨[], [], 0, 0, 0, 0, 0⟩ : State .constant)
        [reply 6 []] = some (h, s) ∧
      (∃ req, s.request (electionA 0) = some (.watch req) ∧ req.startRevision = 0 ∧
        ¬ Delivers req.startRevision 7 7) ∧
      ¬ StartsInTime (electionA 0) h s := by
  refine ⟨_, _, rfl, ⟨_, rfl, rfl, by decide⟩, fun hstarts => ?_⟩
  obtain ⟨c, -, hpos, -⟩ := hstarts _ rfl
  exact absurd hpos (by decide)

end

end Election

end Etcdv3Client
