import Etcdv3Client.Election.Forward

/-!
# Watch and a compacted start revision

rpc.proto on `compact_revision`: "The client should treat the watcher as
canceled and should not try to create any watcher with the same
start_revision again." `Watch` looks at the events of a response only, so
the response passes by, and the retries send the options of the round.
-/

namespace Etcdv3Client

namespace Election

open Transition

section
variable {B : BackOffStrategy}

/-! ## The compaction responses -/

/-- A response with `canceled` set and a `compact_revision` above 0. -/
def Answer.compaction : Answer → Bool
  | .read (some rsp) => rsp.canceled && decide (0 < rsp.compactRevision)
  | _ => false

/-- The `start_revision` of the watcher that such a response cancels. -/
def compactedStart (call : Call) (s : State B) (a : Answer) : Option Int :=
  if a.compaction then
    s.pc.watchOptions.map fun o => (Client.watchSingleRequest call.keyPrefix o).startRevision
  else none

def compactedStarts (call : Call) (h : History (State B) Answer) : List Int :=
  h.filterMap fun p => compactedStart call p.1 p.2

/-- One has arrived since the last stream was opened. -/
def streamCompacted : History (State B) Answer → Bool
  | [] => false
  | (_, .stream) :: _ => false
  | (_, a) :: h => a.compaction || streamCompacted h

def Pc.reading : Pc → Bool
  | .read _ _ => true
  | _ => false

/-- `Watch` does not go on reading from a cancelled watcher, and is not
about to send a watch-create request with the `start_revision` of one. -/
def HeedsCompaction (call : Call) (h : History (State B) Answer) (s : State B) : Prop :=
  (s.pc.reading = true → streamCompacted h = false) ∧
    ∀ req, s.request call = some (.watch req) → req.startRevision ∉ compactedStarts call h

/-- Where a read starts its round: with a leader past the read, or at
`revision` if that is later; without, at `revision`. -/
def readStart (call : Call) (h : History (State B) Answer) (s : State B) (rsp : RangeResponse) :
    Int :=
  if (s.withReply rsp).node.isValid = true then max (rsp.header.revision + 1) (bound call h)
  else bound call h

/-- Where the last read started its round. -/
def roundStart (call : Call) : History (State B) Answer → Option Int
  | [] => none
  | (s, a) :: h =>
      match a.reply with
      | some rsp => some (readStart call h s rsp)
      | none => roundStart call h

/-- Where the reads started the rounds in which a compaction response
arrived. -/
def cancelledStarts (call : Call) : History (State B) Answer → List Int
  | [] => []
  | (_, a) :: h =>
      if a.compaction then (roundStart call h).toList ++ cancelledStarts call h
      else cancelledStarts call h

/-- A read that begins a round starts it at none of those. -/
def FreshStart (call : Call) (h : History (State B) Answer) (s : State B) (a : Answer) : Prop :=
  ∀ rsp ∈ a.reply,
    (s.withReply rsp).node.isValid = true ∧
        (bound call h = 0 ∨ bound call h < (s.withReply rsp).node.createRevision) ∨
      readStart call h s rsp ∉ cancelledStarts call h

/-- A compaction response ends the round, by an event it carries. -/
def CompactionEnds (call : Call) (h : History (State B) Answer) (s : State B) (a : Answer) :
    Prop :=
  (a.compaction = true → (endingEvent s a).isSome = true) ∧ FreshStart call h s a

instance (call : Call) (h : History (State B) Answer) (s : State B) (a : Answer) :
    Decidable (CompactionEnds call h s a) :=
  inferInstanceAs (Decidable ((a.compaction = true → (endingEvent s a).isSome = true) ∧
    ∀ rsp ∈ a.reply,
      (s.withReply rsp).node.isValid = true ∧
          (bound call h = 0 ∨ bound call h < (s.withReply rsp).node.createRevision) ∨
        readStart call h s rsp ∉ cancelledStarts call h))

/-! ## One step -/

theorem compactedStarts_frame {call : Call} {h : History (State B) Answer} {s : State B}
    {a : Answer} (ha : a.compaction = false) :
    compactedStarts call ((s, a) :: h) = compactedStarts call h := by
  simp [compactedStarts, compactedStart, ha]

theorem streamCompacted_cons {h : History (State B) Answer} {s : State B} {a : Answer}
    (ha : a ≠ .stream) : streamCompacted ((s, a) :: h) = (a.compaction || streamCompacted h) := by
  cases a with
  | stream => exact absurd rfl ha
  | _ => rfl

/-- A round that goes on was not cancelled by the answer. -/
theorem compaction_of_round {call : Call} {s s' : State B} {a : Answer} {o : WatchOptions}
    (hends : a.compaction = true → (endingEvent s a).isSome = true)
    (hs : step call s a = some s') (ho : s'.pc.watchOptions = some o) : a.compaction = false := by
  cases step_iff.mp hs with
  | found => cases ho
  | notFound hnone =>
    -- the round goes on because the response carries no awaited event
    by_contra hcomp
    have hsome := hends (by simpa using hcomp)
    simp [endingEvent, hnone] at hsome
  | _ => rfl

/-- The watch requests are where the reads put them. -/
structure StartsRead (call : Call) (h : History (State B) Answer) (s : State B) : Prop where
  bounded : Bounded call h s
  round : ∀ o, s.pc.watchOptions = some o →
    roundStart call h = some (Client.watchSingleRequest call.keyPrefix o).startRevision
  cancelled : compactedStarts call h = cancelledStarts call h

theorem watchFrom_eq {call : Call} {h : History (State B) Answer} {s : State B}
    {rsp : RangeResponse} (hrev : s.revision = bound call h) :
    (s.withReply rsp).watchFrom = readStart call h s rsp := by
  have hread : (s.withReply rsp).node.watchRevision = rsp.header.revision :=
    getLeaderReply_watchRevision s.node rsp
  rw [State.watchFrom, hread, show (s.withReply rsp).revision = bound call h from hrev]
  rfl

theorem startsRead_init {call : Call} {s : State B} (h : Init call s) : StartsRead call [] s := by
  refine ⟨bounded_init h, ?_, rfl⟩
  intro o ho
  obtain ⟨node, rfl⟩ := h
  cases ho

theorem startsRead_step {call : Call} {h : History (State B) Answer} {s s' : State B}
    {a : Answer} (hi : StartsRead call h s) (hs : step call s a = some s') :
    StartsRead call ((s, a) :: h) s' := by
  refine ⟨bounded_step hi.bounded hs, ?_, ?_⟩
  · intro o ho
    rcases watchOptions_step hs ho with ⟨ho', hnone⟩ | ⟨rsp, rfl, hpc, -, hstart⟩
    · rw [roundStart, hnone]
      exact hi.round o ho'
    · rw [hstart, watchFrom_eq (hi.bounded (by rw [hpc]; rfl))]
      rfl
  · cases hcomp : a.compaction with
    | false =>
      rw [compactedStarts_frame hcomp, cancelledStarts, hcomp]
      exact hi.cancelled
    | true =>
      -- only a `Read` is answered by a response
      have hround : ∃ o, s.pc.watchOptions = some o := by
        cases step_iff.mp hs with
        | found => exact ⟨_, rfl⟩
        | notFound => exact ⟨_, rfl⟩
        | _ => cases hcomp
      obtain ⟨o, ho⟩ := hround
      rw [cancelledStarts, if_pos hcomp, hi.round o ho, ← hi.cancelled]
      simp [compactedStarts, compactedStart, hcomp, ho]

/-- The options of the round are not those of a cancelled watcher, nor is
its stream. -/
structure RoundUncompacted (call : Call) (h : History (State B) Answer) (s : State B) : Prop where
  reads : StartsRead call h s
  start : ∀ o, s.pc.watchOptions = some o →
    (Client.watchSingleRequest call.keyPrefix o).startRevision ∉ compactedStarts call h
  stream : s.pc.reading = true → streamCompacted h = false

theorem freshStart_iff {call : Call} {h : History (State B) Answer} {s : State B}
    {rsp : RangeResponse} (hi : StartsRead call h s) (hpc : s.pc = .getLeader) :
    FreshStart call h s (.range (.ok rsp)) ↔
      ((s.withReply rsp).isNew = false →
        (s.withReply rsp).watchFrom ∉ compactedStarts call h) := by
  have hrev : s.revision = bound call h := hi.bounded (by rw [hpc]; rfl)
  have hnew : (s.withReply rsp).isNew = true ↔ (s.withReply rsp).node.isValid = true ∧
      (bound call h = 0 ∨ bound call h < (s.withReply rsp).node.createRevision) := by
    rw [isNew_iff, show (s.withReply rsp).revision = bound call h from hrev]
  unfold FreshStart
  rw [forall_reply, ← hnew, watchFrom_eq hrev, hi.cancelled, ← Bool.not_eq_true]
  tauto

theorem roundUncompacted_step {call : Call} {h : History (State B) Answer} {s s' : State B}
    {a : Answer} (hi : RoundUncompacted call h s) (hc : CompactionEnds call h s a)
    (hs : step call s a = some s') : RoundUncompacted call ((s, a) :: h) s' := by
  obtain ⟨hends, hfresh⟩ := hc
  refine ⟨startsRead_step hi.reads hs, ?_, ?_⟩
  · intro o ho
    rw [compactedStarts_frame (compaction_of_round hends hs ho)]
    rcases watchOptions_step hs ho with ⟨ho', -⟩ | ⟨rsp, rfl, hpc, hold, hstart⟩
    · exact hi.start o ho'
    · rw [hstart]
      exact (freshStart_iff hi.reads hpc).mp hfresh hold
  · intro hreading
    have hround : ∃ o, s'.pc.watchOptions = some o := by
      obtain ⟨n, r, b, pc⟩ := s'
      cases pc <;> first | exact ⟨_, rfl⟩ | cases hreading
    obtain ⟨o, ho⟩ := hround
    have hcomp := compaction_of_round hends hs ho
    cases step_iff.mp hs with
    -- a new stream, or one that did not cancel
    | opened => rfl
    | notFound =>
      rw [streamCompacted_cons (by simp), hcomp]
      exact hi.stream rfl
    | leader =>
      rcases afterLeader_cases call _ with ⟨-, hret⟩ | ⟨-, o, e, hwatch, -⟩
      · rw [hret] at hreading
        cases hreading
      · rw [hwatch] at hreading
        cases hreading
    | _ => cases hreading

theorem RoundUncompacted.heedsCompaction {call : Call} {h : History (State B) Answer}
    {s : State B} (hi : RoundUncompacted call h s) : HeedsCompaction call h s := by
  refine ⟨hi.stream, ?_⟩
  intro req hreq
  obtain ⟨o, ho, rfl⟩ := request_watch hreq
  exact hi.start o ho

theorem compactionEnds_of_heeds {call : Call} {h : History (State B) Answer} {s s' : State B}
    {a : Answer} (hi : RoundUncompacted call h s) (hs : step call s a = some s')
    (hp : HeedsCompaction call ((s, a) :: h) s') : CompactionEnds call h s a := by
  have hs' := hs
  cases step_iff.mp hs with
  | leader =>
    refine ⟨nofun, (freshStart_iff hi.reads rfl).mpr ?_⟩
    intro hold
    obtain ⟨req, hreq, hstart⟩ := request_of_watches hs' hold
    have hnot := hp.2 req hreq
    rwa [hstart, compactedStarts_frame rfl] at hnot
  | found hfound => exact ⟨fun _ => by simp [endingEvent, hfound], nofun⟩
  | notFound hnone =>
    refine ⟨?_, nofun⟩
    intro hcomp
    have hopen := hp.1 rfl
    rw [streamCompacted_cons (by simp), hcomp] at hopen
    cases hopen
  | _ => exact ⟨nofun, nofun⟩

/-! ## Responses without events -/

theorem cancelledStarts_nil {call : Call} {h : History (State B) Answer}
    (hno : ∀ p ∈ h, p.2.compaction = false) : cancelledStarts call h = [] := by
  induction h with
  | nil => rfl
  | cons p h ih =>
    obtain ⟨s, a⟩ := p
    have ha : a.compaction = false := hno (s, a) List.mem_cons_self
    rw [cancelledStarts, ha]
    exact ih fun p hp => hno p (List.mem_cons_of_mem _ hp)

theorem freshStart_of_nil {call : Call} {h : History (State B) Answer} {s : State B} {a : Answer}
    (hnil : cancelledStarts call h = []) : FreshStart call h s a := by
  intro rsp _
  rw [hnil]
  exact Or.inr List.not_mem_nil

/-- Where compaction responses carry no events, `Watch` heeds them only if
there are none. -/
theorem compactionEnds_iff {call : Call} {h : History (State B) Answer}
    (hempty : ∀ p ∈ h, p.2.compaction = true → p.2.events = []) :
    Along (CompactionEnds call) h ↔ ∀ p ∈ h, p.2.compaction = false := by
  induction h with
  | nil => exact iff_of_true trivial (by simp)
  | cons p h ih =>
    obtain ⟨s, a⟩ := p
    have ih' := ih fun p hp => hempty p (List.mem_cons_of_mem _ hp)
    rw [Along, ih', List.forall_mem_cons]
    constructor
    · rintro ⟨hno, hends, -⟩
      refine ⟨?_, hno⟩
      by_contra hcomp
      have hcomp' : a.compaction = true := by simpa using hcomp
      obtain ⟨event, hevent⟩ := Option.isSome_iff_exists.mp (hends hcomp')
      have hmem := endingEvent_mem hevent
      rw [hempty (s, a) List.mem_cons_self hcomp'] at hmem
      cases hmem
    · rintro ⟨ha, hno⟩
      refine ⟨hno, ?_, freshStart_of_nil (cancelledStarts_nil hno)⟩
      intro hcomp
      rw [ha] at hcomp
      cases hcomp

/-! ## Main result -/

theorem roundUncompacted_init {call : Call} {s : State B} (h : Init call s) :
    RoundUncompacted call [] s := by
  refine ⟨startsRead_init h, ?_, fun _ => rfl⟩
  intro o _
  simp [compactedStarts]

/-- **Watch heeds a compaction**, in that it reads no more from the
cancelled watcher and sends no other request with its `start_revision`, if
and only if every compaction response carries an event that ends the round,
and no later read begins a round where one was cancelled. So where these
responses carry no events, if and only if there are none. -/
theorem heeds_compaction_iff {call : Call} {h : History (State B) Answer} {s : State B}
    (hr : WatchRun call h s) :
    (Throughout (HeedsCompaction call) h s ↔ Along (CompactionEnds call) h) ∧
    ((∀ p ∈ h, p.2.compaction = true → p.2.events = []) →
      (Throughout (HeedsCompaction call) h s ↔ ∀ p ∈ h, p.2.compaction = false)) := by
  have hiff : Throughout (HeedsCompaction call) h s ↔ Along (CompactionEnds call) h := by
    refine Run.throughout_iff (J := RoundUncompacted call) (D := fun _ _ _ => True) ?_ ?_ ?_ hr
      (Along.of_true h)
    · exact fun s hs => ⟨(roundUncompacted_init hs).heedsCompaction, roundUncompacted_init hs⟩
    · exact fun _ hj _ hc hs => roundUncompacted_step hj hc hs
    · exact fun _ hj _ _ hs => ⟨fun hp => compactionEnds_of_heeds hj hs hp,
        fun hc => (roundUncompacted_step hj hc hs).heedsCompaction⟩
  exact ⟨hiff, fun hempty => hiff.trans (compactionEnds_iff hempty)⟩

/-- An election with a leader; the watch from 7 is cancelled with its last
event, the deletion of the leader at 8. -/
def cancelledAtEndScript : List Answer :=
  [reply 6 [{ key := [0x61], createRevision := 5, lease := 1 }], .stream,
    .read (some
      { canceled := true, compactRevision := 9,
        events := [⟨.delete, { key := [0x61], modRevision := 8 }⟩] }),
    .finish .cancelled,
    reply 9 [{ key := [0x61, 0x62], createRevision := 9, lease := 2 }]]

/-- The round is over, and the next read begins none at 7. -/
theorem heeds_compaction_at_end :
    ∃ h s, exec (step (electionA 5)) []
        (State.new (electionA 5) ⟨[], [], 0, 0, 0, 0, 0⟩ : State .constant)
        cancelledAtEndScript = some (h, s) ∧
      compactedStarts (electionA 5) h = [7] ∧
      Throughout (HeedsCompaction (electionA 5)) h s := by
  refine ⟨_, _, rfl, rfl, ?_⟩
  refine (heeds_compaction_iff (Run.exec (.start ⟨_, rfl⟩)
    (rfl : exec (step (electionA 5)) []
      (State.new (electionA 5) ⟨[], [], 0, 0, 0, 0, 0⟩ : State .constant)
      cancelledAtEndScript = some (_, _)))).1.mpr ?_
  decide

/-- An election with a leader; the store is compacted at 9 before the watch
from 7 begins. -/
def compactedScript : List Answer :=
  [reply 6 [{ key := [0x61], createRevision := 5, lease := 1 }], .stream,
    .read (some { canceled := true, compactRevision := 9 })]

/-- `Watch` goes on reading, and asks for 7 again when the stream ends. -/
theorem compaction_passes_by :
    ∃ h s, exec (step (electionA 5)) []
        (State.new (electionA 5) ⟨[], [], 0, 0, 0, 0, 0⟩ : State .constant)
        (compactedScript ++ [.read none, .finish .ok, .wait false]) = some (h, s) ∧
      compactedStarts (electionA 5) h = [7] ∧
      (∃ req, s.request (electionA 5) = some (.watch req) ∧ req.startRevision = 7) ∧
      ¬ Throughout (HeedsCompaction (electionA 5)) h s := by
  refine ⟨_, _, rfl, rfl, ⟨_, rfl, rfl⟩, ?_⟩
  intro ht
  exact ht.last.2 _ rfl (by decide)

end

end Election

end Etcdv3Client
