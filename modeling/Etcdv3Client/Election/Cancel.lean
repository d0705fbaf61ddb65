import Etcdv3Client.Election.Forward

/-!
# Watch after its context is done

`Watch` looks at `ctx` in its two backoff waits only. Between them are the
calls it makes when everything succeeds: a read, a watch, an event, the
next read. The context may become done before a request is sent or after,
so here sending is a step of its own.
-/

namespace Etcdv3Client

namespace Election

open Transition

section
variable {B : BackOffStrategy}

/-! ## Watch and its context -/

structure CtxState (B : BackOffStrategy) where
  watch : State B
  ctxDone : Bool := false
  /-- the request of the call under way was sent -/
  sent : Bool := false

inductive CtxLabel where
  /-- the context becomes done, cancelled or at its deadline -/
  | ctxDone
  /-- the request of the call is sent -/
  | send
  /-- the call answers -/
  | answer (a : Answer)

/-- `ctx->Wait` says whether the context is done. -/
def Answer.agrees (ctxDone : Bool) : Answer → Bool
  | .wait done => done == ctxDone
  | _ => true

/-- The counter of a Range request. -/
def Pc.ranges : Pc → Bool
  | .getLeader => true
  | _ => false

/-- The counter of a watch-create request. -/
def Pc.watches : Pc → Bool
  | .watchSingle _ _ => true
  | _ => false

/-- The counter after an event has ended the round. -/
def Pc.roundEnded : Pc → Bool
  | .finishFound => true
  | _ => false

/-- The call sends a request. -/
def Pc.sends (pc : Pc) : Bool := pc.ranges || pc.watches

def ctxStep (call : Call) (c : CtxState B) : CtxLabel → Option (CtxState B)
  | .ctxDone => some { c with ctxDone := true }
  | .send => if c.watch.pc.sends && !c.sent then some { c with sent := true } else none
  | .answer a =>
      if a.agrees c.ctxDone && (!c.watch.pc.sends || c.sent) then
        (step call c.watch a).map fun w => { c with watch := w, sent := false }
      else none

def CtxInit (call : Call) (c : CtxState B) : Prop :=
  Init call c.watch ∧ c.ctxDone = false ∧ c.sent = false

abbrev CtxRun (call : Call) (h : History (CtxState B) CtxLabel) (c : CtxState B) : Prop :=
  Run (ctxStep call) (CtxInit call) h c

/-- The requests of a kind sent since the context is done. -/
def sentSinceDone (kind : Pc → Bool) : History (CtxState B) CtxLabel → Nat
  | [] => 0
  | (c, .send) :: h => (c.ctxDone && kind c.watch.pc).toNat + sentSinceDone kind h
  | _ :: h => sentSinceDone kind h

/-- The request that `Watch` is about to send, the context being done. -/
def due (kind : Pc → Bool) (c : CtxState B) : Nat :=
  (c.ctxDone && kind c.watch.pc && !c.sent).toNat

/-- Once the context is done `Watch` issues at most one more Range and one
more watch-create request. -/
def StopsSoon (h : History (CtxState B) CtxLabel) (c : CtxState B) : Prop :=
  sentSinceDone Pc.ranges h + due Pc.ranges c ≤ 1 ∧
    sentSinceDone Pc.watches h + due Pc.watches c ≤ 1

/-! ## The answers since the context is done -/

/-- The answers that `Watch` was given. -/
def watchHistory : History (CtxState B) CtxLabel → History (State B) Answer
  | [] => []
  | (c, .answer a) :: h => (c.watch, a) :: watchHistory h
  | _ :: h => watchHistory h

/-- A successful Range reply that leaves the node without a leader, or with
one created no later than the caller's revision, and than the event that
ended the round. -/
def oldLeader (call : Call) (h : History (CtxState B) CtxLabel) (c : CtxState B) (a : Answer) :
    Bool :=
  a.reply.any fun rsp =>
    let node := (getLeaderReply c.watch.node (.ok rsp)).2
    let seen := bound call (watchHistory h)
    !(node.isValid && (seen == 0 || seen < node.createRevision))

/-- Those replies. -/
def oldLeadersSinceDone (call : Call) : History (CtxState B) CtxLabel → Nat
  | [] => 0
  | (c, .answer a) :: h =>
      oldLeadersSinceDone call h + (c.ctxDone && oldLeader call h c a).toNat
  | _ :: h => oldLeadersSinceDone call h

/-- The responses with an awaited event. -/
def eventsSinceDone : History (CtxState B) CtxLabel → Nat
  | [] => 0
  | (c, .answer a) :: h =>
      eventsSinceDone h + (c.ctxDone && (endingEvent c.watch a).isSome).toNat
  | _ :: h => eventsSinceDone h

/-- A Range was still to be sent when the context became done: the read had
begun, or an event had just ended the round. -/
def CtxState.beforeRange (c : CtxState B) : Bool :=
  c.watch.pc.ranges && !c.sent || c.watch.pc.roundEnded

/-- The same of a watch-create. -/
def CtxState.beforeWatch (c : CtxState B) : Bool := c.watch.pc.watches && !c.sent

def whenDone (pending : CtxState B → Bool) : History (CtxState B) CtxLabel → Nat
  | [] => 0
  | (c, .ctxDone) :: h => if c.ctxDone then whenDone pending h else (pending c).toNat
  | _ :: h => whenDone pending h

/-- Whenever `Watch` is answered with the context done, no more than one
awaited event came before since then, none if a Range was still to be sent
at that moment; and with this answer no more than one reply without a new
leader, none if a watch-create was. -/
def LastRound (call : Call) (h : History (CtxState B) CtxLabel) (c : CtxState B) :
    CtxLabel → Prop
  | .answer a => c.ctxDone = true →
      whenDone CtxState.beforeRange h + eventsSinceDone h ≤ 1 ∧
      whenDone CtxState.beforeWatch h + oldLeadersSinceDone call ((c, .answer a) :: h) ≤ 1
  | _ => True

instance (call : Call) (h : History (CtxState B) CtxLabel) (c : CtxState B) :
    ∀ l : CtxLabel, Decidable (LastRound call h c l)
  | .answer a => inferInstanceAs (Decidable (c.ctxDone = true →
      whenDone CtxState.beforeRange h + eventsSinceDone h ≤ 1 ∧
      whenDone CtxState.beforeWatch h + oldLeadersSinceDone call ((c, .answer a) :: h) ≤ 1))
  | .ctxDone => inferInstanceAs (Decidable True)
  | .send => inferInstanceAs (Decidable True)

/-! ## What one step can do -/

inductive CtxStep (call : Call) : CtxState B → CtxLabel → CtxState B → Prop where
  | ctxDone {c} : CtxStep call c .ctxDone { c with ctxDone := true }
  | send {c} : c.watch.pc.sends = true → c.sent = false →
      CtxStep call c .send { c with sent := true }
  | answer {c a w} : a.agrees c.ctxDone = true → (c.watch.pc.sends = true → c.sent = true) →
      step call c.watch a = some w → CtxStep call c (.answer a) { c with watch := w, sent := false }

theorem ctxStep_cases {call : Call} {c c' : CtxState B} {l : CtxLabel}
    (h : ctxStep call c l = some c') : CtxStep call c l c' := by
  cases l with
  | ctxDone =>
    cases h
    exact .ctxDone
  | send =>
    simp only [ctxStep] at h
    split at h
    · rename_i hsend
      rw [Bool.and_eq_true, Bool.not_eq_true'] at hsend
      cases h
      exact .send hsend.1 hsend.2
    · cases h
  | answer a =>
    simp only [ctxStep] at h
    split at h
    · rename_i hok
      rw [Bool.and_eq_true, Bool.or_eq_true, Bool.not_eq_true'] at hok
      rw [Option.map_eq_some_iff] at h
      obtain ⟨w, hw, rfl⟩ := h
      refine .answer hok.1 ?_ hw
      intro hsends
      rcases hok.2 with hno | hsent
      · rw [hno] at hsends
        cases hsends
      · exact hsent
    · cases h

/-- Where the step of `Watch` leads, with the context done: to a Range only
where a round was ended, to a watch-create only by a read, and to the end of
a round by an awaited event. -/
theorem step_sends {call : Call} {s s' : State B} {a : Answer} (hs : step call s a = some s')
    (ha : a.agrees true = true) :
    s'.pc.ranges = s.pc.roundEnded ∧
      s'.pc.watches = a.reply.any (fun rsp => !(s.withReply rsp).isNew) ∧
      s'.pc.roundEnded = (endingEvent s a).isSome := by
  cases step_iff.mp hs with
  | @leader n r b rsp =>
    rcases afterLeader_cases call ⟨(getLeaderReply n (.ok rsp)).2, r, b, .getLeader⟩ with
      ⟨hnew, hret⟩ | ⟨hold, o, e, hwatch, -⟩
    · rw [hret]
      refine ⟨rfl, ?_, rfl⟩
      show false = !(State.isNew _)
      rw [State.withReply, hnew]
      rfl
    · rw [hwatch]
      refine ⟨rfl, ?_, rfl⟩
      show true = !(State.isNew _)
      rw [State.withReply, hold]
      rfl
  | found hfound => exact ⟨rfl, rfl, by simp [endingEvent, hfound, Pc.roundEnded]⟩
  | notFound hnone => exact ⟨rfl, rfl, by simp [endingEvent, hnone, Pc.roundEnded]⟩
  -- a wait that runs out does not find the context done
  | leaderWaitOver => cases ha
  | watchWaitOver => cases ha
  | _ => exact ⟨rfl, rfl, rfl⟩

/-- What `Watch` remembers as seen is what the events and the caller say. -/
theorem isNew_of_bounded {call : Call} {h : History (CtxState B) CtxLabel} {c : CtxState B}
    {a : Answer} {w : State B} (hb : Bounded call (watchHistory h) c.watch)
    (hs : step call c.watch a = some w) :
    a.reply.any (fun rsp => !(c.watch.withReply rsp).isNew) = oldLeader call h c a := by
  unfold oldLeader
  cases ha : a.reply with
  | none => rfl
  | some rsp =>
    have hrev : c.watch.revision = bound call (watchHistory h) := by
      refine hb ?_
      unfold Answer.reply at ha
      obtain ⟨⟨n, r, b, pc⟩, done, sent⟩ := c
      cases step_iff.mp hs <;> first | rfl | cases ha
    simp only [Option.any_some, State.withReply, State.isNew, hrev]

/-! ## Main result -/

/-- The requests against the answers. -/
structure Counted (call : Call) (h : History (CtxState B) CtxLabel) (c : CtxState B) : Prop where
  bounded : Bounded call (watchHistory h) c.watch
  before : c.ctxDone = false → (∀ kind, sentSinceDone kind h = 0) ∧
    (∀ pending, whenDone pending h = 0) ∧ eventsSinceDone h = 0 ∧ oldLeadersSinceDone call h = 0
  /-- an event that has just ended the round counts for a Range to come -/
  ranges : c.ctxDone = true →
    sentSinceDone Pc.ranges h + due Pc.ranges c + c.watch.pc.roundEnded.toNat
      = whenDone CtxState.beforeRange h + eventsSinceDone h
  watches : c.ctxDone = true →
    sentSinceDone Pc.watches h + due Pc.watches c
      = whenDone CtxState.beforeWatch h + oldLeadersSinceDone call h

/-- A context that is done stays as it is. -/
theorem CtxState.done_again {c : CtxState B} (hdone : c.ctxDone = true) :
    { c with ctxDone := true } = c := by
  rw [← hdone]

/-- Sending is what was due. -/
theorem sent_of_due {kind : Pc → Bool} {h : History (CtxState B) CtxLabel} {c : CtxState B}
    (hsent : c.sent = false) :
    sentSinceDone kind ((c, .send) :: h) + due kind { c with sent := true }
      = sentSinceDone kind h + due kind c := by
  simp only [sentSinceDone, due, hsent, Bool.not_true, Bool.and_false, Bool.not_false,
    Bool.and_true, Bool.toNat_false]
  omega

/-- The call that answers has sent its request. -/
theorem due_of_answer {c : CtxState B} (hsent : c.watch.pc.sends = true → c.sent = true) :
    due Pc.ranges c = 0 ∧ due Pc.watches c = 0 := by
  unfold Pc.sends at hsent
  unfold due
  cases hr : c.watch.pc.ranges <;> cases hw : c.watch.pc.watches <;> simp_all

theorem counted_step {call : Call} {h : History (CtxState B) CtxLabel} {c c' : CtxState B}
    {l : CtxLabel} (hi : Counted call h c) (hs : ctxStep call c l = some c') :
    Counted call ((c, l) :: h) c' := by
  cases ctxStep_cases hs with
  | ctxDone =>
    refine ⟨hi.bounded, nofun, fun _ => ?_, fun _ => ?_⟩
    · cases hdone : c.ctxDone with
      | true =>
        rw [CtxState.done_again hdone]
        simpa [sentSinceDone, whenDone, eventsSinceDone, hdone] using hi.ranges hdone
      | false =>
        obtain ⟨hsent, -, hevents, -⟩ := hi.before hdone
        simp only [sentSinceDone, whenDone, eventsSinceDone, hsent, hevents, hdone, due,
          CtxState.beforeRange]
        cases c.watch.pc <;> simp [Pc.ranges, Pc.roundEnded]
    · cases hdone : c.ctxDone with
      | true =>
        rw [CtxState.done_again hdone]
        simpa [sentSinceDone, whenDone, oldLeadersSinceDone, hdone] using hi.watches hdone
      | false =>
        obtain ⟨hsent, -, -, hold⟩ := hi.before hdone
        simp [sentSinceDone, whenDone, oldLeadersSinceDone, hsent, hold, hdone, due,
          CtxState.beforeWatch]
  | send _ hsent =>
    refine ⟨hi.bounded, fun hopen => ?_, fun hdone => ?_, fun hdone => ?_⟩
    · obtain ⟨hnone, hrest⟩ := hi.before hopen
      have hopen' : c.ctxDone = false := hopen
      exact ⟨fun kind => by simp [sentSinceDone, hnone kind, hopen'], hrest⟩
    · rw [sent_of_due hsent]
      exact hi.ranges hdone
    · rw [sent_of_due hsent]
      exact hi.watches hdone
  | @answer a w hag hsent hw =>
    refine ⟨bounded_step hi.bounded hw, fun hopen => ?_, fun hdone => ?_, fun hdone => ?_⟩
    · obtain ⟨hnone, hwhen, hevents, hold⟩ := hi.before hopen
      have hopen' : c.ctxDone = false := hopen
      refine ⟨hnone, hwhen, ?_, ?_⟩
      · simp [eventsSinceDone, hevents, hopen']
      · simp [oldLeadersSinceDone, hold, hopen']
    · have hdone' : c.ctxDone = true := hdone
      obtain ⟨hranges, -, hended⟩ := step_sends hw (by rwa [hdone'] at hag)
      have hzero := (due_of_answer hsent).1
      have hcount := hi.ranges hdone'
      simp only [sentSinceDone, whenDone, eventsSinceDone, due, hdone', hranges, hended,
        Bool.true_and, Bool.not_false, Bool.and_true]
      omega
    · have hdone' : c.ctxDone = true := hdone
      obtain ⟨-, hwatches, -⟩ := step_sends hw (by rwa [hdone'] at hag)
      rw [isNew_of_bounded hi.bounded hw] at hwatches
      have hzero := (due_of_answer hsent).2
      have hcount := hi.watches hdone'
      simp only [sentSinceDone, whenDone, oldLeadersSinceDone, due, hdone', hwatches,
        Bool.true_and, Bool.not_false, Bool.and_true]
      omega

theorem counted_init {call : Call} {c : CtxState B} (hc : CtxInit call c) :
    Counted call [] c := by
  obtain ⟨hinit, hopen, -⟩ := hc
  refine ⟨bounded_init hinit, fun _ => ⟨fun _ => rfl, fun _ => rfl, rfl, rfl⟩, ?_, ?_⟩
  · intro hdone
    exact absurd (hopen.symm.trans hdone) (by decide)
  · intro hdone
    exact absurd (hopen.symm.trans hdone) (by decide)

theorem stopsSoon_step {call : Call} {h : History (CtxState B) CtxLabel} {c c' : CtxState B}
    {l : CtxLabel} (hi : Counted call h c) (hp : StopsSoon h c)
    (hs : ctxStep call c l = some c') :
    StopsSoon ((c, l) :: h) c' ↔ LastRound call h c l := by
  have hi' := counted_step hi hs
  cases ctxStep_cases hs with
  | ctxDone =>
    refine iff_of_true ?_ trivial
    cases hdone : c.ctxDone with
    | true =>
      rw [CtxState.done_again hdone]
      exact hp
    | false =>
      -- a request that `Watch` is about to send is the first to count
      have hone : ∀ kind, due kind { c with ctxDone := true } ≤ 1 := fun _ => Bool.toNat_le _
      obtain ⟨hnone, -⟩ := hi.before hdone
      constructor
      · simpa [sentSinceDone, hnone] using hone Pc.ranges
      · simpa [sentSinceDone, hnone] using hone Pc.watches
  | send _ hsent =>
    refine iff_of_true ?_ trivial
    unfold StopsSoon
    rw [sent_of_due hsent, sent_of_due hsent]
    exact hp
  | @answer a w hag hsent hw =>
    unfold StopsSoon LastRound
    cases hdone : c.ctxDone with
    | false =>
      refine iff_of_true ?_ nofun
      obtain ⟨hnone, -⟩ := hi.before hdone
      simp [sentSinceDone, due, hnone]
    | true =>
      obtain ⟨hranges, -, -⟩ := step_sends hw (by rwa [hdone] at hag)
      have hzero := (due_of_answer hsent).1
      have hbefore := hi.ranges hdone
      have hwatches := hi'.watches hdone
      obtain ⟨hle, -⟩ := hp
      rw [hdone] at hwatches
      rw [hwatches]
      -- before the answer the count is within one, but for the event that ended the round
      have hsame : sentSinceDone Pc.ranges ((c, .answer a) :: h)
          + due Pc.ranges { watch := w, ctxDone := true }
          = sentSinceDone Pc.ranges h + c.watch.pc.roundEnded.toNat := by
        simp [sentSinceDone, due, hranges]
      rw [hsame]
      simp only [whenDone, forall_const]
      refine and_congr ?_ Iff.rfl
      omega

/-- **A cancelled Watch stops**: once the context is done it issues at most
one further Range and one further watch-create request, if and only if from
then on it is answered no further after a second awaited event, nor by a
second successful Range reply without a new leader; after the first, where
the request was still to be sent when the context became done. -/
theorem cancelled_watch_stops_iff {call : Call} {h : History (CtxState B) CtxLabel}
    {c : CtxState B} (hr : CtxRun call h c) :
    Throughout StopsSoon h c ↔ Along (LastRound call) h := by
  refine Run.throughout_iff (J := Counted call) (D := fun _ _ _ => True) ?_ ?_ ?_ hr
    (Along.of_true h)
  · intro c hc
    refine ⟨?_, counted_init hc⟩
    simp [StopsSoon, sentSinceDone, due, hc.2.1]
  · exact fun _ hj _ _ hs => counted_step hj hs
  · exact fun _ hj hp _ hs => stopsSoon_step hj hp hs

/-- A `Watch` at its beginning. -/
def CtxState.leaderless : CtxState B :=
  { watch := State.new (electionA 5) ⟨[], [], 0, 0, 0, 0, 0⟩ }

/-- It reads a leader and watches, and the stream fails. -/
def cancelledScript : List CtxLabel :=
  [.ctxDone, .send, .answer (reply 6 [{ key := [0x61], createRevision := 5, lease := 1 }]),
    .send, .answer .stream, .answer (.read none), .answer (.finish .cancelled),
    .answer (.wait true)]

/-- The wait after the failure returns. -/
theorem cancelled_watch_stops_failed :
    ∃ h c, exec (ctxStep (electionA 5)) [] (.leaderless : CtxState .constant)
        cancelledScript = some (h, c) ∧
      c.watch.status = some { code := .cancelled } ∧ sentSinceDone Pc.ranges h = 1 ∧
      Throughout StopsSoon h c := by
  refine ⟨_, _, rfl, rfl, rfl, ?_⟩
  refine (cancelled_watch_stops_iff (Run.exec (.start ⟨⟨_, rfl⟩, rfl, rfl⟩)
    (rfl : exec (ctxStep (electionA 5)) [] (.leaderless : CtxState .constant)
      cancelledScript = some (_, _)))).mpr ?_
  decide

/-- It reads no leader, and the event of one ends the round. -/
def anotherRoundScript : List CtxLabel :=
  [.ctxDone, .send, .answer (reply 6 []), .send, .answer .stream,
    .answer (.read (some { events := [firstEvent] })), .answer (.finish .cancelled), .send]

/-- The next Range is the second one. -/
theorem cancelled_watch_goes_on :
    ∃ h c, exec (ctxStep (electionA 5)) [] (.leaderless : CtxState .constant)
        anotherRoundScript = some (h, c) ∧
      sentSinceDone Pc.ranges h = 2 ∧ ¬ Throughout StopsSoon h c := by
  refine ⟨_, _, rfl, rfl, ?_⟩
  intro ht
  exact absurd ht.last.1 (by decide)

/-! ## The loop -/

/-- A cancelled `Watch` that has sent `n` Range requests since, and finds no
leader. -/
structure CancelledLoop (n : Nat) (h : History (CtxState B) CtxLabel) (c : CtxState B) :
    Prop where
  run : CtxRun (electionA 5) h c
  ctxDone : c.ctxDone = true
  sent : c.sent = false
  ranges : sentSinceDone Pc.ranges h = n
  pc : c.watch.pc = .getLeader
  invalid : c.watch.node.isValid = false

theorem ctxStep_answer {call : Call} {c : CtxState B} {a : Answer} {w : State B}
    (hag : a.agrees c.ctxDone = true) (hsent : c.watch.pc.sends = false ∨ c.sent = true)
    (hw : step call c.watch a = some w) :
    ctxStep call c (.answer a) = some { c with watch := w, sent := false } := by
  simp only [ctxStep]
  rw [if_pos, hw, Option.map_some]
  simpa [hag] using hsent

theorem CancelledLoop.next {n : Nat} {h : History (CtxState B) CtxLabel} {c : CtxState B}
    (hl : CancelledLoop n h c) : ∃ h', ∃ c' : CtxState B, CancelledLoop (n + 1) h' c' := by
  obtain ⟨⟨node, r, b, pc⟩, done, sent⟩ := c
  obtain ⟨hrun, hdone, hsent, hranges, hpc, hinv⟩ := hl
  subst hdone hsent hpc
  obtain ⟨o, hread, hopen, hfound, hover, -⟩ := leaderless_round hinv r b
  have hreq : ctxStep (electionA 5) ⟨⟨node, r, b, .getLeader⟩, true, false⟩ .send
      = some ⟨⟨node, r, b, .getLeader⟩, true, true⟩ := rfl
  have hcreate : ctxStep (electionA 5)
      ⟨⟨node.setCurrentRevision 8, r, B.reset b, .watchSingle o .put⟩, true, false⟩ .send
      = some ⟨⟨node.setCurrentRevision 8, r, B.reset b, .watchSingle o .put⟩, true, true⟩ := rfl
  refine ⟨_, _, (((((hrun.next hreq).next (ctxStep_answer rfl (Or.inr rfl) hread)).next
    hcreate).next (ctxStep_answer rfl (Or.inr rfl) hopen)).next
    (ctxStep_answer rfl (Or.inl rfl) hfound)).next (ctxStep_answer rfl (Or.inl rfl) hover),
    rfl, rfl, ?_, rfl, hinv⟩
  calc _ = 0 + (1 + sentSinceDone Pc.ranges h) := rfl
    _ = n + 1 := by rw [hranges]; omega

/-- **Replies and events that all succeed keep a cancelled Watch going** for
any number of requests. -/
theorem cancelled_watch_loops (n : Nat) :
    ∃ h, ∃ c : CtxState B, CancelledLoop n h c := by
  induction n with
  | zero =>
    have hstart : CtxRun (electionA 5) [] (.leaderless : CtxState B) :=
      .start ⟨⟨_, rfl⟩, rfl, rfl⟩
    exact ⟨_, _, hstart.next (l := .ctxDone) rfl, rfl, rfl, rfl, rfl, rfl⟩
  | succ n ih =>
    obtain ⟨h, c, hl⟩ := ih
    exact hl.next

end

end Election

end Etcdv3Client
