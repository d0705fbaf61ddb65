import Mathlib.Data.Int.Interval
import Etcdv3Client.Election.Revision

/-!
# Watch moves forward in history

An event that ended a round is behind the next watch request, where the
read in between covers it and the request starts past the read. It does
with a leader. Without one the request starts at the `create_revision` of
that event minus one, and the stream delivers the same event again.
-/

namespace Etcdv3Client

namespace Election

open Transition

section
variable {B : BackOffStrategy}

/-! ## The events of a run -/

/-- The event that ends the round. -/
def endingEvent (s : State B) (a : Answer) : Option Event :=
  match s.pc, a with
  | .read _ e, .read (some rsp) => findEvent e rsp
  | _, _ => none

/-- The revisions of the events that ended rounds, newest first. -/
def endedMods (h : History (State B) Answer) : List Int :=
  h.filterMap fun p => (endingEvent p.1 p.2).map fun event => event.kv.modRevision

/-- The events that an answer delivers. -/
def Answer.events : Answer → List Event
  | .read (some rsp) => rsp.events
  | _ => []

/-- The revisions of the events delivered so far. -/
def deliveredMods (h : History (State B) Answer) : List Int :=
  h.flatMap fun p => p.2.events.map fun event => event.kv.modRevision

theorem endedBy_eq (s : State B) (a : Answer) :
    endedBy s a = (endingEvent s a).map fun event => event.kv.createRevision := by
  obtain ⟨n, r, b, pc⟩ := s
  cases pc with
  | read o e =>
    cases a with
    | read rsp => cases rsp <;> rfl
    | _ => rfl
  | _ => rfl

theorem endingEvent_mem {s : State B} {a : Answer} {event : Event}
    (h : endingEvent s a = some event) : event ∈ a.events := by
  unfold endingEvent at h
  split at h
  · exact List.mem_of_find?_eq_some h
  · cases h

theorem endedMods_frame {h : History (State B) Answer} {s : State B} {a : Answer}
    (ha : endingEvent s a = none) : endedMods ((s, a) :: h) = endedMods h := by
  simp [endedMods, ha]

theorem mem_deliveredMods {h : History (State B) Answer} {m : Int} (hm : m ∈ endedMods h) :
    m ∈ deliveredMods h := by
  unfold endedMods at hm
  rw [List.mem_filterMap] at hm
  obtain ⟨p, hp, hend⟩ := hm
  rw [Option.map_eq_some_iff] at hend
  obtain ⟨event, hevent, rfl⟩ := hend
  unfold deliveredMods
  rw [List.mem_flatMap]
  exact ⟨p, hp, List.mem_map_of_mem (endingEvent_mem hevent)⟩

/-! ## What is assumed of the server -/

/-- The header revision of a Range reply is at least the revision of every
event delivered before. -/
def HeadersCover (h : History (State B) Answer) (_ : State B) (a : Answer) : Prop :=
  ∀ rsp ∈ a.reply, ∀ m ∈ deliveredMods h, m ≤ rsp.header.revision

instance (h : History (State B) Answer) (s : State B) (a : Answer) :
    Decidable (HeadersCover h s a) :=
  inferInstanceAs (Decidable (∀ rsp ∈ a.reply, ∀ m ∈ deliveredMods h, m ≤ rsp.header.revision))

/-- A stream delivers the events from its `start_revision` on. -/
def FromStart (call : Call) (_ : History (State B) Answer) (s : State B) (a : Answer) : Prop :=
  ∀ o, s.pc.watchOptions = some o → ∀ event ∈ a.events,
    (Client.watchSingleRequest call.keyPrefix o).startRevision ≤ event.kv.modRevision

/-! ## Forward -/

/-- Every watch-create request about to be sent starts past all events that
ended a round. -/
def MovesForward (call : Call) (h : History (State B) Answer) (s : State B) : Prop :=
  ∀ req, s.request call = some (.watch req) → ∀ m ∈ endedMods h, m < req.startRevision

/-- A reply that leaves the node without a leader comes before any event has
ended a round, or those events are before what `revision` holds. -/
def LeaderAfterRound (call : Call) (h : History (State B) Answer) (s : State B) (a : Answer) :
    Prop :=
  ∀ rsp ∈ a.reply, (s.withReply rsp).node.isValid = false → ∀ m ∈ endedMods h, m < bound call h

instance (call : Call) (h : History (State B) Answer) (s : State B) (a : Answer) :
    Decidable (LeaderAfterRound call h s a) :=
  inferInstanceAs (Decidable (∀ rsp ∈ a.reply, (s.withReply rsp).node.isValid = false →
    ∀ m ∈ endedMods h, m < bound call h))

/-- The options of the round start past all those events. -/
structure RoundForward (call : Call) (h : History (State B) Answer) (s : State B) : Prop where
  bounded : Bounded call h s
  start : ∀ o, s.pc.watchOptions = some o → ∀ m ∈ endedMods h,
    m < (Client.watchSingleRequest call.keyPrefix o).startRevision

theorem withReply_watchFrom {s : State B} {rsp : RangeResponse}
    (hvalid : (s.withReply rsp).node.isValid = true) :
    rsp.header.revision < (s.withReply rsp).watchFrom := by
  have hrev : (s.withReply rsp).node.watchRevision = rsp.header.revision :=
    getLeaderReply_watchRevision s.node rsp
  unfold State.watchFrom
  rw [if_pos hvalid, hrev]
  omega

theorem watchFrom_invalid {s : State B} (h : s.node.isValid = false) :
    s.watchFrom = s.revision := by
  unfold State.watchFrom
  rw [h]
  rfl

theorem isNew_invalid {s : State B} (h : s.node.isValid = false) : s.isNew = false := by
  unfold State.isNew
  rw [h]
  rfl

/-- The round that a read begins starts past the events, with a leader by
the header, without one by the condition. -/
theorem RoundForward.watchFrom {call : Call} {h : History (State B) Answer} {s : State B}
    {rsp : RangeResponse} (hi : RoundForward call h s) (hpc : s.pc = .getLeader)
    (hd : HeadersCover h s (.range (.ok rsp)))
    (hc : LeaderAfterRound call h s (.range (.ok rsp))) :
    ∀ m ∈ endedMods h, m < (s.withReply rsp).watchFrom := by
  intro m hm
  cases hvalid : (s.withReply rsp).node.isValid with
  | true =>
    -- the read covers the events, and the round starts past the read
    calc m ≤ rsp.header.revision := hd rsp rfl m (mem_deliveredMods hm)
      _ < (s.withReply rsp).watchFrom := withReply_watchFrom hvalid
  | false =>
    -- the round starts at what the last event left in `revision`
    have hrev : s.revision = bound call h := hi.bounded (by rw [hpc]; rfl)
    rw [watchFrom_invalid hvalid]
    exact (hc rsp rfl hvalid m hm).trans_eq hrev.symm

theorem roundForward_step {call : Call} {h : History (State B) Answer} {s s' : State B}
    {a : Answer} (hi : RoundForward call h s) (hd : HeadersCover h s a)
    (hc : LeaderAfterRound call h s a) (hs : step call s a = some s') :
    RoundForward call ((s, a) :: h) s' := by
  refine ⟨bounded_step hi.bounded hs, ?_⟩
  intro o ho m hm
  have hends : endingEvent s a = none := by
    cases step_iff.mp hs with
    | found => cases ho
    | notFound hnone => exact hnone
    | _ => rfl
  rw [endedMods_frame hends] at hm
  rcases watchOptions_step hs ho with ⟨ho', -⟩ | ⟨rsp, rfl, hpc, -, hstart⟩
  · exact hi.start o ho' m hm
  · rw [hstart]
    exact hi.watchFrom hpc hd hc m hm

theorem RoundForward.movesForward {call : Call} {h : History (State B) Answer} {s : State B}
    (hi : RoundForward call h s) : MovesForward call h s := by
  intro req hreq
  obtain ⟨o, ho, rfl⟩ := request_watch hreq
  exact hi.start o ho

theorem leaderAfterRound_of_forward {call : Call} {h : History (State B) Answer}
    {s s' : State B} {a : Answer} (hi : RoundForward call h s) (hs : step call s a = some s')
    (hp : MovesForward call ((s, a) :: h) s') : LeaderAfterRound call h s a := by
  have hs' := hs
  cases step_iff.mp hs with
  | @leader n r b rsp =>
    intro rsp' ha hvalid m hm
    cases ha
    obtain ⟨req, hreq, hstart⟩ := request_of_watches hs' (isNew_invalid hvalid)
    have hlt := hp req hreq m (by rwa [endedMods_frame rfl])
    rw [hstart, watchFrom_invalid hvalid] at hlt
    exact hlt.trans_eq (hi.bounded rfl)
  | _ => exact fun rsp ha => by cases ha

/-! ## Every round on a new event -/

theorem endedMods_found {h : History (State B) Answer} {s : State B} {a : Answer} {event : Event}
    (hend : endingEvent s a = some event) :
    endedMods ((s, a) :: h) = event.kv.modRevision :: endedMods h := by
  simp [endedMods, hend]

/-- The event that ends a round comes after those that ended the rounds
before. -/
theorem RoundForward.new_event {call : Call} {h : History (State B) Answer} {s s' : State B}
    {a : Answer} (hi : RoundForward call h s) (hf : FromStart call h s a)
    (hs : step call s a = some s') (hp : (endedMods h).Pairwise (· > ·)) :
    (endedMods ((s, a) :: h)).Pairwise (· > ·) := by
  cases hend : endingEvent s a with
  | none => rwa [endedMods_frame hend]
  | some event =>
    rw [endedMods_found hend, List.pairwise_cons]
    refine ⟨?_, hp⟩
    intro m hm
    cases step_iff.mp hs with
    | @found n r b o e rsp event' hfound =>
      -- the stream delivers from the start of the round on
      calc m < _ := hi.start o rfl m hm
        _ ≤ event.kv.modRevision := hf o rfl event (endingEvent_mem hend)
    | notFound hnone =>
      have hsame := hend.symm.trans hnone
      cases hsame
    | _ => cases hend

theorem roundForward_init {call : Call} {s : State B} (h : Init call s) :
    RoundForward call [] s := by
  refine ⟨bounded_init h, ?_⟩
  intro o _ m hm
  simp [endedMods] at hm

theorem endedMods_pairwise {call : Call} {h : History (State B) Answer} {s : State B}
    (hr : WatchRun call h s) (hd : Along HeadersCover h) (hc : Along (LeaderAfterRound call) h)
    (hf : Along (FromStart call) h) : (endedMods h).Pairwise (· > ·) := by
  have hboth : RoundForward call h s ∧ (endedMods h).Pairwise (· > ·) := by
    refine hr.inv_along (P := fun h s => RoundForward call h s ∧
      (endedMods h).Pairwise (· > ·)) ?_ ?_ (hd.and (hc.and hf))
    · exact fun s hs => ⟨roundForward_init hs, by simp [endedMods]⟩
    · intro h s s' a _ ⟨hi, hp⟩ ⟨hd, hc, hf⟩ hs
      exact ⟨roundForward_step hi hd hc hs, hi.new_event hf hs hp⟩
  exact hboth.2

/-! ## Events of a store -/

/-- The events that are delivered were created no later than modified. -/
def CreatedFirst (_ : History (State B) Answer) (_ : State B) (a : Answer) : Prop :=
  ∀ event ∈ a.events, event.kv.createRevision ≤ event.kv.modRevision

instance (h : History (State B) Answer) (s : State B) (a : Answer) :
    Decidable (CreatedFirst h s a) :=
  inferInstanceAs (Decidable (∀ event ∈ a.events, event.kv.createRevision ≤ event.kv.modRevision))

/-- After a round that an event ended, a read leaves the node with a
leader. -/
def LeaderFound (h : History (State B) Answer) (s : State B) (a : Answer) : Prop :=
  ∀ rsp ∈ a.reply, (s.withReply rsp).node.isValid = false → endedMods h = []

instance (h : History (State B) Answer) (s : State B) (a : Answer) :
    Decidable (LeaderFound h s a) :=
  inferInstanceAs (Decidable (∀ rsp ∈ a.reply, (s.withReply rsp).node.isValid = false →
    endedMods h = []))

/-- The event that `Watch` remembers is one of those that ended a round. -/
theorem lastEnded_mem {h : History (State B) Answer} {c : Int} (hlast : lastEnded h = some c) :
    ∃ p ∈ h, ∃ event, endingEvent p.1 p.2 = some event ∧ event.kv.createRevision = c := by
  obtain ⟨p, hp, hend⟩ := List.exists_of_findSome?_eq_some hlast
  rw [endedBy_eq, Option.map_eq_some_iff] at hend
  obtain ⟨event, hevent, hcreate⟩ := hend
  exact ⟨p, hp, event, hevent, hcreate⟩

theorem endedMods_of_lastEnded_none {h : History (State B) Answer} (hlast : lastEnded h = none) :
    endedMods h = [] := by
  unfold endedMods
  rw [List.filterMap_eq_nil_iff]
  intro p hp
  have hnone := List.findSome?_eq_none_iff.mp hlast p hp
  rw [endedBy_eq, Option.map_eq_none_iff] at hnone
  rw [hnone]
  rfl

/-- An event that was created no later than modified is never before what
`revision` holds of it. -/
theorem leaderFound_of_afterRound {call : Call} {h : History (State B) Answer} {s : State B}
    {a : Answer} (hcreated : Along CreatedFirst h) (hc : LeaderAfterRound call h s a) :
    LeaderFound h s a := by
  intro rsp ha hvalid
  cases hlast : lastEnded h with
  | none => exact endedMods_of_lastEnded_none hlast
  | some c =>
    obtain ⟨p, hp, event, hevent, hcreate⟩ := lastEnded_mem hlast
    obtain ⟨_, hfirst⟩ := hcreated.of_mem p hp
    have hle := hfirst event (endingEvent_mem hevent)
    have hlt := hc rsp ha hvalid _ (List.mem_filterMap.mpr ⟨p, hp, by rw [hevent]; rfl⟩)
    unfold bound at hlt
    rw [hlast] at hlt
    dsimp only at hlt
    omega

theorem leaderAfterRound_of_found {call : Call} {h : History (State B) Answer} {s : State B}
    {a : Answer} (hc : LeaderFound h s a) : LeaderAfterRound call h s a := by
  intro rsp ha hvalid m hm
  rw [hc rsp ha hvalid] at hm
  cases hm

/-- With the events of a store the condition is that no event has ended a
round. -/
theorem leaderAfterRound_iff {call : Call} : ∀ {h : History (State B) Answer},
    Along CreatedFirst h → (Along (LeaderAfterRound call) h ↔ Along LeaderFound h)
  | [], _ => Iff.rfl
  | (s, a) :: h, hcreated => by
    rw [Along, Along, leaderAfterRound_iff hcreated.1]
    exact and_congr_right fun _ => ⟨leaderFound_of_afterRound hcreated.1, leaderAfterRound_of_found⟩

/-! ## Main result -/

/-- **Watch moves forward in history**, under the assumption on the headers:
every watch-create request starts past all events that ended a round, if
and only if no read after a round leaves the node without a leader (or its
events are before what `revision` holds, which those of a store never are).
Then, on streams that deliver from their `start_revision` on, every round
ends on a later event than those before. -/
theorem watch_moves_forward_iff {call : Call} {h : History (State B) Answer} {s : State B}
    (hr : WatchRun call h s) (hd : Along HeadersCover h) :
    (Throughout (MovesForward call) h s ↔ Along (LeaderAfterRound call) h) ∧
    (Along CreatedFirst h → (Throughout (MovesForward call) h s ↔ Along LeaderFound h)) ∧
    (Throughout (MovesForward call) h s → Along (FromStart call) h →
      (endedMods h).Pairwise (· > ·)) := by
  have hiff : Throughout (MovesForward call) h s ↔ Along (LeaderAfterRound call) h := by
    refine Run.throughout_iff (J := RoundForward call) (D := HeadersCover) ?_ ?_ ?_ hr hd
    · exact fun s hs => ⟨(roundForward_init hs).movesForward, roundForward_init hs⟩
    · exact fun _ hj hd hc hs => roundForward_step hj hd hc hs
    · exact fun _ hj _ hd hs => ⟨fun hp => leaderAfterRound_of_forward hj hs hp,
        fun hc => (roundForward_step hj hd hc hs).movesForward⟩
  refine ⟨hiff, fun hcreated => hiff.trans (leaderAfterRound_iff hcreated), fun ht hf => ?_⟩
  exact endedMods_pairwise hr hd (hiff.mp ht) hf

/-- A key without a lease is there, and a candidate that comes at 7 ends the
round; then the key gets a lease. -/
def leasedLaterScript : List Answer :=
  reply 6 [{ key := [0x61], createRevision := 5, modRevision := 5 }] ::
    delivered ⟨.put, { key := [0x61, 0x62], createRevision := 7, modRevision := 7, lease := 2 }⟩ ++
    [reply 8 [{ key := [0x61], createRevision := 5, modRevision := 8, lease := 1 }]]

/-- The next watch starts past that read. -/
theorem watch_moves_forward_leased_later :
    ∃ h s, exec (step (electionA 5)) []
        (State.new (electionA 5) ⟨[], [], 0, 0, 0, 0, 0⟩ : State .constant)
        leasedLaterScript = some (h, s) ∧
      (∃ req, s.request (electionA 5) = some (.watch req) ∧ req.startRevision = 9) ∧
      endedMods h = [7] ∧ Throughout (MovesForward (electionA 5)) h s := by
  refine ⟨_, _, rfl, ⟨_, rfl, rfl⟩, rfl, ?_⟩
  refine (watch_moves_forward_iff (Run.exec (.start ⟨_, rfl⟩)
    (rfl : exec (step (electionA 5)) []
      (State.new (electionA 5) ⟨[], [], 0, 0, 0, 0, 0⟩ : State .constant)
      leasedLaterScript = some (_, _))) ?_).2.1 ?_ |>.mpr ?_
  · decide
  · decide
  · decide

/-- The event of the first leader. -/
def firstEvent : Event :=
  ⟨.put, { key := [0x61], createRevision := 7, modRevision := 7, lease := 1 }⟩

/-- The first leader comes at 7 and is gone at 8. -/
def goneScript : List Answer :=
  reply 6 [] ::
    delivered firstEvent ++ [reply 8 []]

/-- The next watch starts before the event that ended the round. -/
theorem watch_starts_behind :
    ∃ h s, exec (step (electionA 5)) []
        (State.new (electionA 5) ⟨[], [], 0, 0, 0, 0, 0⟩ : State .constant)
        goneScript = some (h, s) ∧
      Along HeadersCover h ∧
      (∃ req, s.request (electionA 5) = some (.watch req) ∧ req.startRevision = 6) ∧
      ¬ Throughout (MovesForward (electionA 5)) h s := by
  refine ⟨_, _, rfl, by decide, ⟨_, rfl, rfl⟩, ?_⟩
  intro ht
  have hlt := ht.last _ rfl 7 (by decide)
  exact absurd hlt (by decide)

/-- On a store that no longer changes the rounds come to an end: there are
no more than the revisions of its events. -/
theorem rounds_le {call : Call} {h : History (State B) Answer} {s : State B}
    (hr : WatchRun call h s) (hd : Along HeadersCover h) (hc : Along (LeaderAfterRound call) h)
    (hf : Along (FromStart call) h) {N : Nat}
    (hN : ∀ m ∈ deliveredMods h, 1 ≤ m ∧ m ≤ (N : Int)) : (endedMods h).length ≤ N := by
  have hnodup : (endedMods h).Nodup :=
    (endedMods_pairwise hr hd hc hf).imp fun hgt => ne_of_gt hgt
  have hsub : (endedMods h).toFinset ⊆ Finset.Icc 1 (N : Int) := by
    intro m hm
    rw [Finset.mem_Icc]
    exact hN m (mem_deliveredMods (List.mem_toFinset.mp hm))
  calc (endedMods h).length = (endedMods h).toFinset.card :=
        (List.toFinset_card_of_nodup hnodup).symm
    _ ≤ (Finset.Icc 1 (N : Int)).card := Finset.card_le_card hsub
    _ = N := by simp

/-! ## The loop -/

/-- The rounds of a `Watch` that finds no leader and is delivered that event
again and again. -/
structure Looping (n : Nat) (h : History (State B) Answer) (s : State B) : Prop where
  run : WatchRun (electionA 5) h s
  covered : Along HeadersCover h
  streams : Along (FromStart (electionA 5)) h
  ended : endedMods h = List.replicate n 7
  delivered : ∀ m ∈ deliveredMods h, m = 7
  pc : s.pc = .getLeader
  invalid : s.node.isValid = false
  behind : s.revision ≤ 7

theorem fromStart_of_events_nil {call : Call} {h : History (State B) Answer} {s : State B}
    {a : Answer} (ha : a.events = []) : FromStart call h s a := by
  intro o _ event hevent
  rw [ha] at hevent
  cases hevent

theorem headersCover_of_reply_none {h : History (State B) Answer} {s : State B} {a : Answer}
    (ha : a.reply = none) : HeadersCover h s a := by
  intro rsp hrsp
  rw [ha] at hrsp
  cases hrsp

/-- Without a leader the round watches for a first one. -/
theorem afterLeader_invalid (call : Call) {s : State B} (h : s.node.isValid = false) :
    ∃ o, afterLeader call s =
        { s with backoff := B.reset s.backoff, pc := .watchSingle o .put } ∧
      (Client.watchSingleRequest call.keyPrefix o).startRevision = s.revision := by
  refine ⟨((WatchOptions.withPrefix call.char {}).withStartRevision s.revision).withNoDelete,
    ?_, ?_⟩
  · unfold afterLeader
    rw [isNew_invalid h, watchFrom_invalid h, h]
    rfl
  · simp [Client.watchSingleRequest, WatchOptions.withNoDelete, WatchOptions.withStartRevision]

/-- The steps of a round without a leader that the first leader's event
ends. -/
theorem leaderless_round {node : ElectionNode} (hinv : node.isValid = false) (r : Int)
    (b : B.State) :
    ∃ o, step (electionA 5) ⟨node, r, b, .getLeader⟩ (reply 8 [])
        = some ⟨node.setCurrentRevision 8, r, B.reset b, .watchSingle o .put⟩ ∧
      step (electionA 5) ⟨node.setCurrentRevision 8, r, B.reset b, .watchSingle o .put⟩ .stream
        = some ⟨node.setCurrentRevision 8, r, B.reset b, .read o .put⟩ ∧
      step (electionA 5) ⟨node.setCurrentRevision 8, r, B.reset b, .read o .put⟩
          (.read (some { events := [firstEvent] }))
        = some ⟨node.setCurrentRevision 8, 6, B.reset b, .finishFound⟩ ∧
      step (electionA 5) ⟨node.setCurrentRevision 8, 6, B.reset b, .finishFound⟩
          (.finish .cancelled)
        = some ⟨node.setCurrentRevision 8, 6, B.reset b, .getLeader⟩ ∧
      (Client.watchSingleRequest (electionA 5).keyPrefix o).startRevision = r := by
  obtain ⟨o, hafter, hstart⟩ := afterLeader_invalid (electionA 5)
    (s := ⟨node.setCurrentRevision 8, r, b, .getLeader⟩) hinv
  refine ⟨o, ?_, rfl, rfl, rfl, hstart⟩
  exact (step_iff.mpr .leader).trans (congrArg some hafter)

/-- One more round. -/
theorem Looping.next {n : Nat} {h : History (State B) Answer} {s : State B}
    (hl : Looping n h s) : ∃ h', ∃ s' : State B, Looping (n + 1) h' s' := by
  obtain ⟨node, r, b, pc⟩ := s
  obtain ⟨hrun, hd, hf, hend, hmods, hpc, hinv, hle⟩ := hl
  subst hpc
  obtain ⟨o, hread, hopen, hfound, hover, hstart⟩ := leaderless_round hinv r b
  refine ⟨_, _, (((hrun.next hread).next hopen).next hfound).next hover, ?_, ?_, ?_, ?_, rfl,
    hinv, (by decide : (6 : Int) ≤ 7)⟩
  · refine ⟨⟨⟨⟨hd, ?_⟩, headersCover_of_reply_none rfl⟩, headersCover_of_reply_none rfl⟩,
      headersCover_of_reply_none rfl⟩
    intro rsp ha m hm
    cases ha
    rw [hmods m hm]
    decide
  · refine ⟨⟨⟨⟨hf, fromStart_of_events_nil rfl⟩, fromStart_of_events_nil rfl⟩, ?_⟩,
      fromStart_of_events_nil rfl⟩
    intro o' ho event hevent
    cases ho
    rw [List.mem_singleton.mp hevent, hstart]
    exact hle
  · calc _ = 7 :: endedMods h := rfl
      _ = List.replicate (n + 1) 7 := by rw [hend, List.replicate_succ]
  · intro m hm
    rcases List.mem_cons.mp hm with rfl | hm'
    · rfl
    · exact hmods m hm'

/-- **Without a leader the same event ends any number of rounds**, with no
wait in between. -/
theorem watch_loops (n : Nat) : ∃ h, ∃ s : State B, Looping n h s := by
  induction n with
  | zero =>
    refine ⟨[], State.new (electionA 5) ⟨[], [], 0, 0, 0, 0, 0⟩, .start ⟨_, rfl⟩, trivial, trivial,
      rfl, ?_, rfl, rfl, ?_⟩
    · simp [deliveredMods]
    · simp [State.new, electionA]
  | succ n ih =>
    obtain ⟨h, s, hl⟩ := ih
    exact hl.next

end

end Election

end Etcdv3Client
