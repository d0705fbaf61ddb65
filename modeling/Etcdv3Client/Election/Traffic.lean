import Mathlib.Algebra.Order.Group.Nat
import Etcdv3Client.Election.Rounds
import Etcdv3Client.Election.TwoRuns
import Etcdv3Client.Lib.Cost
import Etcdv3Client.Lib.Monitor

/-!
# What Watch asks of the server

`Watch` has no pause between a read and the watch that follows it, nor
between a round and the next read. What keeps it from asking without end is
that a round ends with an event of the history, each later than those
before, and that a call that failed is repeated after a wait only. Its
streams are not left open: each is finished before the next call.
-/

namespace Etcdv3Client

namespace Election

open Transition

section
variable {B : BackOffStrategy}

/-! ## The requests are paid for -/

/-- The requests that the step sends. -/
def asks (call : Call) (s : State B) (_ : Answer) : ℕ := (s.request call).toList.length

/-- A wait has run out. -/
def Answer.isWaitOver : Answer → Bool
  | .wait false => true
  | _ => false

/-- What pays for requests: an event that ends a round, for the read and the
watch of the next one, and a wait, for the call that is repeated. -/
def earns (s : State B) (a : Answer) : ℕ :=
  2 * (endingEvent s a).toList.length + a.isWaitOver.toNat

/-- The requests of the round that are still to be sent. -/
def Pc.due : Pc → ℕ
  | .getLeader | .finishFound => 2
  | .getLeaderWait _ | .watchSingle _ _ => 1
  | _ => 0

/-- The waits that have run out. -/
def waitsOver (h : History (State B) Answer) : ℕ := h.countP fun p => p.2.isWaitOver

theorem waitsOver_cons (s : State B) (a : Answer) (h : History (State B) Answer) :
    waitsOver ((s, a) :: h) = waitsOver h + a.isWaitOver.toNat := by
  unfold waitsOver
  rw [List.countP_cons]
  cases a.isWaitOver <;> rfl

theorem asks_step {call : Call} {s s' : State B} {a : Answer} (hs : step call s a = some s') :
    asks call s a + s'.pc.due ≤ s.pc.due + earns s a := by
  cases step_iff.mp hs with
  | @leader n r b rsp =>
    rcases afterLeader_cases call ⟨(getLeaderReply n (.ok rsp)).2, r, b, .getLeader⟩ with
      ⟨-, hret⟩ | ⟨-, o, e, hwatch, -⟩
    · rw [hret]
      show 1 + 0 ≤ 2 + 0
      omega
    · rw [hwatch]
      exact le_rfl
  | found hfound =>
    show 0 + 2 ≤ 0 + (2 * (findEvent _ _).toList.length + 0)
    rw [hfound]
    exact le_rfl
  | notFound hnone => exact Nat.zero_le _
  | _ => first | exact le_rfl | exact Nat.zero_le _

/-- All the earnings: two for each round, and one for each wait. -/
theorem total_earns (h : History (State B) Answer) :
    total earns h = 2 * (endedMods h).length + waitsOver h := by
  induction h with
  | nil => rfl
  | cons p h ih =>
    obtain ⟨s, a⟩ := p
    rw [total_cons, ih, waitsOver_cons, earns]
    cases hend : endingEvent s a with
    | some event =>
      rw [endedMods_found hend, Option.toList_some, List.length_singleton, List.length_cons]
      omega
    | none =>
      rw [endedMods_frame hend, Option.toList_none, List.length_nil]
      omega

/-- The requests sent, with the one about to be. -/
theorem total_asks (call : Call) (h : History (State B) Answer) (s : State B) :
    (sent call h s).length = total (asks call) h + (s.request call).toList.length := by
  unfold sent
  rw [List.length_append, Nat.add_comm]
  congr 1
  induction h with
  | nil => rfl
  | cons p h ih =>
    rw [List.flatMap_cons, List.length_append, ih]
    rfl

theorem request_le_due (call : Call) (s : State B) :
    (s.request call).toList.length ≤ s.pc.due := by
  obtain ⟨n, r, b, pc⟩ := s
  cases pc <;> simp [State.request, Pc.due]

/-- In every run the requests are no more than two, two for each round and
one for each wait. -/
theorem sent_le {call : Call} {h : History (State B) Answer} {s : State B}
    (hr : WatchRun call h s) :
    (sent call h s).length ≤ 2 + 2 * (endedMods h).length + waitsOver h := by
  have htotal := hr.total_le (asks call) earns (fun _ s => s.pc.due) 2 (C := fun _ _ _ => True)
    (fun s hs => by
      obtain ⟨node, rfl⟩ := hs
      exact le_rfl)
    (fun _ _ _ hs => asks_step hs) (Along.of_true h)
  have hlast := request_le_due call s
  rw [total_earns] at htotal
  rw [total_asks]
  omega

/-! ## Main result: the requests -/

/-- **`Watch` does not ask without end.** In every run against a changing
store in which no read after a round leaves it without a leader, the
requests it sends are no more than two, two for each revision of the store,
and one for each time it has waited. -/
theorem requests_bounded {S : Server} {call : Call} {h : History (Sys B) SysLabel} {n : Sys B}
    (hr : SysRun S call h n) (hlead : Along LeaderFound (watchSteps h)) :
    ((sent call (watchSteps h) n.watch).length : Int)
      ≤ 2 + 2 * n.mvcc.revision + waitsOver (watchSteps h) := by
  have hsent := sent_le hr.watch
  have hrounds := (rounds_of_store hr hlead).2
  omega

/-- The handover again: it asks three times, while the store comes to its
fourth revision, and never waits. -/
theorem requests_bounded_handover :
    ∃ h n, exec (sysStep sampleServer (electionA 2)) [] (freshSys (electionA 2))
        handoverScript = some (h, n) ∧
      (sent (electionA 2) (watchSteps h) n.watch).length = 3 ∧ waitsOver (watchSteps h) = 0 ∧
      ((sent (electionA 2) (watchSteps h) n.watch).length : Int)
        ≤ 2 + 2 * n.mvcc.revision + waitsOver (watchSteps h) := by
  have hrun : (exec (sysStep sampleServer (electionA 2)) [] (freshSys (electionA 2))
      handoverScript).map (fun r => ((sent (electionA 2) (watchSteps r.1) r.2.watch).length,
        waitsOver (watchSteps r.1), decide (Along LeaderFound (watchSteps r.1))))
      = some (3, 0, true) := by
    decide +kernel
  obtain ⟨⟨h, n⟩, hexec, heq⟩ := Option.map_eq_some_iff.mp hrun
  simp only [Prod.mk.injEq, decide_eq_true_eq] at heq
  obtain ⟨hsent, hwaits, hlead⟩ := heq
  exact ⟨h, n, hexec, hsent, hwaits,
    requests_bounded (Run.exec (.start (sysInit_fresh _)) hexec) hlead⟩

/-! ## The streams -/

/-- What `Watch` does with the server. -/
inductive ClientEvent where
  /-- `client_->Range` -/
  | range
  /-- `client_->WatchSingle` -/
  | open_
  | read (ok : Bool)
  | finish
deriving DecidableEq, Repr

/-- What it may do next: there is no stream, it can be read, or a `Read` has
failed. -/
inductive WatchUse where
  | idle
  | reading
  | over
deriving DecidableEq, Repr

/-- One stream at a time, read until a `Read` fails or `Finish`, and
finished once. `Finish` may come while the stream can still deliver, as
`Watch` calls it once it has found its event; the contract of the keep-alive
stream does not have that. -/
def WatchUse.next : WatchUse → ClientEvent → Option WatchUse
  | .idle, .range => some .idle
  | .idle, .open_ => some .reading
  | .reading, .read true => some .reading
  | .reading, .read false => some .over
  | .reading, .finish => some .idle
  | .over, .finish => some .idle
  | _, _ => none

theorem WatchUse.opened {m m' : WatchUse} {es : List ClientEvent}
    (h : reads WatchUse.next m es = some m') :
    es.count .open_ + (m != .idle).toNat = es.count .finish + (m' != .idle).toNat := by
  refine reads_countP (v := fun m => (m != WatchUse.idle).toNat) (fun hnext => ?_) h
  unfold WatchUse.next at hnext
  split at hnext <;> cases hnext <;> rfl

/-- What `Watch` has done when a call answers. -/
def events (_ : State B) : Answer → List ClientEvent
  | .range _ => [.range]
  | .stream => [.open_]
  | .read rsp => [.read rsp.isSome]
  | .finish _ => [.finish]
  | .wait _ => []

/-- What it may do with its stream at each counter. -/
def Pc.use : Pc → WatchUse
  | .read _ _ | .finishFound => .reading
  | .finishError _ _ => .over
  | _ => .idle

theorem afterLeader_use (call : Call) (s : State B) : (afterLeader call s).pc.use = .idle := by
  rcases afterLeader_cases call s with ⟨-, hret⟩ | ⟨-, o, e, hwatch, -⟩
  · rw [hret]
    rfl
  · rw [hwatch]
    rfl

theorem reads_step {call : Call} {s s' : State B} {a : Answer} (hs : step call s a = some s') :
    reads WatchUse.next s.pc.use (events s a) = some s'.pc.use := by
  cases step_iff.mp hs with
  | leader =>
    rw [afterLeader_use]
    rfl
  | _ => rfl

/-- **The streams of `Watch` are finished.** In every run its calls, in
their order, use one stream at a time, read it until a `Read` fails or it is
finished, and finish it once; and whenever `Watch` is about to send a
request, and once it has returned, every stream that was opened has been
finished. -/
theorem streams_finished {call : Call} {h : History (State B) Answer} {s : State B}
    (hr : WatchRun call h s) :
    (reads WatchUse.next .idle (eventsOf events h)).isSome = true ∧
    ((s.request call).isSome = true ∨ s.status.isSome = true →
      (eventsOf events h).count .open_ = (eventsOf events h).count .finish) := by
  have hreads : reads WatchUse.next .idle (eventsOf events h) = some s.pc.use := by
    refine Run.monitored (fun s : State B => s.pc.use) ?_ (fun _ hs => reads_step hs) hr
    intro s hs
    obtain ⟨node, rfl⟩ := hs
    rfl
  refine ⟨by rw [hreads]; rfl, fun hidle => ?_⟩
  have huse : s.pc.use = .idle := by
    obtain ⟨n, r, b, pc⟩ := s
    cases pc <;> first
      | rfl
      | (rcases hidle with hidle | hidle <;> cases hidle)
  rw [huse] at hreads
  exact WatchUse.opened hreads

/-- A stream that fails, and one that finds its event. -/
def twoStreamsScript : List Answer :=
  [.range (.ok { header := { revision := 6 } }), .stream, .read none, .finish .unavailable,
    .wait false, .stream, .read (some { events := [firstEvent] }), .finish .cancelled]

/-- Before the next read both are finished. -/
theorem streams_finished_two :
    ∃ h s, exec (step (electionA 5)) []
        (State.new (electionA 5) ⟨[], [], 0, 0, 0, 0, 0⟩ : State .constant)
        twoStreamsScript = some (h, s) ∧
      s.pc = .getLeader ∧
      (eventsOf events h).count .open_ = 2 ∧
      (eventsOf events h).count .open_ = (eventsOf events h).count .finish := by
  refine ⟨_, _, rfl, rfl, rfl, ?_⟩
  exact (streams_finished (Run.exec (.start ⟨_, rfl⟩)
    (rfl : exec (step (electionA 5)) []
      (State.new (electionA 5) ⟨[], [], 0, 0, 0, 0, 0⟩ : State .constant)
      twoStreamsScript = some (_, _)))).2 (Or.inl rfl)

end

end Election

end Etcdv3Client
