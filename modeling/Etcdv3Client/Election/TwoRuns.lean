import Etcdv3Client.Election.Revision

/-!
# Watch and what the caller's node held before

`GetLeader` leaves the node alone where the reply has not exactly one
`KeyValue`, and `Watch` reads validity and revisions off the node. Two runs
of `Watch` on the same answers, from any two nodes, are compared: they look
the same, and return what the server said, exactly where no such reply
meets a node that is taken for a leader.
-/

namespace Etcdv3Client

namespace Election

open Transition

section
variable {B : BackOffStrategy}

/-! ## What is compared -/

/-- The single `KeyValue` of a reply. -/
def single (rsp : RangeResponse) : Option KeyValue :=
  match rsp.kvs with
  | [kv] => some kv
  | _ => none

/-- The `KeyValue` of the last reply that had exactly one. -/
def lastKv (h : History (State B) Answer) : Option KeyValue :=
  h.findSome? fun p => p.2.reply.bind single

/-- All requests of a run, newest first, with the one about to be sent. -/
def sent (call : Call) (h : History (State B) Answer) (s : State B) : List Request :=
  (s.request call).toList ++ h.flatMap fun p => (p.1.request call).toList

/-- Where `Watch` has returned OK the node is the single `KeyValue` of the
last Range reply, at that reply's revision. -/
def NodeFromReply (h : History (State B) Answer) (s : State B) : Prop :=
  ∀ status, s.status = some status → status.isOk = true →
    ∃ rsp kv, lastReply h = some rsp ∧ rsp.kvs = [kv] ∧ s.node.Holds kv ∧
      s.node.currentRevision = rsp.header.revision

/-- The run on the same answers from any other node sends the same requests
and returns the same status, and both nodes come from the last reply. -/
def ServerDecides (call : Call) (h : History (State B) Answer) (s : State B) : Prop :=
  NodeFromReply h s ∧ ∀ node, ∃ h₂ s₂,
    replay (step call) (State.new call node) h = some (h₂, s₂) ∧
    sent call h₂ s₂ = sent call h s ∧ s₂.status = s.status ∧ NodeFromReply h₂ s₂

/-- A reply without exactly one `KeyValue` comes when the last leader read
held no lease, or was created no later than a `revision` other than 0. -/
def Steady (call : Call) (h : History (State B) Answer) (_ : State B) (a : Answer) : Prop :=
  ∀ rsp ∈ a.reply, single rsp = none →
    ∃ kv ∈ lastKv h, kv.lease = invalidLeaseID ∨
      (bound call h ≠ 0 ∧ kv.createRevision ≤ bound call h)

instance (call : Call) (h : History (State B) Answer) (s : State B) (a : Answer) :
    Decidable (Steady call h s a) :=
  inferInstanceAs (Decidable (∀ rsp ∈ a.reply, single rsp = none →
    ∃ kv ∈ lastKv h, kv.lease = invalidLeaseID ∨
      (bound call h ≠ 0 ∧ kv.createRevision ≤ bound call h)))

theorem single_eq_some {rsp : RangeResponse} {kv : KeyValue} :
    single rsp = some kv ↔ rsp.kvs = [kv] := by
  unfold single
  split
  · rename_i kv' h
    simp [h]
  · rename_i h
    exact iff_of_false (by simp) (h kv)

/-- The node after a reply with one `KeyValue` does not depend on the node
before. -/
theorem getLeaderReply_of_single (n m : ElectionNode) {rsp : RangeResponse} {kv : KeyValue}
    (h : single rsp = some kv) :
    (getLeaderReply n (.ok rsp)).2 = (getLeaderReply m (.ok rsp)).2 := by
  rw [getLeaderReply_single n (single_eq_some.mp h), getLeaderReply_single m (single_eq_some.mp h)]
  rfl

theorem getLeaderReply_of_not_single (n : ElectionNode) {rsp : RangeResponse}
    (h : single rsp = none) :
    (getLeaderReply n (.ok rsp)).2 = n.setCurrentRevision rsp.header.revision := by
  refine getLeaderReply_other n fun kv hkv => ?_
  simp [single_eq_some.mpr hkv] at h

theorem afterLeader_node (call : Call) (s : State B) : (afterLeader call s).node = s.node := by
  unfold afterLeader
  split <;> rfl

/-- Only a Range reply reads or writes the node. -/
theorem step_withNode {call : Call} {s s' : State B} {a : Answer} (ha : a.reply = none)
    (hs : step call s a = some s') (node : ElectionNode) :
    step call { s with node := node } a = some { s' with node := node } ∧ s'.node = s.node := by
  cases step_iff.mp hs with
  | leader => cases ha
  | found hfound => exact ⟨step_iff.mpr (.found hfound), rfl⟩
  | notFound hnone => exact ⟨step_iff.mpr (.notFound hnone), rfl⟩
  | _ => exact ⟨rfl, rfl⟩

/-! ## The other run -/

/-- The other run differs in the node alone, and no longer once a reply had
a single `KeyValue`. -/
structure Decided (call : Call) (h : History (State B) Answer) (s : State B) : Prop where
  bounded : Bounded call h s
  holds : ∀ kv ∈ lastKv h, s.node.Holds kv
  twin : ∀ node, ∃ h₂ s₂, replay (step call) (State.new call node) h = some (h₂, s₂) ∧
    sent call h₂ s₂ = sent call h s ∧
    s₂ = { s with node := if (lastKv h).isSome then s.node else node }

theorem lastKv_cons_of_no_reply {h : History (State B) Answer} {s : State B} {a : Answer}
    (ha : a.reply = none) : lastKv ((s, a) :: h) = lastKv h := by
  simp [lastKv, ha]

theorem lastKv_cons_of_reply {h : History (State B) Answer} {s : State B} {rsp : RangeResponse} :
    lastKv ((s, .range (.ok rsp)) :: h) = (single rsp).or (lastKv h) := by
  cases hk : single rsp <;> simp [lastKv, Answer.reply, hk]

theorem sent_cons {call : Call} {h : History (State B) Answer} {s s' : State B} {a : Answer} :
    sent call ((s, a) :: h) s' = (s'.request call).toList ++ sent call h s := by
  simp [sent]

theorem reply_eq_some {a : Answer} {rsp : RangeResponse} (ha : a.reply = some rsp) :
    a = .range (.ok rsp) := by
  unfold Answer.reply at ha
  split at ha
  · cases ha
    rfl
  · cases ha

/-- After a steady reply some reply has had a single `KeyValue`. -/
theorem steady_isSome {call : Call} {h : History (State B) Answer} {s : State B}
    {rsp : RangeResponse} (hc : Steady call h s (.range (.ok rsp))) :
    (lastKv ((s, .range (.ok rsp)) :: h)).isSome = true := by
  rw [lastKv_cons_of_reply]
  cases hk : single rsp with
  | some kv => rfl
  | none =>
    obtain ⟨kv, hkv, -⟩ := hc rsp rfl hk
    simp [Option.mem_def.mp hkv]

/-- A steady reply leaves both runs with the same node. -/
theorem steady_node {call : Call} {h : History (State B) Answer} {s : State B}
    {rsp : RangeResponse} (hc : Steady call h s (.range (.ok rsp))) (n node : ElectionNode) :
    (getLeaderReply (if (lastKv h).isSome then n else node) (.ok rsp)).2
      = (getLeaderReply n (.ok rsp)).2 := by
  cases hk : single rsp with
  | some kv => exact getLeaderReply_of_single _ _ hk
  | none =>
    obtain ⟨kv, hkv, -⟩ := hc rsp rfl hk
    simp [Option.mem_def.mp hkv]

theorem decided_step {call : Call} {h : History (State B) Answer} {s s' : State B} {a : Answer}
    (hi : Decided call h s) (hc : Steady call h s a) (hs : step call s a = some s') :
    Decided call ((s, a) :: h) s' := by
  have hbounded := bounded_step hi.bounded hs
  cases ha : a.reply with
  | none =>
    have hnode : s'.node = s.node := (step_withNode ha hs s.node).2
    have hlast := lastKv_cons_of_no_reply (h := h) (s := s) ha
    refine ⟨hbounded, ?_, fun node => ?_⟩
    · rw [hlast, hnode]
      exact hi.holds
    · obtain ⟨h₂, s₂, hrep, hsent, rfl⟩ := hi.twin node
      refine ⟨_, _, replay_cons.mpr ⟨h₂, _, hrep, (step_withNode ha hs _).1, rfl⟩, ?_, ?_⟩
      · rw [sent_cons, sent_cons, hsent]
        rfl
      · rw [hlast, hnode]
  | some rsp =>
    cases reply_eq_some ha
    have hsome := steady_isSome hc
    cases step_iff.mp hs with
    | @leader n r b rsp =>
      refine ⟨hbounded, fun kv hkv => ?_, fun node => ?_⟩
      · rw [afterLeader_node]
        rw [Option.mem_def, lastKv_cons_of_reply] at hkv
        cases hk : single rsp with
        | some kv' =>
          rw [hk] at hkv
          cases hkv
          rw [getLeaderReply_single n (single_eq_some.mp hk)]
          exact ElectionNode.holds_setBykv _ _
        | none =>
          rw [hk] at hkv
          rw [getLeaderReply_of_not_single n hk]
          exact (hi.holds kv hkv).setCurrentRevision _
      · obtain ⟨h₂, s₂, hrep, hsent, rfl⟩ := hi.twin node
        have hsame := steady_node hc n node
        refine ⟨_, _, replay_cons.mpr ⟨h₂, _, hrep, step_iff.mpr .leader, rfl⟩, ?_, ?_⟩
        · rw [sent_cons, sent_cons, hsent, hsame]
        · rw [hsome, if_pos rfl, hsame]

/-- What `Watch` returns after a steady reply is that reply. -/
theorem nodeFromReply_step {call : Call} {h : History (State B) Answer} {s s' : State B}
    {a : Answer} (hi : Decided call h s) (hc : Steady call h s a) (hs : step call s a = some s') :
    NodeFromReply ((s, a) :: h) s' := by
  intro status hst hok
  cases step_iff.mp hs with
  | @leader n r b rsp =>
    rcases afterLeader_cases call ⟨(getLeaderReply n (.ok rsp)).2, r, b, .getLeader⟩ with
      ⟨hnew, -⟩ | ⟨-, o, e, hwatch, -⟩
    · rw [afterLeader_node]
      cases hk : single rsp with
      | some kv =>
        rw [getLeaderReply_single n (single_eq_some.mp hk)]
        exact ⟨rsp, kv, rfl, single_eq_some.mp hk, ElectionNode.holds_setBykv _ _, rfl⟩
      | none =>
        -- the stale leader is not new to the caller
        obtain ⟨kv, hkv, hold⟩ := hc rsp rfl hk
        have hholds := hi.holds kv hkv
        have hrev : r = bound call h := hi.bounded rfl
        obtain ⟨hvalid, hlt⟩ := isNew_iff.mp hnew
        rw [getLeaderReply_of_not_single n hk] at hvalid hlt
        have hlease : n.lease ≠ invalidLeaseID := by
          simpa [ElectionNode.isValid, ElectionNode.setCurrentRevision] using hvalid
        have hlt' : r = 0 ∨ r < n.createRevision := hlt
        rw [hholds.createRevision, hrev] at hlt'
        rw [hholds.lease] at hlease
        rcases hold with hinvalid | ⟨h0, hle⟩
        · exact absurd hinvalid hlease
        · omega
    · rw [hwatch] at hst
      cases hst
  | leaderWaitDone =>
    cases hst
    cases hok
  | watchWaitDone =>
    cases hst
    cases hok
  | _ => cases hst

theorem lastReply_eq_labels (h : History (State B) Answer) :
    lastReply h = (h.map Prod.snd).findSome? Answer.reply := by
  rw [List.findSome?_map]
  rfl

theorem lastKv_of_lastReply {h : History (State B) Answer} {rsp : RangeResponse} {kv : KeyValue}
    (hlast : lastReply h = some rsp) (hone : single rsp = some kv) : lastKv h = some kv := by
  induction h with
  | nil => cases hlast
  | cons p h ih =>
    obtain ⟨s, a⟩ := p
    cases ha : a.reply with
    | none =>
      rw [lastKv_cons_of_no_reply ha]
      exact ih (by simpa [lastReply, ha] using hlast)
    | some rsp' =>
      have hrsp : rsp' = rsp := by simpa [lastReply, ha] using hlast
      cases reply_eq_some ha
      rw [lastKv_cons_of_reply, hrsp, hone]
      rfl

/-- The other run returns the same node. -/
theorem Decided.serverDecides {call : Call} {h : History (State B) Answer} {s : State B}
    (hi : Decided call h s) (hn : NodeFromReply h s) : ServerDecides call h s := by
  refine ⟨hn, fun node => ?_⟩
  obtain ⟨h₂, s₂, hrep, hsent, rfl⟩ := hi.twin node
  refine ⟨h₂, _, hrep, hsent, rfl, fun status hst hok => ?_⟩
  obtain ⟨rsp, kv, hrsp, hone, hholds⟩ := hn status hst hok
  have hlast : lastReply h₂ = some rsp := by
    rw [lastReply_eq_labels, replay_labels hrep, ← lastReply_eq_labels, hrsp]
  refine ⟨rsp, kv, hlast, hone, ?_⟩
  simpa [lastKv_of_lastReply hrsp (single_eq_some.mpr hone)] using hholds

/-- A run that finds its node new after a reply without a single `KeyValue`
returns what no reply said. -/
theorem stale_returns {call : Call} {h : History (State B) Answer} {n : ElectionNode} {r : Int}
    {b : B.State} {rsp : RangeResponse} {s : State B} (hk : single rsp = none)
    (hlease : n.lease ≠ invalidLeaseID) (hlt : r = 0 ∨ r < n.createRevision) :
    ¬ NodeFromReply ((s, .range (.ok rsp)) :: h)
      (afterLeader call ⟨(getLeaderReply n (.ok rsp)).2, r, b, .getLeader⟩) := by
  intro hn
  have hnew : (⟨(getLeaderReply n (.ok rsp)).2, r, b, .getLeader⟩ : State B).isNew = true := by
    rw [isNew_iff, getLeaderReply_of_not_single n hk]
    exact ⟨by simpa [ElectionNode.isValid, ElectionNode.setCurrentRevision] using hlease, hlt⟩
  have hst : (afterLeader call
      (⟨(getLeaderReply n (.ok rsp)).2, r, b, .getLeader⟩ : State B)).status = some {} := by
    rw [afterLeader, if_pos hnew]
    rfl
  obtain ⟨rsp', kv, hrsp, hone, -⟩ := hn {} hst rfl
  cases hrsp
  simp [single_eq_some.mpr hone] at hk

theorem steady_of_serverDecides {call : Call} {h : History (State B) Answer} {s s' : State B}
    {a : Answer} (hi : Decided call h s) (hs : step call s a = some s')
    (hp : ServerDecides call ((s, a) :: h) s') : Steady call h s a := by
  intro rsp ha hk
  cases reply_eq_some ha
  cases step_iff.mp hs with
  | @leader n r b rsp =>
    have hrev : r = bound call h := hi.bounded rfl
    cases hlast : lastKv h with
    | some kv =>
      have hholds : n.Holds kv := hi.holds kv hlast
      refine ⟨kv, rfl, ?_⟩
      by_contra hnot
      obtain ⟨hlease, hbound⟩ := not_or.mp hnot
      refine stale_returns hk (by rw [hholds.lease]; exact hlease) ?_ hp.1
      rw [hholds.createRevision, hrev]
      by_contra hold
      exact hbound ⟨fun h0 => hold (Or.inl h0), not_lt.mp fun hlt => hold (Or.inr hlt)⟩
    | none =>
      -- another node, valid and new, would be returned
      obtain ⟨h₂', s₂', hrep', -, -, hn₂⟩ := hp.2 ⟨[], [], 1, 0, r + 1, 0, 0⟩
      obtain ⟨h₂, s₂, hrep, hstep, rfl⟩ := replay_cons.mp hrep'
      obtain ⟨h₃, s₃, hrep₃, -, hs₃⟩ := hi.twin ⟨[], [], 1, 0, r + 1, 0, 0⟩
      cases hrep.symm.trans hrep₃
      rw [hlast] at hs₃
      subst hs₃
      cases (step_iff.mpr .leader).symm.trans hstep
      exact absurd hn₂ (stale_returns hk (show (1 : Int) ≠ 0 by decide)
        (Or.inr (Int.lt_succ r)))

/-- **The server decides what Watch answers.** Two runs on the same answers
from any two nodes send the same requests and return the same status, and
on OK both nodes are the single `KeyValue` of the last reply, if and only
if every reply without a single `KeyValue` is steady. A first reply without
one never is. -/
theorem watch_server_decides_iff {call : Call} {h : History (State B) Answer} {s : State B}
    (hr : WatchRun call h s) :
    Throughout (ServerDecides call) h s ↔ Along (Steady call) h := by
  refine Run.throughout_iff (J := Decided call) (D := fun _ _ _ => True) (fun s hs => ?_)
    (fun _ hj _ hc hs => decided_step hj hc hs)
    (fun _ hj _ _ hs => ⟨fun hp => steady_of_serverDecides hj hs hp, fun hc =>
      (decided_step hj hc hs).serverDecides (nodeFromReply_step hj hc hs)⟩) hr (Along.of_true h)
  have hj : Decided call [] s := by
    refine ⟨bounded_init hs, fun kv hkv => absurd hkv (by simp [lastKv]), fun node => ?_⟩
    obtain ⟨n, rfl⟩ := hs
    exact ⟨_, _, rfl, rfl, rfl⟩
  refine ⟨hj.serverDecides fun status hst => ?_, hj⟩
  obtain ⟨n, rfl⟩ := hs
  cases hst

/-- A leader the caller has seen resigns, another is elected. -/
def resignedScript : List Answer :=
  reply 6 [{ key := [0x61], createRevision := 5, lease := 1 }] ::
    delivered ⟨.delete, { key := [0x61], createRevision := 6, modRevision := 7 }⟩ ++
    [reply 8 [{ key := [0x61], createRevision := 8, lease := 2 }]]

/-- It is the same from a node that held lease 7. -/
theorem watch_server_decides_resigned :
    ∃ h s, exec (step (electionA 5)) []
        (State.new (electionA 5) ⟨[], [], 7, 0, 0, 0, 0⟩ : State .constant)
        resignedScript = some (h, s) ∧
      s.status = some {} ∧ Throughout (ServerDecides (electionA 5)) h s := by
  refine ⟨_, _, rfl, rfl, ?_⟩
  refine (watch_server_decides_iff (Run.exec (.start ⟨_, rfl⟩)
    (rfl : exec (step (electionA 5)) []
      (State.new (electionA 5) ⟨[], [], 7, 0, 0, 0, 0⟩ : State .constant)
      resignedScript = some (_, _)))).mpr ?_
  decide

/-- On one reply without a leader, a node that held lease 7 is returned as
the leader, and a node without a lease makes `Watch` wait for one. -/
theorem watch_returns_stale :
    (∃ h s, exec (step (electionA 5)) []
        (State.new (electionA 5) ⟨[0x61], [], 7, 1, 9, 9, 9⟩ : State .constant)
        [reply 10 []] = some (h, s) ∧
      s.status = some {} ∧ s.node.createRevision = 9 ∧
      ¬ ServerDecides (electionA 5) h s) ∧
    (∃ h s, exec (step (electionA 5)) []
        (State.new (electionA 5) ⟨[0x61], [], 0, 1, 9, 9, 9⟩ : State .constant)
        [reply 10 []] = some (h, s) ∧
      s.status = none ∧ ∃ req, s.request (electionA 5) = some (.watch req)) := by
  refine ⟨⟨_, _, rfl, rfl, rfl, fun hp => ?_⟩, ⟨_, _, rfl, rfl, _, rfl⟩⟩
  obtain ⟨rsp, kv, hrsp, hone, -⟩ := hp.1 {} rfl rfl
  cases hrsp
  cases hone

end

end Election

end Etcdv3Client
