import Etcdv3Client.Election.Leader
import Etcdv3Client.Election.Rounds
import Etcdv3Client.Election.TwoRuns

/-!
# The leader that Watch waits on

For a prefix that is selected exactly. What a read said of the store stays
true until an event says otherwise, and that event has not been passed: while
`Watch` waits, its leader still leads or a `DELETE` event of its key is still
to come, and an election without a leader still has none or a `PUT` event is
still to come. So the wait never outlives its reason, unless the server cuts
the watcher off by a compaction.
-/

namespace Etcdv3Client

namespace Election

open Transition

section
variable {B : BackOffStrategy}

/-! ## What a reply tells -/

/-- A prefix that is selected exactly: `GetLeader` and the watches ask for
the keys under it. -/
theorem requests_under_iff {call : Call} (hexact : ExactKey call.char call.keyPrefix) {key : Bytes}
    (hkey : key ≠ []) :
    Requests (leaderRequest call.char call.keyPrefix) key ↔ call.keyPrefix <+: key := by
  rw [leaderRequest_requests]
  exact (prefixExact_setPrefix_iff call.char rfl).mpr hexact key hkey

/-- A first-created candidate of the election. -/
def Leads (call : Call) (store : Store) (kv : KeyValue) : Prop :=
  store.Candidate call.keyPrefix kv ∧
    ∀ kv', store.Candidate call.keyPrefix kv' → kv.createRevision ≤ kv'.createRevision

/-- The same key since the same creation, whatever was put over it. -/
def StillLeads (call : Call) (store : Store) (kv : KeyValue) : Prop :=
  ∃ kv', Leads call store kv' ∧ kv'.key = kv.key ∧ kv'.createRevision = kv.createRevision

/-- Nobody stands for the election. -/
def Leaderless (call : Call) (store : Store) : Prop :=
  ∀ kv, ¬ store.Candidate call.keyPrefix kv

/-- The key was deleted after a revision. -/
def GoneSince (m : Mvcc) (kv : KeyValue) (revision : Int) : Prop :=
  ∃ e ∈ m.log, e.type = .delete ∧ e.kv.key = kv.key ∧ revision < e.kv.modRevision

/-- The event puts a candidate of the election. -/
def Comes (call : Call) (e : Event) : Prop :=
  e.type = .put ∧ e.kv.key ≠ [] ∧ call.keyPrefix <+: e.kv.key

/-- A candidate was put after a revision. -/
def ComeSince (call : Call) (m : Mvcc) (revision : Int) : Prop :=
  ∃ e ∈ m.log, Comes call e ∧ revision < e.kv.modRevision

/-- What a reply means for the store as it is now, and for the run. -/
structure Tells (call : Call) (h : History (Sys B) SysLabel) (m : Mvcc) (rsp : RangeResponse) :
    Prop where
  revision : 1 ≤ rsp.header.revision ∧ rsp.header.revision ≤ m.revision
  answer : rsp.kvs = [] ∨ ∃ kv, rsp.kvs = [kv]
  leader : ∀ kv, rsp.kvs = [kv] →
    StillLeads call m.store kv ∨ GoneSince m kv rsp.header.revision
  leaderless : rsp.kvs = [] → Leaderless call m.store ∨ ComeSince call m rsp.header.revision
  served : ∃ p ∈ h, p.1.mvcc.revision = rsp.header.revision ∧
    ∀ kv, rsp.kvs = [kv] → Leads call p.1.mvcc.store kv

/-- A leader leads on through a change that does not delete it: an entry
that is new was created later. -/
theorem StillLeads.later {call : Call} {m w : Mvcc} {events : List Event} {kv : KeyValue}
    (hw : m.Wf) (hl : Mvcc.Later m w events) (h : StillLeads call m.store kv) :
    StillLeads call w.store kv ∨ ∃ e ∈ events, e.type = .delete ∧ e.kv.key = kv.key := by
  obtain ⟨kv', ⟨⟨hmem, hpre⟩, hfirst⟩, hkey, hcreate⟩ := h
  rcases hl.kept kv' hmem with ⟨kv₁, hmem₁, hkey₁, hcreate₁⟩ | ⟨e, he, htype, hekey⟩
  · left
    refine ⟨kv₁, ⟨⟨hmem₁, by rwa [hkey₁]⟩, ?_⟩, hkey₁.trans hkey, hcreate₁.trans hcreate⟩
    intro kv₂ ⟨hmem₂, hpre₂⟩
    rw [hcreate₁]
    rcases hl.created kv₂ hmem₂ with hnew | ⟨old, hold, hokey, hocreate⟩
    · obtain ⟨-, hmod, hle⟩ := hw.entries kv' hmem
      omega
    · rw [← hocreate]
      exact hfirst old ⟨hold, by rwa [hokey]⟩
  · exact Or.inr ⟨e, he, htype, hekey.trans hkey⟩

theorem Leaderless.later {call : Call} {m w : Mvcc} {events : List Event}
    (hl : Mvcc.Later m w events) (h : Leaderless call m.store) :
    Leaderless call w.store ∨ ∃ e ∈ events, Comes call e := by
  by_cases hnone : Leaderless call w.store
  · exact Or.inl hnone
  · unfold Leaderless at hnone
    push Not at hnone
    obtain ⟨kv, hmem, hpre⟩ := hnone
    rcases hl.made kv hmem with hold | hput
    · exact absurd ⟨hold, hpre⟩ (h kv)
    · exact Or.inr ⟨_, hput, rfl, w.store.nonempty kv hmem, hpre⟩

/-- The store changes, and the reply is as true as before. -/
theorem Tells.later {call : Call} {h h' : History (Sys B) SysLabel} {m w : Mvcc}
    {rsp : RangeResponse} {events : List Event} (ht : Tells call h m rsp) (hw : m.Wf)
    (hl : Mvcc.Later m w events) (hsub : h ⊆ h') : Tells call h' w rsp := by
  have hlog : ∀ e ∈ m.log, e ∈ w.log := by
    intro e he
    rw [hl.log]
    exact List.mem_append_left _ he
  have hnew : ∀ e ∈ events, e ∈ w.log ∧ rsp.header.revision < e.kv.modRevision := by
    intro e he
    refine ⟨?_, lt_of_le_of_lt ht.revision.2 (hl.newer e he)⟩
    rw [hl.log]
    exact List.mem_append_right _ he
  refine ⟨⟨ht.revision.1, ht.revision.2.trans hl.revision⟩, ht.answer, ?_, ?_, ?_⟩
  · intro kv hkv
    rcases ht.leader kv hkv with hlead | ⟨e, he, hgone⟩
    · rcases hlead.later hw hl with hlead' | ⟨e, he, htype, hkey⟩
      · exact Or.inl hlead'
      · exact Or.inr ⟨e, (hnew e he).1, htype, hkey, (hnew e he).2⟩
    · exact Or.inr ⟨e, hlog e he, hgone⟩
  · intro hnil
    rcases ht.leaderless hnil with hnone | ⟨e, he, hcome⟩
    · rcases hnone.later hl with hnone' | ⟨e, he, hcomes⟩
      · exact Or.inl hnone'
      · exact Or.inr ⟨e, (hnew e he).1, hcomes, (hnew e he).2⟩
    · exact Or.inr ⟨e, hlog e he, hcome⟩
  · obtain ⟨p, hp, hserved⟩ := ht.served
    exact ⟨p, hsub hp, hserved⟩

/-- Any step of the system. -/
theorem Tells.step {S : Server} {call : Call} {h : History (Sys B) SysLabel} {n n' : Sys B}
    {l : SysLabel} {rsp : RangeResponse} (ht : Tells call h n.mvcc rsp) (hw : n.mvcc.Wf)
    (hs : sysStep S call n l = some n') : Tells call ((n, l) :: h) n'.mvcc rsp := by
  have hsub : h ⊆ (n, l) :: h := List.subset_cons_self _ _
  rcases sysStep_mvcc hs with hsame | ⟨⟨events, hlater⟩, -⟩
  · rw [hsame]
    obtain ⟨p, hp, hserved⟩ := ht.served
    exact ⟨ht.revision, ht.answer, ht.leader, ht.leaderless, p, hsub hp, hserved⟩
  · exact ht.later hw hlater hsub

/-- The server answers `GetLeader`. -/
theorem tells_serve {call : Call} (hexact : ExactKey call.char call.keyPrefix)
    {h : History (Sys B) SysLabel} {n : Sys B} {l : SysLabel} {rsp : RangeResponse}
    (hw : n.mvcc.Wf)
    (hreads : n.mvcc.Reads (leaderRequest call.char call.keyPrefix) rsp) :
    Tells call ((n, l) :: h) n.mvcc rsp := by
  have hrev : rsp.header.revision = n.mvcc.revision := by
    rw [hreads.header]
    rfl
  have hpos := hw.positive
  have hkeys : ∀ kv ∈ n.mvcc.store.kvs,
      (Requests (leaderRequest call.char call.keyPrefix) kv.key ↔ call.keyPrefix <+: kv.key) :=
    fun kv hkv => requests_under_iff hexact (n.mvcc.store.nonempty kv hkv)
  rcases answers_leader (hreads.answers (leaderRequest_newest _ _).2) with
    ⟨hnil, hnone⟩ | ⟨kv, hmem, hone, hsel, hfirst⟩
  · refine ⟨⟨by omega, by omega⟩, Or.inl hnil, ?_, ?_, ?_⟩
    · intro kv hkv
      simp [hnil] at hkv
    · intro _
      left
      intro kv ⟨hmem, hpre⟩
      exact hnone kv hmem ((hkeys kv hmem).mpr hpre)
    · refine ⟨(n, l), List.mem_cons_self, hrev.symm, ?_⟩
      intro kv hkv
      simp [hnil] at hkv
  · have hlead : ∀ kv', rsp.kvs = [kv'] → Leads call n.mvcc.store kv' := by
      intro kv' hkv'
      rw [hone] at hkv'
      cases hkv'
      refine ⟨⟨hmem, (hkeys kv hmem).mp hsel⟩, ?_⟩
      intro kv' ⟨hmem', hpre'⟩
      exact hfirst kv' hmem' ((hkeys kv' hmem').mpr hpre')
    refine ⟨⟨by omega, by omega⟩, Or.inr ⟨kv, hone⟩, ?_, ?_, ?_⟩
    · exact fun kv' hkv' => Or.inl ⟨kv', hlead kv' hkv', rfl, rfl⟩
    · intro hnil
      simp [hnil] at hone
    · exact ⟨(n, l), List.mem_cons_self, hrev.symm, hlead⟩

/-! ## The last reply -/

/-- The reply under way, or the last that `Watch` took. -/
def Told (h : History (Sys B) SysLabel) (n : Sys B) (rsp : RangeResponse) : Prop :=
  n.reply = some rsp ∨ lastReply (watchSteps h) = some rsp

/-- A step of the system, as `Watch` counts its replies. -/
theorem lastReply_step {S : Server} {call : Call} {h : History (Sys B) SysLabel} {n n' : Sys B}
    {l : SysLabel} (hs : sysStep S call n l = some n') {rsp : RangeResponse}
    (hrsp : lastReply (watchSteps ((n, l) :: h)) = some rsp) :
    (l = .party (.range (.ok rsp)) ∧ n.reply = some rsp) ∨
      lastReply (watchSteps h) = some rsp := by
  cases l with
  | party a =>
    change ((n.watch, a) :: watchSteps h).findSome? (fun p => p.2.reply) = some rsp at hrsp
    rw [List.findSome?_cons] at hrsp
    cases ha : a.reply with
    | none =>
      rw [ha] at hrsp
      exact Or.inr hrsp
    | some rsp' =>
      rw [ha] at hrsp
      cases hrsp
      cases sysStep_cases hs with
      | range hreply _ =>
        cases ha
        exact Or.inl ⟨rfl, hreply⟩
      | _ => cases ha
  | _ => exact Or.inr hrsp

/-- **A reply is true until an event says otherwise.** -/
theorem tells_run {S : Server} {call : Call} {h : History (Sys B) SysLabel} {n : Sys B}
    (hexact : ExactKey call.char call.keyPrefix) (hr : SysRun S call h n) :
    ∀ rsp, Told h n rsp → Tells call h n.mvcc rsp := by
  refine hr.inv (P := fun h n => ∀ rsp, Told h n rsp → Tells call h n.mvcc rsp) ?_ ?_
  · intro n ⟨_, _, hreply, _⟩ rsp htold
    rcases htold with hrsp | hrsp
    · rw [hreply] at hrsp
      cases hrsp
    · cases hrsp
  · intro h n n' l hr hi hs rsp htold
    have hw := wf_run hr
    rcases htold with hrsp | hrsp
    · rcases reply_step (delivered_run hr).replying hs hrsp with
        ⟨hold, -⟩ | ⟨rfl, -, hsame, hreads⟩
      · exact (hi rsp (Or.inl hold)).step hw hs
      · rw [hsame]
        exact tells_serve hexact hw hreads
    · rcases lastReply_step hs hrsp with ⟨-, hold⟩ | hold
      · exact (hi rsp (Or.inl hold)).step hw hs
      · exact (hi rsp (Or.inr hold)).step hw hs

/-! ## The round of a reply -/

/-- How the read that began a round left it. -/
structure Begun (call : Call) (h : History (State B) Answer) (s : State B) (o : WatchOptions)
    (e : EventType) (rsp : RangeResponse) : Prop where
  read : lastReply h = some rsp
  node : ∃ node, s.node = (getLeaderReply node (.ok rsp)).2
  awaits : e = if s.node.isValid then .delete else .put
  start : (roundRequest call o).startRevision =
    if s.node.isValid then max (rsp.header.revision + 1) (bound call h) else bound call h
  bound : bound call h ≤ max call.options.revision rsp.header.revision

theorem afterLeader_awaits {call : Call} {s : State B} {o : WatchOptions} {e : EventType}
    (h : (afterLeader call s).pc.round = some (o, e)) :
    e = (if s.node.isValid then .delete else .put) ∧
      (roundRequest call o).startRevision = s.watchFrom := by
  unfold afterLeader at h
  split at h
  · cases h
  · dsimp only at h
    split at h
    · rename_i hvalid
      cases h
      exact ⟨by rw [if_pos hvalid], by simp [roundRequest, Client.watchSingleRequest,
        WatchOptions.withNoPut, WatchOptions.withStartRevision]⟩
    · rename_i hvalid
      cases h
      exact ⟨by rw [if_neg hvalid], by simp [roundRequest, Client.watchSingleRequest,
        WatchOptions.withNoDelete, WatchOptions.withStartRevision]⟩

/-- The events of a run bound what `Watch` remembers of them. -/
theorem bound_le {call : Call} {h : History (State B) Answer} {r : Int}
    (hc : Along CreatedFirst h) (hle : ∀ m ∈ deliveredMods h, m ≤ r) :
    bound call h ≤ max call.options.revision r := by
  unfold bound
  cases hlast : lastEnded h with
  | none => exact le_max_left _ _
  | some c =>
    obtain ⟨p, hp, event, hevent, rfl⟩ := lastEnded_mem hlast
    obtain ⟨_, hfirst⟩ := hc.of_mem p hp
    have hcreate := hfirst event (endingEvent_mem hevent)
    have hmod : event.kv.modRevision ≤ r := by
      apply hle
      exact List.mem_flatMap.mpr ⟨p, hp, List.mem_map_of_mem (endingEvent_mem hevent)⟩
    dsimp only
    omega

theorem begun_step {call : Call} {h : History (State B) Answer} {s s' : State B} {a : Answer}
    (hr : WatchRun call h s) (hc : Along CreatedFirst h) (hd : HeadersCover h s a)
    (hi : ∀ o e, s.pc.round = some (o, e) → ∃ rsp, Begun call h s o e rsp)
    (hs : step call s a = some s') (o : WatchOptions) (e : EventType)
    (hround : s'.pc.round = some (o, e)) : ∃ rsp, Begun call ((s, a) :: h) s' o e rsp := by
  rcases round_step hs hround with ⟨hround', ha⟩ | ⟨-, hpc, rsp, rfl, rfl⟩
  · obtain ⟨rsp, hbegun⟩ := hi o e hround'
    have hnode : s'.node = s.node := (step_withNode ha hs s.node).2
    have hlast : lastReply ((s, a) :: h) = lastReply h := by simp [lastReply, ha]
    have hbound : bound call ((s, a) :: h) = bound call h := by
      have hended : endedBy s a = none := by
        cases step_iff.mp hs with
        | found hfound => cases hround
        | notFound hnone => simp [endedBy, hnone]
        | _ => rfl
      simp [bound, lastEnded, hended]
    exact ⟨rsp, hlast.trans hbegun.read, hnode ▸ hbegun.node, hnode ▸ hbegun.awaits,
      by rw [hnode, hbound]; exact hbegun.start, hbound ▸ hbegun.bound⟩
  · have hrev : s.revision = bound call h := by
      have hbounded : Bounded call h s :=
        hr.inv (fun _ => bounded_init) (fun _ hi hs => bounded_step hi hs)
      exact hbounded (by rw [hpc]; rfl)
    have hbound : bound call ((s, .range (.ok rsp)) :: h) = bound call h := by
      simp [bound, lastEnded, endedBy]
    have hnode : (afterLeader call (s.withReply rsp)).node = (s.withReply rsp).node :=
      afterLeader_node call _
    obtain ⟨hawaits, hstart⟩ := afterLeader_awaits hround
    refine ⟨rsp, rfl, ⟨s.node, hnode⟩, by rw [hnode]; exact hawaits, ?_, ?_⟩
    · rw [hstart, hbound, hnode, State.watchFrom]
      have hread : (s.withReply rsp).node.watchRevision = rsp.header.revision :=
        getLeaderReply_watchRevision s.node rsp
      rw [hread, show (s.withReply rsp).revision = bound call h from hrev]
    · rw [hbound]
      exact bound_le hc (hd rsp rfl)

theorem begun_run {S : Server} {call : Call} {h : History (Sys B) SysLabel} {n : Sys B}
    (hr : SysRun S call h n) {o : WatchOptions} {e : EventType}
    (hround : n.watch.pc.round = some (o, e)) :
    ∃ rsp, Begun call (watchSteps h) n.watch o e rsp := by
  have hboth : Along CreatedFirst (watchSteps h) ∧
      ∀ o e, n.watch.pc.round = some (o, e) → ∃ rsp, Begun call (watchSteps h) n.watch o e rsp := by
    refine hr.watch.inv_along
      (P := fun h s => Along CreatedFirst h ∧
        ∀ o e, s.pc.round = some (o, e) → ∃ rsp, Begun call h s o e rsp)
      (C := fun h s a => HeadersCover h s a ∧ CreatedFirst h s a) ?_ ?_ ?_
    · intro s ⟨node, hs⟩
      refine ⟨trivial, fun o e h => ?_⟩
      rw [hs] at h
      cases h
    · exact fun hr hi hc hs => ⟨⟨hi.1, hc.2⟩, begun_step hr hi.1 hc.1 hi.2 hs⟩
    · exact (assumptions_run hr).imp fun _ _ _ hc => ⟨hc.1, hc.2.2⟩
  exact hboth.2 o e hround

/-! ## What is still to come -/

/-- The watcher that a round reads from, or the one that it asks for
next. -/
def Sys.roundWatcher (call : Call) (n : Sys B) : Option Watcher :=
  match n.watch.pc with
  | .read _ _ => n.stream
  | pc => pc.round.map fun r => { req := roundRequest call r.1 }

/-- It is cut off, or such an event is still to come. -/
def Sys.Expects (call : Call) (n : Sys B) (p : Event → Prop) : Prop :=
  ∃ wr, n.roundWatcher call = some wr ∧
    (wr.Cut n.mvcc ∨ ∃ event ∈ wr.coming n.mvcc, p event)

/-- What no watcher of the round has delivered is still to come. -/
theorem ReadsOn.coming {req : WatchCreateRequest} {e : EventType} {m : Mvcc} {wr : Watcher}
    (h : ReadsOn req e m.log wr) (hstart : req.startRevision ≠ 0) (hcanceled : wr.canceled = false)
    {event : Event} (hevent : event ∈ m.log)
    (hcarries : req.carries req.startRevision event = true)
    (hkind : Event.isOf e event = true) : event ∈ wr.coming m := by
  unfold Watcher.coming Watcher.pending
  rw [hcanceled, h.req_eq]
  show event ∈ Cursor.pending _ m.log wr.delivered
  cases hsince : wr.since with
  | none =>
    rw [h.fresh hsince, Option.getD_none, startsAt, if_neg hstart]
    exact (Cursor.passed_zero _ (Event.isOf e) _).mem_pending hevent hcarries hkind
  | some since =>
    obtain ⟨hbegins, hpassed⟩ := h.passed since hsince
    rw [Option.getD_some]
    rcases hbegins with heq | ⟨h0, -⟩
    · rw [heq] at hpassed ⊢
      exact hpassed.mem_pending hevent hcarries hkind
    · exact absurd h0 hstart

/-- Nothing that a round awaits is lost. -/
theorem expects_of_awaited {S : Server} {call : Call} {h : History (Sys B) SysLabel} {n : Sys B}
    (hr : SysRun S call h n) {o : WatchOptions} {e : EventType}
    (hround : n.watch.pc.round = some (o, e)) (hstart : (roundRequest call o).startRevision ≠ 0)
    {p : Event → Prop} {event : Event} (hevent : event ∈ n.mvcc.log)
    (hawaited : Awaited call e (roundRequest call o).startRevision event) (hp : p event) :
    n.Expects call p := by
  obtain ⟨hcarries, hkind⟩ := (roundOf_run hr.watch hround).awaited_iff.mpr hawaited
  have hreads : ∃ wr, n.roundWatcher call = some wr ∧
      ReadsOn (roundRequest call o) e n.mvcc.log wr := by
    cases hpc : n.watch.pc with
    | read o' e' =>
      rw [hpc] at hround
      cases hround
      obtain ⟨wr, hwr, hreads⟩ := reading_run hr o e hpc
      exact ⟨wr, by rw [Sys.roundWatcher, hpc]; exact hwr, hreads⟩
    | _ =>
      rw [hpc] at hround
      refine ⟨{ req := roundRequest call o }, ?_, rfl, fun _ => rfl, nofun⟩
      rw [Sys.roundWatcher, hpc]
      dsimp only
      rw [hround]
      rfl
  obtain ⟨wr, hwr, hreads⟩ := hreads
  refine ⟨wr, hwr, ?_⟩
  cases hcanceled : wr.canceled with
  | true => exact Or.inl (Or.inl hcanceled)
  | false => exact Or.inr ⟨event, hreads.coming hstart hcanceled hevent hcarries hkind, hp⟩

/-- **The leader that Watch waits on still leads, or its end is still to
come.** For a prefix that is selected exactly. In every run against a
changing store, whatever failed on the way: while a round waits on a leader
with a lease that the last read reported, that key leads the election since
the same creation, or a `DELETE` event of it is among those that the round's
watcher is still to be sent, or the server has cut that watcher off. The
caller's revision must not be past the read. -/
theorem waits_on_leader {S : Server} {call : Call} (hexact : ExactKey call.char call.keyPrefix)
    {h : History (Sys B) SysLabel} {n : Sys B} {o : WatchOptions} {e : EventType}
    {rsp : RangeResponse} {kv : KeyValue} (hr : SysRun S call h n)
    (hround : n.watch.pc.round = some (o, e)) (hread : lastReply (watchSteps h) = some rsp)
    (hkv : rsp.kvs = [kv]) (hlease : kv.lease ≠ invalidLeaseID)
    (hrev : call.options.revision ≤ rsp.header.revision + 1) :
    StillLeads call n.mvcc.store kv ∨
      n.Expects call fun event => event.type = .delete ∧ event.kv.key = kv.key := by
  have htells := tells_run hexact hr rsp (Or.inr hread)
  obtain ⟨rsp', hbegun⟩ := begun_run hr hround
  cases hbegun.read.symm.trans hread
  have hvalid : n.watch.node.isValid = true := by
    obtain ⟨node, hnode⟩ := hbegun.node
    rw [hnode, getLeaderReply_single node hkv]
    simpa [ElectionNode.isValid, ElectionNode.setBykv] using hlease
  have hstart := hbegun.start
  have hbound := hbegun.bound
  rw [if_pos hvalid] at hstart
  have hawaits : e = .delete := by rw [hbegun.awaits, if_pos hvalid]
  have hasked : Requests (leaderRequest call.char call.keyPrefix) kv.key := by
    obtain ⟨p, -, -, hlead⟩ := htells.served
    obtain ⟨hmem, hpre⟩ := (hlead kv hkv).1
    exact (requests_under_iff hexact (p.1.mvcc.store.nonempty kv hmem)).mpr hpre
  refine (htells.leader kv hkv).imp_right ?_
  intro hgone
  obtain ⟨event, hevent, htype, hkey, hlater⟩ := hgone
  have hpos := htells.revision.1
  exact expects_of_awaited hr hround (by omega) hevent
    ⟨by omega, hkey ▸ hasked, hawaits ▸ htype⟩ ⟨htype, hkey⟩

/-- **An election that Watch saw without a leader has none, or one is still
to come.** For a prefix that is selected exactly. While a round waits for a
first leader after a read without one, nobody stands for the election, or a
`PUT` event of a candidate is among those that the round's watcher is still
to be sent, or the server has cut that watcher off. The round's request must
have a `start_revision`. -/
theorem waits_for_first {S : Server} {call : Call} (hexact : ExactKey call.char call.keyPrefix)
    {h : History (Sys B) SysLabel} {n : Sys B} {o : WatchOptions} {e : EventType}
    {rsp : RangeResponse} (hr : SysRun S call h n) (hround : n.watch.pc.round = some (o, e))
    (hread : lastReply (watchSteps h) = some rsp) (hnil : rsp.kvs = [])
    (hinvalid : n.watch.node.isValid = false)
    (hstart : (roundRequest call o).startRevision ≠ 0)
    (hrev : call.options.revision ≤ rsp.header.revision + 1) :
    Leaderless call n.mvcc.store ∨ n.Expects call (Comes call) := by
  have htells := tells_run hexact hr rsp (Or.inr hread)
  obtain ⟨rsp', hbegun⟩ := begun_run hr hround
  cases hbegun.read.symm.trans hread
  have hbound := hbegun.bound
  have hfrom := hbegun.start
  have hawaits := hbegun.awaits
  rw [hinvalid] at hfrom hawaits
  simp only [Bool.false_eq_true, if_false] at hfrom hawaits
  refine (htells.leaderless hnil).imp_right ?_
  intro hcome
  obtain ⟨event, hevent, hcomes, hlater⟩ := hcome
  have hasked := (requests_under_iff hexact hcomes.2.1).mpr hcomes.2.2
  exact expects_of_awaited hr hround hstart hevent
    ⟨by omega, hasked, hawaits ▸ hcomes.1⟩ hcomes

/-! ## The leader that is reported -/

/-- `Watch` returns OK from a read only. -/
theorem returned_step {call : Call} {s s' : State B} {a : Answer} (hs : step call s a = some s')
    {status : Status} (hret : s'.status = some status) (hok : status.isOk = true) :
    ∃ rsp, a = .range (.ok rsp) ∧ s'.node = (s.withReply rsp).node ∧
      (s.withReply rsp).isNew = true := by
  cases step_iff.mp hs with
  | @leader n r b rsp =>
    refine ⟨rsp, rfl, afterLeader_node _ _, ?_⟩
    rcases afterLeader_cases call ⟨(getLeaderReply n (.ok rsp)).2, r, b, .getLeader⟩ with
      ⟨hnew, -⟩ | ⟨-, o, e, hwatch, -⟩
    · exact hnew
    · rw [hwatch] at hret
      cases hret
  | leaderWaitDone =>
    cases hret
    cases hok
  | watchWaitDone =>
    cases hret
    cases hok
  | _ => cases hret

theorem returned_run {call : Call} {h : History (State B) Answer} {s : State B}
    (hr : WatchRun call h s) {status : Status} (hret : s.status = some status)
    (hok : status.isOk = true) :
    ∃ rsp, lastReply h = some rsp ∧ s.node.isValid = true ∧
      ∃ node, s.node = (getLeaderReply node (.ok rsp)).2 := by
  cases hr with
  | start hi =>
    obtain ⟨node, rfl⟩ := hi
    cases hret
  | @next h s₀ _ a _ hs =>
    obtain ⟨rsp, rfl, hnode, hnew⟩ := returned_step hs hret hok
    refine ⟨rsp, rfl, ?_, s₀.node, hnode⟩
    rw [hnode]
    exact (isNew_iff.mp hnew).1

/-- **Watch reports a leader that was one.** For a prefix that is selected
exactly, where `Watch` has returned OK from a read that found a key: the node
holds that key as it was in the store at `current_revision`, at a moment of
the run when it led the election; and it leads since the same creation now,
or was deleted after that revision. -/
theorem watch_reports_leader {S : Server} {call : Call}
    (hexact : ExactKey call.char call.keyPrefix) {h : History (Sys B) SysLabel} {n : Sys B}
    {status : Status} {rsp : RangeResponse} {kv : KeyValue} (hr : SysRun S call h n)
    (hret : n.watch.status = some status) (hok : status.isOk = true)
    (hread : lastReply (watchSteps h) = some rsp) (hkv : rsp.kvs = [kv]) :
    n.watch.node.Holds kv ∧ kv.lease ≠ invalidLeaseID ∧
      (∃ p ∈ h, p.1.mvcc.revision = n.watch.node.currentRevision ∧
        Leads call p.1.mvcc.store kv) ∧
      (StillLeads call n.mvcc.store kv ∨ GoneSince n.mvcc kv n.watch.node.currentRevision) := by
  obtain ⟨rsp', hread', hvalid, node, hnode⟩ := returned_run hr.watch hret hok
  cases hread'.symm.trans hread
  rw [getLeaderReply_single node hkv] at hnode
  have htells := tells_run hexact hr rsp (Or.inr hread)
  obtain ⟨p, hp, hrevision, hlead⟩ := htells.served
  have hcurrent : n.watch.node.currentRevision = rsp.header.revision := by
    rw [hnode]
    rfl
  have hholds : n.watch.node.Holds kv := by
    rw [hnode]
    exact ElectionNode.holds_setBykv _ _
  have hlease : kv.lease ≠ invalidLeaseID := by
    rw [ElectionNode.isValid, hholds.lease] at hvalid
    simpa using hvalid
  rw [hcurrent]
  exact ⟨hholds, hlease, ⟨p, hp, hrevision, hlead kv hkv⟩, htells.leader kv hkv⟩

/-! ## A leader goes while the stream is away -/

theorem exactKey_electionA (revision : Int) :
    ExactKey (electionA revision).char (electionA revision).keyPrefix := by
  have hexact : ExactKey .unsigned [0x61] := Or.inr (Or.inr (by decide +kernel))
  exact hexact

/-- The leader of `firstReadScript`. -/
def leaderA : KeyValue :=
  { key := [0x61], createRevision := 2, modRevision := 2, version := 1, lease := 1 }

/-- The stream fails, and the leader goes before another is opened. -/
def awayScript : List SysLabel :=
  firstReadScript ++
    [.party (.read none), .party (.finish .unavailable),
      .commit (.request (.deleteRange { key := [0x61] }))]

theorem waits_on_leader_away :
    ∃ h n, exec (sysStep sampleServer (electionA 2)) [] (freshSys (electionA 2)) awayScript
        = some (h, n) ∧
      (StillLeads (electionA 2) n.mvcc.store leaderA ∨
        n.Expects (electionA 2) fun event =>
          event.type = .delete ∧ event.kv.key = leaderA.key) := by
  have hrun : (exec (sysStep sampleServer (electionA 2)) [] (freshSys (electionA 2))
      awayScript).map (fun r => (lastReply (watchSteps r.1), r.2.watch.pc.round.isSome))
        = some (some { header := { revision := 2 }, kvs := [leaderA] }, true) := by
    decide +kernel
  obtain ⟨⟨h, n⟩, hexec, heq⟩ := Option.map_eq_some_iff.mp hrun
  simp only [Prod.mk.injEq] at heq
  obtain ⟨⟨o, e⟩, hround⟩ := Option.isSome_iff_exists.mp heq.2
  exact ⟨h, n, hexec, waits_on_leader (exactKey_electionA 2)
    (Run.exec (.start (sysInit_fresh _)) hexec) hround heq.1 rfl (by decide) (by decide)⟩

/-- A first leader comes between the read and the stream. -/
def comingScript : List SysLabel :=
  [.serve, .party (reply 1 []), .commit (.request (.put { key := [0x61], lease := 1 }))]

theorem waits_for_first_coming :
    ∃ h n, exec (sysStep sampleServer (electionA 2)) [] (freshSys (electionA 2)) comingScript
        = some (h, n) ∧
      (Leaderless (electionA 2) n.mvcc.store ∨
        n.Expects (electionA 2) (Comes (electionA 2))) := by
  have hrun : (exec (sysStep sampleServer (electionA 2)) [] (freshSys (electionA 2))
      comingScript).map (fun r => (lastReply (watchSteps r.1), r.2.watch.node.isValid,
        r.2.watch.pc.round.map fun p => (roundRequest (electionA 2) p.1).startRevision))
        = some (some { header := { revision := 1 } }, false, some 2) := by
    decide +kernel
  obtain ⟨⟨h, n⟩, hexec, heq⟩ := Option.map_eq_some_iff.mp hrun
  simp only [Prod.mk.injEq] at heq
  obtain ⟨hread, hinvalid, hround⟩ := heq
  obtain ⟨⟨o, e⟩, hround, hstart⟩ := Option.map_eq_some_iff.mp hround
  dsimp only at hstart
  exact ⟨h, n, hexec, waits_for_first (exactKey_electionA 2)
    (Run.exec (.start (sysInit_fresh _)) hexec) hround hread rfl hinvalid (by omega) (by decide)⟩

/-- The second leader of `handoverScript`. -/
def leaderAB : KeyValue :=
  { key := [0x61, 0x62], createRevision := 4, modRevision := 4, version := 1, lease := 2 }

theorem watch_reports_leader_handover :
    ∃ h n, exec (sysStep sampleServer (electionA 2)) [] (freshSys (electionA 2))
        handoverScript = some (h, n) ∧
      ∃ p ∈ h, p.1.mvcc.revision = n.watch.node.currentRevision ∧
        Leads (electionA 2) p.1.mvcc.store leaderAB := by
  have hrun : (exec (sysStep sampleServer (electionA 2)) [] (freshSys (electionA 2))
      handoverScript).map (fun r => (lastReply (watchSteps r.1), r.2.watch.status))
        = some (some { header := { revision := 4 }, kvs := [leaderAB] }, some {}) := by
    decide +kernel
  obtain ⟨⟨h, n⟩, hexec, heq⟩ := Option.map_eq_some_iff.mp hrun
  simp only [Prod.mk.injEq] at heq
  exact ⟨h, n, hexec, (watch_reports_leader (exactKey_electionA 2)
    (Run.exec (.start (sysInit_fresh _)) hexec) heq.2 rfl heq.1 rfl).2.2.1⟩

end

end Election

end Etcdv3Client
