import Etcdv3Client.Lib.Cursor
import Etcdv3Client.Lib.Run
import Etcdv3Client.Mvcc
import Etcdv3Client.Watch

/-!
# A key-value server

What the client's requests reach: a server that may refuse any of them, and
does what the comments of rpc.proto and kv.proto say where it does not. A
commit is a request of any client, a compaction or the end of a lease; what
a commit keeps, a run of commits keeps. A watcher is sent the history, as far
as it is not compacted.
-/

namespace Etcdv3Client

open Transition

/-- A server of the key-value service. Which requests it refuses, what a
comparison means and the order of rows that a request does not separate are
its own. -/
structure Server where
  compare : Mvcc → Mvcc → Compare → Bool
  range : RangeRequest → Mvcc → Option RangeResponse
  put : PutRequest → Mvcc → Option (PutResponse × Mvcc)
  deleteRange : DeleteRangeRequest → Mvcc → Option (DeleteRangeResponse × Mvcc)
  compact : CompactionRequest → Mvcc → Option Mvcc
  leaseEnd : Int → Mvcc → Mvcc
  /-- "Range requests are linearizable by default" -/
  range_reads : ∀ {req : RangeRequest} {m rsp}, req.serializable = false →
    range req m = some rsp → m.Reads req rsp
  put_puts : ∀ {req} {m : Mvcc} {r}, put req m = some r → m.Put req r.1 r.2
  deleteRange_deletes : ∀ {req} {m : Mvcc} {r}, deleteRange req m = some r →
    m.DeleteRange req r.1 r.2
  compact_compacts : ∀ {req} {m w : Mvcc}, compact req m = some w → m.Compacts req w
  /-- "All keys attached to the lease will expire and be deleted." -/
  leaseEnd_deletes : ∀ lease (m : Mvcc),
    m.next.Deletes (fun kv => kv.lease == lease) (leaseEnd lease m)

/-- What reaches the server, from any client, or the end of a lease. -/
inductive Commit where
  | request (op : RequestOp)
  | compact (req : CompactionRequest)
  | leaseEnd (lease : Int)

namespace Server

def handlers (S : Server) : Handlers Mvcc where
  header := Mvcc.header
  compare := S.compare
  range := S.range
  put := S.put
  deleteRange := S.deleteRange

/-- A request by itself: "It is not allowed to modify the same key several
times within one txn." -/
def apply (S : Server) (op : RequestOp) (m : Mvcc) : Option (ResponseOp × Mvcc) :=
  match op with
  | .range req => (S.range req m).map fun rsp => (.range rsp, m)
  | op =>
      (S.handlers.runOp m.next op m.next).filter fun r =>
        ((r.2.log.drop m.log.length).map fun e => e.kv.key).Nodup

def step (S : Server) (m : Mvcc) : Commit → Option Mvcc
  | .request op => (S.apply op m).map Prod.snd
  | .compact req => S.compact req m
  | .leaseEnd lease => some (S.leaseEnd lease m)

end Server

namespace Mvcc

/-! ## Later times -/

/-- `w` is the server at a later time than `m`: the history goes on with
events of newer revisions, and these tell what has changed. An entry that is
no longer there was deleted by one of them, one that is new was put, and an
entry put over another keeps its `create_revision`. -/
structure Later (m w : Mvcc) (events : List Event) : Prop where
  revision : m.revision ≤ w.revision
  compacted : m.compacted ≤ w.compacted
  log : w.log = m.log ++ events
  newer : ∀ e ∈ events, m.revision < e.kv.modRevision
  content : w.store.get = afterEvents m.store.get events
  kept : ∀ kv ∈ m.store.kvs,
    (∃ kv' ∈ w.store.kvs, kv'.key = kv.key ∧ kv'.createRevision = kv.createRevision) ∨
      ∃ e ∈ events, e.type = .delete ∧ e.kv.key = kv.key
  made : ∀ kv ∈ w.store.kvs, kv ∈ m.store.kvs ∨ { type := .put, kv := kv } ∈ events
  created : ∀ kv ∈ w.store.kvs, m.revision < kv.createRevision ∨
    ∃ kv' ∈ m.store.kvs, kv'.key = kv.key ∧ kv'.createRevision = kv.createRevision

/-- Nothing has changed but the two revisions. -/
theorem Later.of_same {m w : Mvcc} (hrev : m.revision ≤ w.revision)
    (hcompacted : m.compacted ≤ w.compacted) (hstore : w.store = m.store) (hlog : w.log = m.log) :
    Later m w [] := by
  refine ⟨hrev, hcompacted, ?_, nofun, ?_, ?_, ?_, ?_⟩
  · rw [hlog, List.append_nil]
  · rw [hstore]
    rfl
  · intro kv hkv
    exact Or.inl ⟨kv, hstore ▸ hkv, rfl, rfl⟩
  · intro kv hkv
    exact Or.inl (hstore ▸ hkv)
  · intro kv hkv
    exact Or.inr ⟨kv, hstore ▸ hkv, rfl, rfl⟩

theorem Later.refl (m : Mvcc) : Later m m [] := Later.of_same (le_refl _) (le_refl _) rfl rfl

theorem Later.next (m : Mvcc) : Later m m.next [] := by
  refine Later.of_same ?_ (le_refl _) rfl rfl
  show m.revision ≤ m.revision + 1
  omega

theorem Later.trans {m s w : Mvcc} {es es' : List Event} (h : Later m s es) (h' : Later s w es') :
    Later m w (es ++ es') := by
  refine ⟨h.revision.trans h'.revision, h.compacted.trans h'.compacted, ?_, ?_, ?_, ?_, ?_, ?_⟩
  · rw [h'.log, h.log, List.append_assoc]
  · exact List.forall_mem_append.mpr
      ⟨h.newer, fun e he => lt_of_le_of_lt h.revision (h'.newer e he)⟩
  · rw [h'.content, h.content, afterEvents, afterEvents, afterEvents, Journal.play_append]
  · intro kv hkv
    rcases h.kept kv hkv with ⟨kv', hkv', hkey, hcreate⟩ | ⟨e, he, hgone⟩
    · rcases h'.kept kv' hkv' with ⟨kv'', hkv'', hkey', hcreate'⟩ | ⟨e, he, hdel, hekey⟩
      · exact Or.inl ⟨kv'', hkv'', hkey'.trans hkey, hcreate'.trans hcreate⟩
      · exact Or.inr ⟨e, List.mem_append_right _ he, hdel, hekey.trans hkey⟩
    · exact Or.inr ⟨e, List.mem_append_left _ he, hgone⟩
  · intro kv hkv
    rcases h'.made kv hkv with hold | hput
    · exact (h.made kv hold).imp_right (List.mem_append_left _)
    · exact Or.inr (List.mem_append_right _ hput)
  · intro kv hkv
    rcases h'.created kv hkv with hnew | ⟨kv', hkv', hkey', hcreate'⟩
    · exact Or.inl (lt_of_le_of_lt h.revision hnew)
    · rcases h.created kv' hkv' with hnew | ⟨kv'', hkv'', hkey, hcreate⟩
      · exact Or.inl (hcreate' ▸ hnew)
      · exact Or.inr ⟨kv'', hkv'', hkey.trans hkey', hcreate.trans hcreate'⟩

/-- A put, by itself. -/
theorem Put.kept {m w : Mvcc} {req : PutRequest} {rsp : PutResponse} (h : m.Put req rsp w)
    {kv : KeyValue} (hkv : kv ∈ m.store.kvs) :
    ∃ kv' ∈ w.store.kvs, kv'.key = kv.key ∧ kv'.createRevision = kv.createRevision := by
  by_cases hkey : kv.key = req.key
  · -- put over the entry
    rcases m.written_createRevision req with ⟨hno, -⟩ | ⟨prev, hprev, hpkey, hpcreate⟩
    · exact absurd hkey (hno kv hkv)
    · cases Store.eq_of_key hprev hkv (hpkey.trans hkey.symm)
      exact ⟨m.written req, h.mem_iff.mpr (Or.inl rfl), (m.written_key req).trans hkey.symm,
        hpcreate⟩
  · exact ⟨kv, h.mem_iff.mpr (Or.inr ⟨hkv, hkey⟩), rfl, rfl⟩

/-- A request goes on with a put, at the revision that it makes. -/
theorem Later.put {m s w : Mvcc} {events : List Event} (h : Later m s events)
    (hnew : m.revision < s.revision) {req : PutRequest} {rsp : PutResponse}
    (hput : s.Put req rsp w) :
    Later m w (events ++ [{ type := .put, kv := s.written req }]) := by
  refine ⟨h.revision.trans_eq hput.revision.symm, h.compacted.trans_eq hput.compacted.symm,
    ?_, ?_, ?_, ?_, ?_, ?_⟩
  · rw [hput.log, h.log, List.append_assoc]
  · refine List.forall_mem_append.mpr ⟨h.newer, List.forall_mem_singleton.mpr ?_⟩
    exact hnew.trans_eq (s.written_modRevision req).symm
  · rw [hput.content, h.content, afterEvents, afterEvents, Journal.play_append,
      Journal.play_singleton]
    simp [Event.left]
  · intro kv hkv
    rcases h.kept kv hkv with ⟨kv', hkv', hkey, hcreate⟩ | ⟨e, he, hgone⟩
    · obtain ⟨kv'', hkv'', hkey', hcreate'⟩ := hput.kept hkv'
      exact Or.inl ⟨kv'', hkv'', hkey'.trans hkey, hcreate'.trans hcreate⟩
    · exact Or.inr ⟨e, List.mem_append_left _ he, hgone⟩
  · intro kv hkv
    rcases hput.mem_iff.mp hkv with rfl | ⟨hold, -⟩
    · exact Or.inr (List.mem_append_right _ (List.mem_singleton.mpr rfl))
    · exact (h.made kv hold).imp_right (List.mem_append_left _)
  · intro kv hkv
    rcases hput.mem_iff.mp hkv with rfl | ⟨hold, -⟩
    · rcases s.written_createRevision req with ⟨-, hcreate⟩ | ⟨prev, hprev, hpkey, hpcreate⟩
      · exact Or.inl (hnew.trans_eq hcreate.symm)
      · rcases h.created prev hprev with hlate | ⟨old, hold, hokey, hocreate⟩
        · exact Or.inl (hlate.trans_eq hpcreate.symm)
        · exact Or.inr ⟨old, hold, (hokey.trans hpkey).trans (s.written_key req).symm,
            hocreate.trans hpcreate.symm⟩
    · exact h.created kv hold

/-- It goes on with a deletion. -/
theorem Later.delete {m s w : Mvcc} {events : List Event} (h : Later m s events)
    (hnew : m.revision < s.revision) {p : KeyValue → Bool} (hdel : s.Deletes p w) :
    ∃ deletions, Later m w (events ++ deletions) := by
  obtain ⟨deletions, hperm, hlog⟩ := hdel.log
  have hmem : ∀ e, e ∈ deletions ↔ ∃ kv ∈ s.store.kvs, p kv = true ∧ s.deleted kv = e := by
    intro e
    simp [hperm.mem_iff, and_assoc]
  refine ⟨deletions, h.revision.trans_eq hdel.revision.symm,
    h.compacted.trans_eq hdel.compacted.symm, ?_, ?_, ?_, ?_, ?_, ?_⟩
  · rw [hlog, h.log, List.append_assoc]
  · refine List.forall_mem_append.mpr ⟨h.newer, fun e he => ?_⟩
    obtain ⟨kv, -, -, rfl⟩ := (hmem e).mp he
    exact hnew
  · have hclear : ∀ e ∈ deletions, e.left = none := by
      intro e he
      obtain ⟨kv, -, -, rfl⟩ := (hmem e).mp he
      rfl
    have hkeys : ∀ key, key ∈ deletions.map (fun e => e.kv.key) ↔
        key ∈ (s.store.kvs.filter p).map KeyValue.key := by
      intro key
      rw [(hperm.map _).mem_iff, List.map_map]
      rfl
    ext1 key
    rw [hdel.content, Store.filter_get, h.content, afterEvents, afterEvents, Journal.play_append,
      Journal.play_clear _ _ hclear]
    simp only [hkeys]
  · intro kv hkv
    rcases h.kept kv hkv with ⟨kv', hkv', hkey, hcreate⟩ | ⟨e, he, hgone⟩
    · cases hp : p kv' with
      | true =>
        refine Or.inr ⟨s.deleted kv', List.mem_append_right _ ?_, rfl, hkey⟩
        exact (hmem _).mpr ⟨kv', hkv', hp, rfl⟩
      | false => exact Or.inl ⟨kv', hdel.mem_iff.mpr ⟨hkv', hp⟩, hkey, hcreate⟩
    · exact Or.inr ⟨e, List.mem_append_left _ he, hgone⟩
  · intro kv hkv
    exact (h.made kv (hdel.mem_iff.mp hkv).1).imp_right (List.mem_append_left _)
  · intro kv hkv
    exact h.created kv (hdel.mem_iff.mp hkv).1

theorem Compacts.later {m w : Mvcc} {req : CompactionRequest} (h : m.Compacts req w) :
    Later m w [] := by
  obtain ⟨hsince, -, rfl⟩ := h
  exact Later.of_same (le_refl _) hsince rfl rfl

/-! ## The revisions -/

/-- Entries and events carry revisions the store has had, none created after
it was modified, and the history is in the order of the revisions. -/
structure Wf (m : Mvcc) : Prop where
  positive : 1 ≤ m.revision
  compacted : m.compacted ≤ m.revision
  entries : ∀ kv ∈ m.store.kvs, 1 ≤ kv.createRevision ∧ kv.createRevision ≤ kv.modRevision ∧
    kv.modRevision ≤ m.revision
  events : ∀ e ∈ m.log, e.kv.createRevision ≤ e.kv.modRevision ∧ 1 ≤ e.kv.modRevision ∧
    e.kv.modRevision ≤ m.revision
  ordered : m.log.Pairwise fun e e' => e.kv.modRevision ≤ e'.kv.modRevision

theorem wf_empty : Wf empty := by
  refine ⟨by decide, by decide, ?_, ?_, .nil⟩
  · intro kv hkv
    cases hkv
  · intro e he
    cases he

theorem Wf.next {m : Mvcc} (h : Wf m) : Wf m.next := by
  have hle : m.revision ≤ m.next.revision := (Later.next m).revision
  refine ⟨h.positive.trans hle, h.compacted.trans hle, ?_, ?_, h.ordered⟩
  · intro kv hkv
    obtain ⟨hpos, hcreate, hmod⟩ := h.entries kv hkv
    exact ⟨hpos, hcreate, hmod.trans hle⟩
  · intro e he
    obtain ⟨hcreate, hpos, hmod⟩ := h.events e he
    exact ⟨hcreate, hpos, hmod.trans hle⟩

/-- Events of the newest revision go to the end of the history. -/
theorem Wf.append {m : Mvcc} (h : Wf m) (events : List Event)
    (hevents : ∀ e ∈ events, e.kv.modRevision = m.revision ∧
      e.kv.createRevision ≤ m.revision) :
    (∀ e ∈ m.log ++ events, e.kv.createRevision ≤ e.kv.modRevision ∧ 1 ≤ e.kv.modRevision ∧
      e.kv.modRevision ≤ m.revision) ∧
    (m.log ++ events).Pairwise fun e e' => e.kv.modRevision ≤ e'.kv.modRevision := by
  constructor
  · refine List.forall_mem_append.mpr ⟨h.events, fun e he => ?_⟩
    obtain ⟨hmod, hcreate⟩ := hevents e he
    have hpos := h.positive
    omega
  · rw [List.pairwise_append]
    refine ⟨h.ordered, ?_, ?_⟩
    · refine List.pairwise_of_forall_mem_list fun e he e' he' => ?_
      rw [(hevents e he).1, (hevents e' he').1]
    · intro e he e' he'
      rw [(hevents e' he').1]
      exact (h.events e he).2.2

/-- The entry a put leaves. -/
theorem Wf.written {m : Mvcc} (h : Wf m) (req : PutRequest) :
    1 ≤ (m.written req).createRevision ∧ (m.written req).createRevision ≤ m.revision := by
  rcases m.written_createRevision req with ⟨-, hnew⟩ | ⟨prev, hprev, -, hcreate⟩
  · rw [hnew]
    exact ⟨h.positive, le_refl _⟩
  · obtain ⟨hpos, hle, hmod⟩ := h.entries prev hprev
    rw [hcreate]
    exact ⟨hpos, hle.trans hmod⟩

theorem Wf.put {m w : Mvcc} (h : Wf m) {req : PutRequest} {rsp : PutResponse}
    (hput : m.Put req rsp w) : Wf w := by
  obtain ⟨hpos, hcreate⟩ := h.written req
  have hmod := m.written_modRevision req
  obtain ⟨hevents, hordered⟩ := h.append [{ type := .put, kv := m.written req }]
    (List.forall_mem_singleton.mpr ⟨hmod, hcreate⟩)
  refine ⟨?_, ?_, ?_, ?_, ?_⟩
  · rw [hput.revision]
    exact h.positive
  · rw [hput.compacted, hput.revision]
    exact h.compacted
  · intro kv hkv
    rw [hput.revision]
    rcases hput.mem_iff.mp hkv with rfl | ⟨hkv', -⟩
    · rw [hmod]
      exact ⟨hpos, hcreate, le_refl _⟩
    · exact h.entries kv hkv'
  · rw [hput.log, hput.revision]
    exact hevents
  · rw [hput.log]
    exact hordered

theorem Wf.delete {m w : Mvcc} (h : Wf m) {p : KeyValue → Bool} (hdel : m.Deletes p w) :
    Wf w := by
  obtain ⟨deletions, hperm, hlog⟩ := hdel.log
  obtain ⟨hevents, hordered⟩ := h.append deletions (by
    intro e he
    obtain ⟨kv, -, rfl⟩ := List.mem_map.mp (hperm.subset he)
    -- a `DELETE` event carries no `create_revision`
    exact ⟨rfl, le_trans Int.one_nonneg h.positive⟩)
  refine ⟨?_, ?_, ?_, ?_, ?_⟩
  · rw [hdel.revision]
    exact h.positive
  · rw [hdel.compacted, hdel.revision]
    exact h.compacted
  · intro kv hkv
    rw [hdel.revision]
    exact h.entries kv (hdel.mem_iff.mp hkv).1
  · rw [hlog, hdel.revision]
    exact hevents
  · rw [hlog]
    exact hordered

theorem Wf.compact {m w : Mvcc} (h : Wf m) {req : CompactionRequest} (hc : m.Compacts req w) :
    Wf w := by
  obtain ⟨-, hpast, rfl⟩ := hc
  exact ⟨h.positive, hpast, h.entries, h.events, h.ordered⟩

end Mvcc

/-! ## Commits -/

namespace Server

variable {S : Server} {m w : Mvcc}

/-- What a put and a deletion keep, from the next revision on, a request
keeps. -/
theorem apply_keeps {P : Mvcc → Prop} {op : RequestOp} {rsp : ResponseOp} (hm : P m.next)
    (hput : ∀ {s s' req rsp}, P s → s.Put req rsp s' → P s')
    (hdelete : ∀ {s s' p}, P s → s.Deletes p s' → P s')
    (h : S.apply op m = some (rsp, w)) : w = m ∨ P w := by
  unfold apply at h
  split at h
  · obtain ⟨_, -, heq⟩ := Option.map_eq_some_iff.mp h
    cases heq
    exact Or.inl rfl
  · have hrun := (Option.filter_eq_some_iff.mp h).1
    refine Or.inr (S.handlers.runOp_keeps m.next ?_ ?_ _ hm hrun)
    · exact fun hs hr => hput hs (S.put_puts hr)
    · exact fun hs hr => hdelete hs (S.deleteRange_deletes hr).deletes

/-- A commit is a request, a compaction or the end of a lease. -/
theorem step_keeps {P : Mvcc → Prop} {c : Commit} (hm : P m.next)
    (hput : ∀ {s s' req rsp}, P s → s.Put req rsp s' → P s')
    (hdelete : ∀ {s s' p}, P s → s.Deletes p s' → P s')
    (h : S.step m c = some w) : w = m ∨ P w ∨ ∃ req, m.Compacts req w := by
  cases c with
  | request op =>
    obtain ⟨⟨rsp, w'⟩, happly, rfl⟩ := Option.map_eq_some_iff.mp h
    exact (apply_keeps hm hput hdelete happly).imp_right Or.inl
  | compact req => exact Or.inr (Or.inr ⟨req, S.compact_compacts h⟩)
  | leaseEnd lease =>
    cases h
    exact Or.inr (Or.inl (hdelete hm (S.leaseEnd_deletes lease m)))

/-- **What a commit does to the server.** -/
theorem step_later {c : Commit} (h : S.step m c = some w) : ∃ events, Mvcc.Later m w events := by
  let P : Mvcc → Prop := fun w => m.revision < w.revision ∧ ∃ events, Mvcc.Later m w events
  have hnext : P m.next := ⟨Int.lt_succ m.revision, [], .next m⟩
  have hput : ∀ {s s' req rsp}, P s → s.Put req rsp s' → P s' := by
    intro s s' req rsp ⟨hnew, events, hlater⟩ hput
    exact ⟨hnew.trans_eq hput.revision.symm, _, hlater.put hnew hput⟩
  have hdelete : ∀ {s s' p}, P s → s.Deletes p s' → P s' := by
    intro s s' p ⟨hnew, events, hlater⟩ hdel
    obtain ⟨deletions, hlater'⟩ := hlater.delete hnew hdel
    exact ⟨hnew.trans_eq hdel.revision.symm, _, hlater'⟩
  rcases step_keeps hnext hput hdelete h with rfl | ⟨-, hlater⟩ | ⟨req, hcompact⟩
  · exact ⟨[], .refl _⟩
  · exact hlater
  · exact ⟨[], hcompact.later⟩

theorem step_wf {c : Commit} (hm : m.Wf) (h : S.step m c = some w) : w.Wf := by
  rcases step_keeps (P := Mvcc.Wf) hm.next (fun hs hput => hs.put hput)
    (fun hs hdel => hs.delete hdel) h with rfl | hw | ⟨req, hcompact⟩
  · exact hm
  · exact hw
  · exact hm.compact hcompact

/-- A run of commits from a state of the server. -/
abbrev Commits (S : Server) (m : Mvcc) (h : History Mvcc Commit) (w : Mvcc) : Prop :=
  Run S.step (fun s => s = m) h w

theorem Commits.later {h : History Mvcc Commit} (hr : S.Commits m h w) :
    ∃ events, Mvcc.Later m w events := by
  refine hr.inv_state (P := fun w => ∃ events, Mvcc.Later m w events) ?_ ?_
  · intro s hs
    rw [hs]
    exact ⟨[], .refl m⟩
  · intro s s' c ⟨es, hlater⟩ hs
    obtain ⟨es', hlater'⟩ := step_later hs
    exact ⟨_, hlater.trans hlater'⟩

theorem Commits.wf {h : History Mvcc Commit} (hm : m.Wf) (hr : S.Commits m h w) : w.Wf := by
  refine hr.inv_state (P := Mvcc.Wf) ?_ step_wf
  intro s hs
  rwa [hs]

end Server

/-! ## Watchers -/

/-- A watcher, from the request on. -/
structure Watcher where
  req : WatchCreateRequest
  /-- where its events begin, once the server has created it -/
  since : Option Int := none
  delivered : Nat := 0
  /-- "No further events will be sent to the canceled watcher." -/
  canceled : Bool := false

/-- Where the events of a watcher begin: "No start_revision is now". -/
def startsAt (m : Mvcc) (req : WatchCreateRequest) : Int :=
  if req.startRevision = 0 then m.revision + 1 else req.startRevision

namespace Watcher

/-- The server creates the watcher, and cancels it "when creating a watcher
at a compacted revision". -/
def create (m : Mvcc) (wr : Watcher) : Watcher :=
  { wr with
    since := some (startsAt m wr.req)
    canceled := decide (startsAt m wr.req < m.compacted) }

/-- The events of the history that the server has yet to deliver, where
those of the watcher begin at `since`. -/
def pending (m : Mvcc) (since : Int) (wr : Watcher) : List Event :=
  if wr.canceled then [] else Cursor.pending (wr.req.carries since) m.log wr.delivered

theorem prefix_of_pending {m : Mvcc} {since : Int} {wr : Watcher} {events : List Event}
    (h : events <+: wr.pending m since) :
    events <+: Cursor.pending (wr.req.carries since) m.log wr.delivered := by
  unfold pending at h
  split at h
  · rw [List.prefix_nil.mp h]
    exact List.nil_prefix
  · exact h

/-- The events that it is still to be sent, where it is not cut off. -/
def coming (m : Mvcc) (wr : Watcher) : List Event :=
  wr.pending m (wr.since.getD (startsAt m wr.req))

/-- The server has cancelled the watcher, is to cancel it when it creates
it, or has compacted an event that it was still to be sent. -/
def Cut (m : Mvcc) (wr : Watcher) : Prop :=
  wr.canceled = true ∨ wr.since = none ∧ startsAt m wr.req < m.compacted ∨
    ∃ e ∈ wr.coming m, e.kv.modRevision < m.compacted

end Watcher

/-! ## A server -/

namespace Mvcc

/-- The newest content, the rows sorted stably. -/
def range (req : RangeRequest) (m : Mvcc) : Option RangeResponse :=
  if req.revision ≤ 0 ∧ m.compacted ≤ m.revision then
    let out := Query.answer (fun kv => Requests req kv.key ∧ req.Within kv) req.before req.cutAt
      m.store.kvs
    some
      { header := m.header
        kvs := req.shows out
        more := decide (out.length <
          m.store.kvs.countP fun kv => decide (Requests req kv.key ∧ req.Within kv))
        count :=
          if req.countOnly then m.store.kvs.countP fun kv => decide (Requests req kv.key) else 0 }
  else none

def put (req : PutRequest) (m : Mvcc) : Option (PutResponse × Mvcc) :=
  if h : req.key = [] then none
  else if (req.ignoreValue || req.ignoreLease) && (m.store.get req.key).isNone then none
  else
    some ({ header := m.header, prevKv := if req.prevKv then m.store.get req.key else none },
      { m with
        store := m.store.insert (m.written req) (by rwa [written_key])
        log := m.log ++ [{ type := .put, kv := m.written req }] })

/-- The keys that meet `p` are deleted, in the order of the store. -/
def delete (p : KeyValue → Bool) (m : Mvcc) : Mvcc :=
  { m with store := m.store.remove p, log := m.log ++ (m.store.kvs.filter p).map m.deleted }

def deleteRange (req : DeleteRangeRequest) (m : Mvcc) : Option (DeleteRangeResponse × Mvcc) :=
  if req.key = [] then none
  else
    some ({ header := m.header, deleted := (m.requested req).length,
            prevKvs := if req.prevKv then m.requested req else [] },
      m.delete fun kv => decide (Requests req kv.key))

def compact (req : CompactionRequest) (m : Mvcc) : Option Mvcc :=
  if m.compacted ≤ req.revision ∧ req.revision ≤ m.revision then
    some { m with compacted := req.revision }
  else none

theorem range_reads {req : RangeRequest} {m : Mvcc} {rsp : RangeResponse}
    (h : range req m = some rsp) : m.Reads req rsp := by
  unfold range at h
  split at h
  · rename_i hnewest
    cases h
    have hpoint : req.pointInTime m.revision = m.revision := if_pos hnewest.1
    refine ⟨rfl, hnewest.2.trans_eq hpoint.symm, hpoint.le, m.store, ?_, _, ?_, rfl, ?_, ?_⟩
    · rw [hpoint, contentAt, if_pos rfl]
    · exact Query.answers_answer _ _ _ req.before_trans req.before_total
    · intro hcount
      rw [hcount]
      rfl
    · intro _
      exact decide_eq_true_iff
  · cases h

theorem put_puts {req : PutRequest} {m : Mvcc} {r : PutResponse × Mvcc} (h : put req m = some r) :
    m.Put req r.1 r.2 := by
  unfold put at h
  split at h
  · cases h
  · split at h
    · cases h
    · rename_i hexists
      cases h
      refine ⟨?_, rfl, rfl, ?_, rfl, rfl, rfl⟩
      · intro hignore hnone
        exact hexists (by simp [hignore, hnone])
      · rw [Store.get_insert, written_key]

theorem delete_deletes (p : KeyValue → Bool) (m : Mvcc) : m.Deletes p (m.delete p) :=
  ⟨fun _ => Store.get_remove, ⟨_, .refl _, rfl⟩, rfl, rfl⟩

theorem deleteRange_deletes {req : DeleteRangeRequest} {m : Mvcc} {r : DeleteRangeResponse × Mvcc}
    (h : deleteRange req m = some r) : m.DeleteRange req r.1 r.2 := by
  unfold deleteRange at h
  split at h
  · cases h
  · cases h
    exact ⟨rfl, rfl, .refl _, delete_deletes _ m⟩

theorem compact_compacts {req : CompactionRequest} {m w : Mvcc} (h : compact req m = some w) :
    m.Compacts req w := by
  unfold compact at h
  split at h
  · rename_i hpast
    cases h
    exact ⟨hpast.1, hpast.2, rfl⟩
  · cases h

end Mvcc

/-- A server that reads its newest content only, and for which all
comparisons hold. -/
def sampleServer : Server where
  compare _ _ _ := true
  range := Mvcc.range
  put := Mvcc.put
  deleteRange := Mvcc.deleteRange
  compact := Mvcc.compact
  leaseEnd lease m := m.next.delete fun kv => kv.lease == lease
  range_reads _ h := Mvcc.range_reads h
  put_puts := Mvcc.put_puts
  deleteRange_deletes := Mvcc.deleteRange_deletes
  compact_compacts := Mvcc.compact_compacts
  leaseEnd_deletes _ m := Mvcc.delete_deletes _ m.next

end Etcdv3Client
