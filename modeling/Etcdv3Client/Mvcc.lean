import Mathlib.Data.List.Nodup
import Etcdv3Client.Lib.Journal
import Etcdv3Client.Store
import Etcdv3Client.TxnRun

/-!
# The server's side of the key-value requests

The newest content of the key-value store with the event history, and what
the comments of rpc.proto and kv.proto say of the requests that succeed:
which replies a `Range` may have, and what the writing requests leave. While
one is applied, `revision` is the one it makes.
-/

namespace Etcdv3Client

/-! ## A store as a map -/

namespace Store

def get (store : Store) (key : Bytes) : Option KeyValue :=
  store.kvs.find? fun kv => kv.key == key

/-- The store without the entries that meet `p`. -/
def remove (store : Store) (p : KeyValue → Bool) : Store where
  kvs := store.kvs.filter fun kv => !p kv
  nonempty kv hkv := store.nonempty kv (List.mem_filter.mp hkv).1
  nodup := store.nodup.sublist (List.filter_sublist.map _)

/-- The store with `kv` in the place of the entry of its key. -/
def insert (store : Store) (kv : KeyValue) (h : kv.key ≠ []) : Store where
  kvs := kv :: (store.remove fun kv' => kv'.key == kv.key).kvs
  nonempty kv' hkv' := by
    rcases List.mem_cons.mp hkv' with rfl | hkv'
    · exact h
    · exact (store.remove _).nonempty kv' hkv'
  nodup := by
    rw [List.map_cons, List.nodup_cons]
    refine ⟨?_, (store.remove _).nodup⟩
    intro hmem
    obtain ⟨kv', hkv', hkey⟩ := List.mem_map.mp hmem
    simpa [hkey] using (List.mem_filter.mp hkv').2

theorem mem_remove {store : Store} {p : KeyValue → Bool} {kv : KeyValue} :
    kv ∈ (store.remove p).kvs ↔ kv ∈ store.kvs ∧ p kv = false := by
  simp [remove]

theorem mem_insert {store : Store} {kv kv' : KeyValue} (h : kv.key ≠ []) :
    kv' ∈ (store.insert kv h).kvs ↔ kv' = kv ∨ kv' ∈ store.kvs ∧ kv'.key ≠ kv.key := by
  rw [insert, List.mem_cons, mem_remove]
  simp

theorem mem_insert_self (store : Store) (kv : KeyValue) (h : kv.key ≠ []) :
    kv ∈ (store.insert kv h).kvs := List.mem_cons_self

/-- A key has one entry. -/
theorem eq_of_key {store : Store} {kv kv' : KeyValue} (h : kv ∈ store.kvs) (h' : kv' ∈ store.kvs)
    (hkey : kv.key = kv'.key) : kv = kv' :=
  List.inj_on_of_nodup_map store.nodup h h' hkey

theorem get_eq_some_iff {store : Store} {key : Bytes} {kv : KeyValue} :
    store.get key = some kv ↔ kv ∈ store.kvs ∧ kv.key = key := by
  constructor
  · intro h
    exact ⟨List.mem_of_find?_eq_some h, by simpa using List.find?_some h⟩
  · intro ⟨hkv, hkey⟩
    cases hget : store.get key with
    | none => simpa [hkey] using List.find?_eq_none.mp hget kv hkv
    | some kv' =>
      have hkey' : kv'.key = key := by simpa using List.find?_some hget
      rw [eq_of_key (List.mem_of_find?_eq_some hget) hkv (hkey'.trans hkey.symm)]

theorem mem_iff_get {store : Store} {kv : KeyValue} :
    kv ∈ store.kvs ↔ store.get kv.key = some kv := by
  rw [get_eq_some_iff, and_iff_left rfl]

theorem get_eq_none_iff {store : Store} {key : Bytes} :
    store.get key = none ↔ ∀ kv ∈ store.kvs, kv.key ≠ key := by
  rw [get, List.find?_eq_none]
  simp

/-- A store holds no empty key. -/
theorem get_nil (store : Store) : store.get [] = none :=
  get_eq_none_iff.mpr store.nonempty

/-- An entry leaves those of the other keys. -/
theorem get_insert_of_ne {store : Store} {kv : KeyValue} (h : kv.key ≠ []) {key : Bytes}
    (hne : key ≠ kv.key) : (store.insert kv h).get key = store.get key := by
  ext kv'
  rw [get_eq_some_iff, get_eq_some_iff, mem_insert]
  constructor
  · intro ⟨hmem, hkey⟩
    rcases hmem with rfl | ⟨hmem, -⟩
    · exact absurd hkey.symm hne
    · exact ⟨hmem, hkey⟩
  · intro ⟨hmem, hkey⟩
    exact ⟨Or.inr ⟨hmem, fun hsame => hne (hkey.symm.trans hsame)⟩, hkey⟩

theorem get_insert {store : Store} {kv : KeyValue} (h : kv.key ≠ []) :
    (store.insert kv h).get = Function.update store.get kv.key (some kv) := by
  ext1 key
  by_cases hkey : key = kv.key
  · rw [hkey, Function.update_self]
    exact get_eq_some_iff.mpr ⟨mem_insert_self store kv h, rfl⟩
  · rw [Function.update_of_ne hkey, get_insert_of_ne h hkey]

/-- The entries that meet `p` are gone. -/
theorem get_remove {store : Store} {p : KeyValue → Bool} {key : Bytes} :
    (store.remove p).get key = (store.get key).filter fun kv => !p kv := by
  ext kv
  rw [get_eq_some_iff, mem_remove, Option.filter_eq_some_iff, get_eq_some_iff]
  simp only [Bool.not_eq_true']
  tauto

theorem filter_get {store : Store} {p : KeyValue → Bool} {key : Bytes} :
    (store.get key).filter (fun kv => !p kv)
      = if key ∈ (store.kvs.filter p).map KeyValue.key then none else store.get key := by
  by_cases hgone : key ∈ (store.kvs.filter p).map KeyValue.key
  · obtain ⟨kv, hkv, hkey⟩ := List.mem_map.mp hgone
    obtain ⟨hmem, hp⟩ := List.mem_filter.mp hkv
    rw [if_pos hgone, get_eq_some_iff.mpr ⟨hmem, hkey⟩]
    simp [hp]
  · rw [if_neg hgone]
    cases hget : store.get key with
    | none => rfl
    | some kv =>
      obtain ⟨hmem, hkey⟩ := get_eq_some_iff.mp hget
      rw [Option.filter_some, if_pos]
      by_contra hp
      refine hgone (List.mem_map.mpr ⟨kv, List.mem_filter.mpr ⟨hmem, ?_⟩, hkey⟩)
      simpa using hp

/-- Two lists of the same content. -/
theorem perm_of_get {a b : Store} (h : a.get = b.get) : a.kvs.Perm b.kvs := by
  rw [List.perm_ext_iff_of_nodup (List.Nodup.of_map _ a.nodup) (List.Nodup.of_map _ b.nodup)]
  intro kv
  rw [mem_iff_get, mem_iff_get, h]

end Store

/-! ## The event history -/

/-- What an event leaves under its key. -/
def Event.left (e : Event) : Option KeyValue :=
  match e.type with
  | .put => some e.kv
  | .delete => none

/-- The content of a store after events. -/
def afterEvents (c : Bytes → Option KeyValue) (events : List Event) : Bytes → Option KeyValue :=
  Journal.play (fun e => e.kv.key) Event.left c events

structure Mvcc where
  revision : Int
  store : Store
  /-- the event history, oldest first, with what a compaction removes of it -/
  log : List Event
  /-- the revision of the last compaction -/
  compacted : Int := 0

namespace Mvcc

def header (m : Mvcc) : ResponseHeader := { revision := m.revision }

/-- A new revision begins. -/
def next (m : Mvcc) : Mvcc := { m with revision := m.revision + 1 }

/-- A server without keys. -/
def empty : Mvcc := { revision := 1, store := Store.empty, log := [] }

/-- The content at a revision: the newest, or what the events up to it
left. -/
def contentAt (m : Mvcc) (revision : Int) : Bytes → Option KeyValue :=
  if revision = m.revision then m.store.get
  else afterEvents (fun _ => none) (m.log.filter fun e => decide (e.kv.modRevision ≤ revision))

end Mvcc

/-! ## Range -/

namespace RangeRequest

/-- "If revision is less or equal to zero, the range is over the newest
key-value store." -/
def pointInTime (req : RangeRequest) (newest : Int) : Int :=
  if req.revision ≤ 0 then newest else req.revision

/-- Not "filtered away"; a bound that is not set is none. -/
def Within (req : RangeRequest) (kv : KeyValue) : Prop :=
  (req.minModRevision = 0 ∨ req.minModRevision ≤ kv.modRevision) ∧
    (req.maxModRevision = 0 ∨ kv.modRevision ≤ req.maxModRevision) ∧
    (req.minCreateRevision = 0 ∨ req.minCreateRevision ≤ kv.createRevision) ∧
    (req.maxCreateRevision = 0 ∨ kv.createRevision ≤ req.maxCreateRevision)

instance (req : RangeRequest) (kv : KeyValue) : Decidable (req.Within kv) :=
  inferInstanceAs (Decidable (_ ∧ _ ∧ _ ∧ _))

/-- "only the count of the keys", "only the keys and not the values" -/
def shows (req : RangeRequest) (kvs : List KeyValue) : List KeyValue :=
  if req.countOnly then []
  else if req.keysOnly then kvs.map fun kv => { kv with value := [] }
  else kvs

end RangeRequest

/-- The replies that the comments allow over the entries of a store: "count
is set to the number of keys within the range when requested", "more
indicates if there are more keys to return". -/
def Store.Replies (rows : Store) (req : RangeRequest) (rsp : RangeResponse) : Prop :=
  ∃ out, Query.Answers (fun kv => Requests req kv.key ∧ req.Within kv)
      (fun a b => req.before a b = true) req.cutAt rows.kvs out ∧
    rsp.kvs = req.shows out ∧
    (req.countOnly = true → rsp.count = rows.kvs.countP fun kv => decide (Requests req kv.key)) ∧
    (req.countOnly = false → (rsp.more = true ↔ out.length <
      rows.kvs.countP fun kv => decide (Requests req kv.key ∧ req.Within kv)))

/-- The replies to a `Range` at a revision that the store has had and that
is not compacted; for `serializable` the store is that of the member that
answers. -/
structure Mvcc.Reads (m : Mvcc) (req : RangeRequest) (rsp : RangeResponse) : Prop where
  header : rsp.header = m.header
  /-- "If the revision has been compacted, ErrCompacted is returned as a
  response." -/
  uncompacted : m.compacted ≤ req.pointInTime m.revision
  past : req.pointInTime m.revision ≤ m.revision
  reply : ∃ rows : Store, rows.get = m.contentAt (req.pointInTime m.revision) ∧
    rows.Replies req rsp

theorem Store.Replies.of_get {a b : Store} (h : a.get = b.get) {req : RangeRequest}
    {rsp : RangeResponse} (hr : a.Replies req rsp) : b.Replies req rsp := by
  obtain ⟨out, hans, hkvs, hcount, hmore⟩ := hr
  have hperm := perm_of_get h
  refine ⟨out, hans.of_perm hperm, hkvs, ?_, ?_⟩
  · rw [← hperm.countP_eq]
    exact hcount
  · rw [← hperm.countP_eq]
    exact hmore

/-- A range over the newest key-value store. -/
theorem Mvcc.reads_newest {m : Mvcc} {req : RangeRequest} {rsp : RangeResponse}
    (hreq : req.revision ≤ 0) :
    m.Reads req rsp ↔
      rsp.header = m.header ∧ m.compacted ≤ m.revision ∧ m.store.Replies req rsp := by
  have hpoint : req.pointInTime m.revision = m.revision := if_pos hreq
  have hcontent : m.contentAt (req.pointInTime m.revision) = m.store.get := if_pos hpoint
  constructor
  · intro ⟨hheader, huncompacted, _, rows, hrows, hreplies⟩
    exact ⟨hheader, hpoint ▸ huncompacted, hreplies.of_get (hrows.trans hcontent)⟩
  · intro ⟨hheader, huncompacted, hreplies⟩
    exact ⟨hheader, huncompacted.trans_eq hpoint.symm, hpoint.le, m.store, hcontent.symm, hreplies⟩

/-- The fields by which a reply leaves something out. -/
def RangeRequest.narrows (req : RangeRequest) : Int × (Int × Int) × (Int × Int) × Bool × Bool :=
  (req.revision, (req.minModRevision, req.maxModRevision),
    (req.minCreateRevision, req.maxCreateRevision), req.keysOnly, req.countOnly)

/-- A request that leaves nothing out but by its limit is replied to with an
answer of the store, and whether there is more. -/
theorem Store.replies_iff {store : Store} {req : RangeRequest}
    (hreq : req.narrows = (0, (0, 0), (0, 0), false, false)) {rsp : RangeResponse} :
    store.Replies req rsp ↔ store.Answers req rsp.kvs ∧
      (rsp.more = true ↔
        rsp.kvs.length < store.kvs.countP fun kv => decide (Requests req kv.key)) := by
  simp only [RangeRequest.narrows, Prod.mk.injEq] at hreq
  obtain ⟨-, ⟨hminMod, hmaxMod⟩, ⟨hminCreate, hmaxCreate⟩, hkeys, hcount⟩ := hreq
  have hshows : ∀ out, req.shows out = out := by
    intro out
    simp [RangeRequest.shows, hkeys, hcount]
  have hsel : ∀ kv : KeyValue, Requests req kv.key ∧ req.Within kv ↔ Requests req kv.key := by
    intro kv
    simp [RangeRequest.Within, hminMod, hmaxMod, hminCreate, hmaxCreate]
  unfold Replies Answers
  simp only [hshows, hsel, hcount]
  constructor
  · intro ⟨out, hans, hkvs, _, hmore⟩
    rw [hkvs]
    exact ⟨hans, hmore trivial⟩
  · intro ⟨hans, hmore⟩
    exact ⟨rsp.kvs, hans, rfl, nofun, fun _ => hmore⟩

/-- Such a range of the newest revision. -/
theorem Mvcc.Reads.answers {m : Mvcc} {req : RangeRequest} {rsp : RangeResponse}
    (h : m.Reads req rsp) (hreq : req.narrows = (0, (0, 0), (0, 0), false, false)) :
    m.store.Answers req rsp.kvs := by
  have hrev : req.revision = 0 := congrArg Prod.fst hreq
  exact ((Store.replies_iff hreq).mp ((reads_newest hrev.le).mp h).2.2).1

/-! ## Put, DeleteRange and Compact -/

namespace Mvcc

/-- What a put leaves in the store: "create_revision is the revision of last
creation on this key", "any modification of the key increases its version". -/
def written (m : Mvcc) (req : PutRequest) : KeyValue :=
  match m.store.get req.key with
  | none =>
      { key := req.key, createRevision := m.revision, modRevision := m.revision, version := 1,
        value := req.value, lease := req.lease }
  | some prev =>
      { key := req.key, createRevision := prev.createRevision, modRevision := m.revision,
        version := prev.version + 1
        value := if req.ignoreValue then prev.value else req.value
        lease := if req.ignoreLease then prev.lease else req.lease }

/-- "the deleted key with its modification revision set to the revision of
deletion" -/
def deleted (m : Mvcc) (kv : KeyValue) : Event :=
  { type := .delete, kv := { key := kv.key, modRevision := m.revision } }

/-- A `Put` has succeeded, and left the server at `w`. -/
structure Put (m : Mvcc) (req : PutRequest) (rsp : PutResponse) (w : Mvcc) : Prop where
  /-- "Returns an error if the key does not exist." -/
  exist : (req.ignoreValue || req.ignoreLease) = true → m.store.get req.key ≠ none
  header : rsp.header = m.header
  /-- "if prev_kv is set in the request, the previous key-value pair will be
  returned" -/
  prevKv : rsp.prevKv = if req.prevKv then m.store.get req.key else none
  content : w.store.get = Function.update m.store.get req.key (some (m.written req))
  /-- "generates one event in the event history" -/
  log : w.log = m.log ++ [{ type := .put, kv := m.written req }]
  revision : w.revision = m.revision
  compacted : w.compacted = m.compacted

/-- The keys that meet `p` are deleted: "a delete event in the event history
for every deleted key". -/
structure Deletes (m : Mvcc) (p : KeyValue → Bool) (w : Mvcc) : Prop where
  content : ∀ key, w.store.get key = (m.store.get key).filter fun kv => !p kv
  log : ∃ events, events.Perm ((m.store.kvs.filter p).map m.deleted) ∧ w.log = m.log ++ events
  revision : w.revision = m.revision
  compacted : w.compacted = m.compacted

/-- The entries that a `DeleteRange` takes. -/
def requested (m : Mvcc) (req : DeleteRangeRequest) : List KeyValue :=
  m.store.kvs.filter fun kv => decide (Requests req kv.key)

/-- A `DeleteRange` has succeeded. -/
structure DeleteRange (m : Mvcc) (req : DeleteRangeRequest) (rsp : DeleteRangeResponse)
    (w : Mvcc) : Prop where
  header : rsp.header = m.header
  /-- "deleted is the number of keys deleted by the delete range request" -/
  deleted : rsp.deleted = (m.requested req).length
  /-- "if prev_kv is set in the request, the previous key-value pairs will be
  returned" -/
  prevKvs : rsp.prevKvs.Perm (if req.prevKv then m.requested req else [])
  deletes : m.Deletes (fun kv => decide (Requests req kv.key)) w

/-- A `Compact` has succeeded: "compacts the key-value store up to a given
revision", one that it has had. -/
structure Compacts (m : Mvcc) (req : CompactionRequest) (w : Mvcc) : Prop where
  since : m.compacted ≤ req.revision
  past : req.revision ≤ m.revision
  after : w = { m with compacted := req.revision }

/-! ## What they leave -/

@[simp] theorem written_key (m : Mvcc) (req : PutRequest) : (m.written req).key = req.key := by
  unfold written
  split <;> rfl

@[simp] theorem written_modRevision (m : Mvcc) (req : PutRequest) :
    (m.written req).modRevision = m.revision := by
  unfold written
  split <;> rfl

/-- The entry a put leaves is created at its revision, or was before. -/
theorem written_createRevision (m : Mvcc) (req : PutRequest) :
    ((∀ kv ∈ m.store.kvs, kv.key ≠ req.key) ∧ (m.written req).createRevision = m.revision) ∨
      ∃ kv ∈ m.store.kvs, kv.key = req.key ∧
        (m.written req).createRevision = kv.createRevision := by
  unfold written
  split
  · rename_i hnone
    exact Or.inl ⟨Store.get_eq_none_iff.mp hnone, rfl⟩
  · rename_i prev hprev
    obtain ⟨hmem, hkey⟩ := Store.get_eq_some_iff.mp hprev
    exact Or.inr ⟨prev, hmem, hkey, rfl⟩

/-- "An empty key is not allowed." -/
theorem Put.key_ne_nil {m w : Mvcc} {req : PutRequest} {rsp : PutResponse}
    (h : m.Put req rsp w) : req.key ≠ [] := by
  intro hnil
  have hget := congrFun h.content req.key
  rw [Function.update_self, hnil, Store.get_nil] at hget
  cases hget

theorem Put.mem_iff {m w : Mvcc} {req : PutRequest} {rsp : PutResponse} (h : m.Put req rsp w)
    {kv : KeyValue} :
    kv ∈ w.store.kvs ↔ kv = m.written req ∨ kv ∈ m.store.kvs ∧ kv.key ≠ req.key := by
  rw [Store.mem_iff_get, h.content]
  by_cases hkey : kv.key = req.key
  · rw [hkey, Function.update_self, Option.some_inj]
    constructor
    · intro heq
      exact Or.inl heq.symm
    · intro hor
      rcases hor with heq | ⟨-, hne⟩
      · exact heq.symm
      · exact absurd rfl hne
  · rw [Function.update_of_ne hkey, ← Store.mem_iff_get]
    constructor
    · intro hmem
      exact Or.inr ⟨hmem, hkey⟩
    · intro hor
      rcases hor with rfl | ⟨hmem, -⟩
      · exact absurd (m.written_key req) hkey
      · exact hmem

theorem Deletes.mem_iff {m w : Mvcc} {p : KeyValue → Bool} (h : m.Deletes p w) {kv : KeyValue} :
    kv ∈ w.store.kvs ↔ kv ∈ m.store.kvs ∧ p kv = false := by
  rw [Store.mem_iff_get, h.content, ← Store.get_remove, ← Store.mem_iff_get, Store.mem_remove]

end Mvcc

end Etcdv3Client
