import Etcdv3Client.OptionChains
import Etcdv3Client.Server

/-!
# kv.cc: what the calls do to a store

`Range`, `Put` and `DeleteRange` with chains of options, sent to a server
that accepts them one after the other. What one writes or deletes the others
return; a deletion takes what the same choice of keys returned before, and no
more.
-/

namespace Etcdv3Client

open LastWriter

/-! ## Ranges that are not cut -/

namespace RangeSetter

/-- The call chooses keys or an order, and leaves nothing out. -/
def plain : RangeSetter → Bool
  | .withPrefix | .withRangeEnd _ | .withFromKey | .withSortOrder _ | .withSortByKey
  | .withSortByVersion | .withSortByCreate | .withSortByMod | .withSortByValue => true
  | _ => false

/-- `WithPrefix` sets the key and the end of the range. -/
theorem withPrefix_frame {α : Type} {f : RangeRequest → α} (char : PlainChar) (req : RangeRequest)
    (hf : ∀ req key rangeEnd, f { req with key := key, rangeEnd := rangeEnd } = f req) :
    f (set char .withPrefix req) = f req := by
  obtain ⟨key, rangeEnd, hset⟩ := setPrefix_eq char req
  rw [set_withPrefix_eq, hset, hf]

/-- The limit that the call sets. -/
def limit : RangeSetter → Option Int
  | .withLimit limit => some limit
  | _ => none

theorem limit_set (char : PlainChar) (c : RangeSetter) (req : RangeRequest) :
    (c.set char req).limit = c.limit.elim req.limit fun t => t := by
  cases c with
  | withPrefix => exact withPrefix_frame char req fun _ _ _ => rfl
  | _ => rfl

/-- The call chooses keys, an order or a limit. -/
def unfiltered (c : RangeSetter) : Bool := c.plain || c.limit.isSome

end RangeSetter

/-- The chain chooses keys and an order only. -/
def RangeCall.Plain (cs : List RangeCall) : Prop := ∀ c ∈ expandAll cs, c.plain = true

instance (cs : List RangeCall) : Decidable (RangeCall.Plain cs) :=
  inferInstanceAs (Decidable (∀ c ∈ RangeCall.expandAll cs, c.plain = true))

theorem cutAt_of_plain (char : PlainChar) (k : Bytes) {cs : List RangeCall}
    (h : RangeCall.Plain cs) :
    (Client.rangeRequest k (RangeCall.options char cs)).cutAt = none := by
  have hnone : (RangeCall.expandAll cs).filterMap RangeSetter.limit = [] := by
    rw [List.filterMap_eq_nil_iff]
    intro c hc
    have hplain := h c hc
    cases c <;> first | rfl | cases hplain
  have hlimit := last_foldl (RangeSetter.limit_set char) (RangeCall.expandAll cs)
    ({ key := k } : RangeRequest)
  rw [← RangeCall.rangeRequest_options, hnone] at hlimit
  have hzero : (Client.rangeRequest k (RangeCall.options char cs)).limit = 0 := hlimit
  rw [RangeRequest.cutAt, if_pos hzero]

theorem narrows_unfiltered (char : PlainChar) (k : Bytes) {rs : List RangeCall}
    (h : ∀ c ∈ RangeCall.expandAll rs, c.unfiltered = true) :
    (Client.rangeRequest k (RangeCall.options char rs)).narrows
      = (0, (0, 0), (0, 0), false, false) := by
  rw [RangeCall.rangeRequest_options]
  refine kept_foldl (f := RangeRequest.narrows) _ ?_ _
  intro c hc req
  have hplain := h c hc
  cases c with
  | withPrefix => exact RangeSetter.withPrefix_frame char req fun _ _ _ => rfl
  | _ => first | rfl | cases hplain

/-- What a plain chain is replied with is an answer of the store. -/
theorem Mvcc.Reads.answers_of_plain {m : Mvcc} {char : PlainChar} {k : Bytes}
    {rs : List RangeCall} {rsp : RangeResponse}
    (h : m.Reads (Client.rangeRequest k (RangeCall.options char rs)) rsp)
    (hplain : RangeCall.Plain rs) :
    m.store.Answers (Client.rangeRequest k (RangeCall.options char rs)) rsp.kvs := by
  refine h.answers (narrows_unfiltered char k fun c hc => ?_)
  rw [RangeSetter.unfiltered, hplain c hc, Bool.true_or]

/-- What a range that is not cut returns is what it selects. -/
theorem Store.Answers.perm {store : Store} {req : RangeRequest} {kvs : List KeyValue}
    (h : store.Answers req kvs) (hcut : req.cutAt = none) :
    kvs.Perm (store.kvs.filter fun kv => decide (Requests req kv.key)) := by
  obtain ⟨sorted, hperm, -, rfl⟩ := h
  rw [hcut]
  exact hperm

/-! ## DeleteRange -/

theorem Server.apply_deleteRange {S : Server} {m w : Mvcc} {req : DeleteRangeRequest}
    {r : ResponseOp} (h : S.apply (.deleteRange req) m = some (r, w)) :
    ∃ rsp, r = .deleteRange rsp ∧ m.next.DeleteRange req rsp w := by
  have hrun := (Option.filter_eq_some_iff.mp h).1
  obtain ⟨⟨rsp, s⟩, hdel, heq⟩ := Option.map_eq_some_iff.mp hrun
  cases heq
  exact ⟨rsp, rfl, S.deleteRange_deletes hdel⟩

/-- There is a server that accepts every deletion of a key. -/
theorem sampleServer_deleteRange (m : Mvcc) {req : DeleteRangeRequest} (hkey : req.key ≠ []) :
    ∃ r, sampleServer.apply (.deleteRange req) m = some r := by
  have hdel : Mvcc.deleteRange req m.next = some _ := if_neg hkey
  have hnodup : ((((m.next.delete fun kv => decide (Requests req kv.key)).log.drop
      m.log.length)).map fun e => e.kv.key).Nodup := by
    show (((m.log ++ _).drop m.log.length).map fun e => e.kv.key).Nodup
    rw [List.drop_left, List.map_map]
    exact m.store.nodup.sublist (List.filter_sublist.map _)
  unfold Server.apply
  simp only [Handlers.runOp, Server.handlers, sampleServer, hdel, Option.map_some]
  exact ⟨_, by rw [Option.filter_some, if_pos (by simpa using hnodup)]⟩

/-- Chains that choose the same keys. -/
theorem requests_iff (char : PlainChar) (k : Bytes) {rs : List RangeCall}
    {ds : List DeleteRangeCall} (h : RangeCall.keyCalls rs = DeleteRangeCall.keyCalls ds)
    (s : Bytes) :
    Requests (Client.deleteRangeRequest k (DeleteRangeCall.options char ds)) s ↔
      Requests (Client.rangeRequest k (RangeCall.options char rs)) s := by
  rw [requests_of_keyPart (keyPart_range char k rs), h, DeleteRangeCall.deleteRangeRequest_options]
  rfl

/-- What a deletion takes is what a plain range of the same keys returns. -/
theorem requested_perm {char : PlainChar} {k : Bytes} {rs : List RangeCall}
    {ds : List DeleteRangeCall} (hsame : RangeCall.keyCalls rs = DeleteRangeCall.keyCalls ds)
    (hplain : RangeCall.Plain rs) {m : Mvcc} {rsp : RangeResponse}
    (hreads : m.Reads (Client.rangeRequest k (RangeCall.options char rs)) rsp) :
    rsp.kvs.Perm (m.requested (Client.deleteRangeRequest k (DeleteRangeCall.options char ds))) := by
  have hperm := (hreads.answers_of_plain hplain).perm (cutAt_of_plain char k hplain)
  unfold Mvcc.requested
  simpa only [requests_iff char k hsame] using hperm

/-- **DeleteRange takes what Range returns.** A chain of `RangeOptions` calls
that chooses keys and an order only, and a chain of `DeleteRangeOptions`
calls that chooses keys alike. Where a server accepts the deletion, it counts
the keys that the range may be replied with before and returns them where
`WithPrevKV` asks for it, the range then returns nothing, and no other key
is touched. -/
theorem delete_range_takes {S : Server} {char : PlainChar} {k : Bytes} {m w : Mvcc}
    {rs : List RangeCall} {ds : List DeleteRangeCall}
    (hsame : RangeCall.keyCalls rs = DeleteRangeCall.keyCalls ds) (hplain : RangeCall.Plain rs)
    {r : ResponseOp}
    (h : S.apply (.deleteRange (Client.deleteRangeRequest k (DeleteRangeCall.options char ds))) m
      = some (r, w)) :
    ∃ rsp, r = .deleteRange rsp ∧
      (∀ before, m.Reads (Client.rangeRequest k (RangeCall.options char rs)) before →
        rsp.deleted = before.kvs.length ∧
        rsp.prevKvs.Perm (if .withPrevKV ∈ ds then before.kvs else [])) ∧
      (∀ after, w.Reads (Client.rangeRequest k (RangeCall.options char rs)) after →
        after.kvs = []) ∧
      ∀ key, ¬ Requests (Client.rangeRequest k (RangeCall.options char rs)) key →
        w.store.get key = m.store.get key := by
  obtain ⟨rsp, hr, hdel⟩ := Server.apply_deleteRange h
  refine ⟨rsp, hr, ?_, ?_, ?_⟩
  · intro before hbefore
    have hperm := requested_perm hsame hplain hbefore
    constructor
    · rw [hdel.deleted, hperm.length_eq]
      rfl
    · have hprev := hdel.prevKvs
      rw [DeleteRangeCall.deleteRangeRequest_options] at hprev hperm
      by_cases hasked : .withPrevKV ∈ ds
      · rw [if_pos hasked]
        rw [if_pos (by simpa using hasked)] at hprev
        exact hprev.trans hperm.symm
      · rw [if_neg hasked]
        rwa [if_neg (by simpa using hasked)] at hprev
  · intro after hafter
    have hperm := requested_perm hsame hplain hafter
    rw [List.eq_nil_iff_forall_not_mem]
    intro kv hkv
    obtain ⟨hmem, hsel⟩ := List.mem_filter.mp (hperm.subset hkv)
    have hstays := (hdel.deletes.mem_iff.mp hmem).2
    rw [hsel] at hstays
    cases hstays
  · intro key hno
    rw [← requests_iff char k hsame] at hno
    have hcontent := hdel.deletes.content key
    rw [Store.filter_get, if_neg] at hcontent
    · exact hcontent
    · intro hmem
      obtain ⟨kv, hkv, rfl⟩ := List.mem_map.mp hmem
      exact hno (of_decide_eq_true (List.mem_filter.mp hkv).2)

/-- A server with the key `"ab"`. -/
def keyAB : Mvcc where
  revision := 1
  store :=
    Store.single { key := [0x61, 0x62], createRevision := 1, modRevision := 1, version := 1 }
      (by decide)
  log := []

/-- The keys under `"a"` sorted by value; `WithPrevKV` comes before the
choice of keys. -/
theorem delete_range_takes_prefix :
    ∃ r w, sampleServer.apply (.deleteRange (Client.deleteRangeRequest [0x61]
        (DeleteRangeCall.options .signed [.withPrevKV, .key .withPrefix]))) keyAB = some (r, w) ∧
      ∀ after, w.Reads (Client.rangeRequest [0x61] (RangeCall.options .signed
        [.setter .withPrefix, .setter .withSortByValue])) after → after.kvs = [] := by
  have hsame : RangeCall.keyCalls [.setter .withPrefix, .setter .withSortByValue]
      = DeleteRangeCall.keyCalls [.withPrevKV, .key .withPrefix] := rfl
  have hkey : (Client.deleteRangeRequest [0x61]
      (DeleteRangeCall.options .signed [.withPrevKV, .key .withPrefix])).key ≠ [] := by decide
  obtain ⟨⟨r, w⟩, happly⟩ := sampleServer_deleteRange keyAB hkey
  obtain ⟨-, -, -, hnil, -⟩ := delete_range_takes hsame (by decide) happly
  exact ⟨r, w, happly, hnil⟩

/-- What a filter of the watcher does to the `DELETE` events. -/
theorem drops_delete_iff {ws : List WatchCall} :
    (∀ filter ∈ ws.filterMap WatchCall.filter, filter.drops .delete = false) ↔
      .withNoDelete ∉ ws := by
  constructor
  · intro h hmem
    have hdrops := h .nodelete (List.mem_filterMap.mpr ⟨_, hmem, rfl⟩)
    cases hdrops
  · intro h filter hfilter
    obtain ⟨c, hc, hsome⟩ := List.mem_filterMap.mp hfilter
    cases c with
    | withNoPut =>
      cases hsome
      rfl
    | withNoDelete => exact absurd hc h
    | _ => cases hsome

/-- The keys that a deletion takes from a store. -/
theorem gone_iff {m w : Mvcc} {p : KeyValue → Bool} (hdel : m.Deletes p w) {key : Bytes} :
    key ∈ (m.store.kvs.filter p).map KeyValue.key ↔
      m.store.get key ≠ none ∧ w.store.get key = none := by
  rw [hdel.content, Store.filter_get]
  by_cases hgone : key ∈ (m.store.kvs.filter p).map KeyValue.key
  · obtain ⟨kv, hkv, hkey⟩ := List.mem_map.mp hgone
    have hget := Store.get_eq_some_iff.mpr ⟨(List.mem_filter.mp hkv).1, hkey⟩
    simp [hgone, hget]
  · rw [if_neg hgone]
    exact iff_of_false hgone fun h => h.1 h.2

/-- **A watcher is sent the deletion key by key.** For a chain of
`WatchOptions` calls that chooses keys as the deletion does, with its events
beginning at the revision of the deletion or before: where a server accepts
the deletion, it adds to the history one `DELETE` event with its revision
for each key that is gone, as many as the response counts, and the watcher
is sent all of them, or none where `WithNoDelete` was asked for. There is a
server that accepts every deletion of a key. -/
theorem delete_range_seen {char : PlainChar} {k : Bytes} {m : Mvcc} {ds : List DeleteRangeCall}
    {ws : List WatchCall} (hsame : WatchCall.keyCalls ws = DeleteRangeCall.keyCalls ds)
    {since : Int} (hsince : since ≤ m.revision + 1) :
    (∀ (S : Server) r w,
      S.apply (.deleteRange (Client.deleteRangeRequest k (DeleteRangeCall.options char ds))) m
        = some (r, w) →
      ∃ rsp events, r = .deleteRange rsp ∧ w.log = m.log ++ events ∧
        (events.length : Int) = rsp.deleted ∧
        (∀ e ∈ events, e.type = .delete ∧ e.kv.modRevision = rsp.header.revision) ∧
        (events.map fun e => e.kv.key).Nodup ∧
        (∀ key, (∃ e ∈ events, e.kv.key = key) ↔
          m.store.get key ≠ none ∧ w.store.get key = none) ∧
        events.filter ((Client.watchSingleRequest k (WatchCall.options char ws)).carries since)
          = if .withNoDelete ∈ ws then [] else events) ∧
    ((Client.deleteRangeRequest k (DeleteRangeCall.options char ds)).key ≠ [] → ∃ r,
      sampleServer.apply
        (.deleteRange (Client.deleteRangeRequest k (DeleteRangeCall.options char ds))) m
          = some r) := by
  refine ⟨fun S r w h => ?_, sampleServer_deleteRange m⟩
  obtain ⟨rsp, hr, hdel⟩ := Server.apply_deleteRange h
  obtain ⟨events, hperm, hlog⟩ := hdel.deletes.log
  have hreq : ∀ s, Requests (Client.watchSingleRequest k (WatchCall.options char ws)) s ↔
      Requests (Client.deleteRangeRequest k (DeleteRangeCall.options char ds)) s := by
    intro s
    rw [requests_of_keyPart (WatchCall.keyPart_watch char k ws), hsame,
      DeleteRangeCall.deleteRangeRequest_options]
    rfl
  have hevent : ∀ e ∈ events, ∃ kv ∈ m.next.requested
      (Client.deleteRangeRequest k (DeleteRangeCall.options char ds)), m.next.deleted kv = e :=
    fun e he => List.mem_map.mp (hperm.subset he)
  have hkeys : (events.map fun e => e.kv.key).Perm ((m.next.requested
      (Client.deleteRangeRequest k (DeleteRangeCall.options char ds))).map KeyValue.key) := by
    have hmap := hperm.map fun e => e.kv.key
    rwa [List.map_map] at hmap
  refine ⟨rsp, events, hr, hlog, ?_, ?_, ?_, ?_, ?_⟩
  · rw [hdel.deleted, hperm.length_eq, List.length_map]
    rfl
  · intro e he
    obtain ⟨kv, -, rfl⟩ := hevent e he
    rw [hdel.header]
    exact ⟨rfl, rfl⟩
  · rw [hkeys.nodup_iff]
    exact m.store.nodup.sublist (List.filter_sublist.map _)
  · intro key
    show _ ↔ m.next.store.get key ≠ none ∧ w.store.get key = none
    rw [← gone_iff hdel.deletes, ← List.mem_map]
    exact hkeys.mem_iff
  · by_cases hno : .withNoDelete ∈ ws
    · rw [if_pos hno, List.filter_eq_nil_iff]
      intro e he hcarries
      obtain ⟨kv, -, rfl⟩ := hevent e he
      have hdrops := (WatchCreateRequest.carries_iff.mp hcarries).2.2
      rw [WatchCall.filters_watch] at hdrops
      exact drops_delete_iff.mp hdrops hno
    · rw [if_neg hno, List.filter_eq_self]
      intro e he
      obtain ⟨kv, hkv, rfl⟩ := hevent e he
      rw [WatchCreateRequest.carries_iff, WatchCall.filters_watch]
      refine ⟨hsince, (hreq _).mpr ?_, drops_delete_iff.mpr hno⟩
      exact of_decide_eq_true (List.mem_filter.mp hkv).2

/-- `Election::Watch`'s options for a leader that goes, over the deletion of
the whole prefix. -/
theorem delete_range_seen_prefix :
    ∃ r w events, sampleServer.apply (.deleteRange (Client.deleteRangeRequest [0x61]
        (DeleteRangeCall.options .signed [.key .withPrefix]))) keyAB = some (r, w) ∧
      w.log = keyAB.log ++ events ∧
      events.filter ((Client.watchSingleRequest [0x61] (WatchCall.options .signed
        [.key .withPrefix, .withStartRevision 2, .withNoPut])).carries 2) = events := by
  have hsame : WatchCall.keyCalls [.key .withPrefix, .withStartRevision 2, .withNoPut]
      = DeleteRangeCall.keyCalls [.key .withPrefix] := rfl
  have hsince : (2 : Int) ≤ keyAB.revision + 1 := by decide
  obtain ⟨hseen, haccepts⟩ := @delete_range_seen .signed [0x61] _ _ _ hsame _ hsince
  obtain ⟨⟨r, w⟩, happly⟩ := haccepts (by decide)
  obtain ⟨rsp, events, -, hlog, -, -, -, -, hall⟩ := hseen sampleServer r w happly
  rw [if_neg (by decide)] at hall
  exact ⟨r, w, events, happly, hlog, hall⟩

/-! ## Put -/

namespace PutCall

/-- Something of the key's entry is kept. -/
def ignores (cs : List PutCall) : Bool :=
  cs.any (· == .withIgnoreValue) || cs.any (· == .withIgnoreLease)

/-- The lease asked for last. -/
def lastLease (cs : List PutCall) : Int := (cs.filterMap lease).getLastD 0

end PutCall

/-- The entry that a put of a chain leaves, made at a revision. -/
def Store.putEntry (store : Store) (revision : Int) (k v : Bytes) (ps : List PutCall) : KeyValue :=
  match store.get k with
  | none =>
      { key := k, createRevision := revision, modRevision := revision, version := 1, value := v,
        lease := PutCall.lastLease ps }
  | some prev =>
      { key := k, createRevision := prev.createRevision, modRevision := revision,
        version := prev.version + 1
        value := if .withIgnoreValue ∈ ps then prev.value else v
        lease := if .withIgnoreLease ∈ ps then prev.lease else PutCall.lastLease ps }

theorem written_options (m : Mvcc) (k v : Bytes) (ps : List PutCall) :
    m.written (Client.putRequest k v (PutCall.options ps))
      = m.store.putEntry m.revision k v ps := by
  rw [PutCall.putRequest_options]
  unfold Mvcc.written Store.putEntry
  cases hget : m.store.get k with
  | none => simp [PutCall.lastLease]
  | some prev => simp [PutCall.lastLease]

theorem Server.apply_put {S : Server} {m w : Mvcc} {req : PutRequest} {r : ResponseOp}
    (h : S.apply (.put req) m = some (r, w)) : ∃ rsp, r = .put rsp ∧ m.next.Put req rsp w := by
  have hrun := (Option.filter_eq_some_iff.mp h).1
  obtain ⟨⟨rsp, s⟩, hput, heq⟩ := Option.map_eq_some_iff.mp hrun
  cases heq
  exact ⟨rsp, rfl, S.put_puts hput⟩

/-- A range without options returns the entry of its key. -/
theorem Mvcc.Reads.single {m : Mvcc} {k : Bytes} {rsp : RangeResponse}
    (h : m.Reads (Client.rangeRequest k {}) rsp) {kv : KeyValue} (hget : m.store.get k = some kv) :
    rsp.kvs = [kv] := by
  have hperm := (h.answers rfl).perm rfl
  have hreq : ∀ s, Requests (Client.rangeRequest k {}) s ↔ s = k := by
    intro s
    simp [Requests, Selects, Client.rangeRequest, KeyRange.key, KeyRange.rangeEnd]
  obtain ⟨hmem, hkey⟩ := Store.get_eq_some_iff.mp hget
  have hone : ∀ kv', kv' ∈ rsp.kvs ↔ kv' = kv := by
    intro kv'
    rw [hperm.mem_iff, List.mem_filter, decide_eq_true_iff, hreq]
    constructor
    · rintro ⟨hmem', hkey'⟩
      exact Store.eq_of_key hmem' hmem (hkey'.trans hkey.symm)
    · intro heq
      rw [heq]
      exact ⟨hmem, hkey⟩
  have hnodup : rsp.kvs.Nodup :=
    hperm.nodup_iff.mpr ((List.Nodup.of_map _ m.store.nodup).filter _)
  exact List.perm_singleton.mp
    ((List.perm_ext_iff_of_nodup hnodup (List.nodup_singleton kv)).mpr (by simpa using hone))

/-- **What is put is returned.** Where a server accepts a `Put` with any
chain of options, the key is not empty, and it exists if its value or lease
is kept. The response has the revision it made, and the previous entry where
`WithPrevKV` asks for it; a `Range` of the key then returns the entry that
the chain says, as the only one; and every other key has the entry it
had. -/
theorem put_then_range {S : Server} {m w : Mvcc} {k v : Bytes} {ps : List PutCall}
    {r : ResponseOp}
    (h : S.apply (.put (Client.putRequest k v (PutCall.options ps))) m = some (r, w)) :
    (k ≠ [] ∧ (PutCall.ignores ps = true → m.store.get k ≠ none)) ∧
    (∃ rsp, r = .put rsp ∧ rsp.header.revision = m.revision + 1 ∧
      rsp.prevKv = if .withPrevKV ∈ ps then m.store.get k else none) ∧
    (∀ rsp, w.Reads (Client.rangeRequest k {}) rsp →
      rsp.kvs = [m.store.putEntry (m.revision + 1) k v ps]) ∧
    ∀ key, key ≠ k → w.store.get key = m.store.get key := by
  obtain ⟨rsp, hr, hput⟩ := Server.apply_put h
  have hwritten := written_options m.next k v ps
  have hkey : (Client.putRequest k v (PutCall.options ps)).key = k := by
    rw [PutCall.putRequest_options]
  have hcontent := hput.content
  rw [hkey, hwritten] at hcontent
  refine ⟨⟨hkey ▸ hput.key_ne_nil, ?_⟩, ⟨rsp, hr, ?_, ?_⟩, ?_, ?_⟩
  · intro hignores
    have hexist := hput.exist
    rw [PutCall.putRequest_options] at hexist
    exact hexist hignores
  · rw [hput.header]
    rfl
  · rw [hput.prevKv, hkey, PutCall.putRequest_options]
    simp [Mvcc.next]
  · intro rsp' hreads
    refine hreads.single ?_
    rw [hcontent, Function.update_self]
    rfl
  · intro key hne
    rw [hcontent, Function.update_of_ne hne]
    rfl

/-- `"ab"` gets another value and keeps the lease that it has, none. -/
theorem put_then_range_kept :
    ∃ r w, sampleServer.apply (.put (Client.putRequest [0x61, 0x62] [0x31]
        (PutCall.options [.withLease 7, .withIgnoreLease]))) keyAB = some (r, w) ∧
      ∀ rsp, w.Reads (Client.rangeRequest [0x61, 0x62] {}) rsp →
        rsp.kvs =
          [{ key := [0x61, 0x62], createRevision := 1, modRevision := 2, version := 2,
             value := [0x31] }] := by
  have hsome : (sampleServer.apply (.put (Client.putRequest [0x61, 0x62] [0x31]
      (PutCall.options [.withLease 7, .withIgnoreLease]))) keyAB).isSome = true := by
    decide +kernel
  obtain ⟨⟨r, w⟩, happly⟩ := Option.isSome_iff_exists.mp hsome
  exact ⟨r, w, happly, (put_then_range happly).2.2.1⟩

end Etcdv3Client
