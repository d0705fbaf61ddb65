import Etcdv3Client.StoreCalls

/-!
# The events tell the store

Each event leaves an entry under its key, or takes it away, and nothing
else changes a store. A range and a watch of the same keys therefore follow
it, as long as the history is not compacted past the range.
-/

namespace Etcdv3Client

open Journal LastWriter Transition

/-- The content that a reply shows. -/
def contentOf (kvs : List KeyValue) (key : Bytes) : Option KeyValue :=
  kvs.find? fun kv => kv.key == key

/-- A range that is not cut shows the keys it selects. -/
theorem Store.Answers.content {store : Store} {req : RangeRequest} {kvs : List KeyValue}
    (h : store.Answers req kvs) (hcut : req.cutAt = none) :
    contentOf kvs = restrict (fun key => decide (Requests req key)) store.get := by
  have hperm := h.perm hcut
  have hmem : ∀ kv, kv ∈ kvs ↔ kv ∈ store.kvs ∧ Requests req kv.key := by
    intro kv
    rw [hperm.mem_iff, List.mem_filter, decide_eq_true_iff]
  have hnodup : (kvs.map KeyValue.key).Nodup :=
    (hperm.map _).nodup_iff.mpr (store.nodup.sublist (List.filter_sublist.map _))
  let shown : Store := ⟨kvs, fun kv hkv => store.nonempty kv ((hmem kv).mp hkv).1, hnodup⟩
  ext key kv
  show shown.get key = some kv ↔ (if decide (Requests req key) then store.get key else none) = _
  rw [Store.get_eq_some_iff, hmem]
  by_cases hreq : Requests req key
  · rw [if_pos (decide_eq_true hreq), Store.get_eq_some_iff]
    constructor
    · intro ⟨⟨hkv, _⟩, hkey⟩
      exact ⟨hkv, hkey⟩
    · intro ⟨hkv, hkey⟩
      exact ⟨⟨hkv, hkey ▸ hreq⟩, hkey⟩
  · rw [if_neg (by simpa using hreq)]
    constructor
    · intro ⟨⟨_, hreq'⟩, hkey⟩
      exact absurd (hkey ▸ hreq') hreq
    · intro hnone
      cases hnone

/-- Where neither `WithNoPut` nor `WithNoDelete` is called, a watcher is sent
the events of its keys. -/
theorem carries_unfiltered {char : PlainChar} {k : Bytes} {ws : List WatchCall}
    (hput : .withNoPut ∉ ws) (hdelete : .withNoDelete ∉ ws) (since : Int) (e : Event) :
    (Client.watchSingleRequest k (WatchCall.options char ws)).carries since e
      = (decide (since ≤ e.kv.modRevision) && decide
          (Requests (Client.watchSingleRequest k (WatchCall.options char ws)) e.kv.key)) := by
  have hnil : ws.filterMap WatchCall.filter = [] := by
    rw [List.filterMap_eq_nil_iff]
    intro c hc
    cases c with
    | withNoPut => exact absurd hc hput
    | withNoDelete => exact absurd hc hdelete
    | _ => rfl
  rw [WatchCreateRequest.carries, WatchCall.filters_watch, hnil]
  simp

/-- The events after `m` and up to `s`, in the history of a later time. -/
theorem Mvcc.events_between {m s w : Mvcc} {es es' : List Event} (hm : m.Wf) (hs : s.Wf)
    (hms : Later m s es) (hsw : Later s w es') (sel : Bytes → Bool) :
    (w.log.filter fun e => (decide (m.revision + 1 ≤ e.kv.modRevision) && sel e.kv.key) &&
        decide (e.kv.modRevision ≤ s.revision))
      = es.filter fun e => sel e.kv.key := by
  have hbefore : (m.log.filter fun e => (decide (m.revision + 1 ≤ e.kv.modRevision) &&
      sel e.kv.key) && decide (e.kv.modRevision ≤ s.revision)) = [] := by
    rw [List.filter_eq_nil_iff]
    intro e he
    have hold := (hm.events e he).2.2
    simp
    omega
  have hafter : (es'.filter fun e => (decide (m.revision + 1 ≤ e.kv.modRevision) &&
      sel e.kv.key) && decide (e.kv.modRevision ≤ s.revision)) = [] := by
    rw [List.filter_eq_nil_iff]
    intro e he
    have hlate := hsw.newer e he
    simp
    omega
  have hbetween : ∀ e ∈ es, ((decide (m.revision + 1 ≤ e.kv.modRevision) && sel e.kv.key) &&
      decide (e.kv.modRevision ≤ s.revision)) = sel e.kv.key := by
    intro e he
    have hlow := hms.newer e he
    have hhigh := (hs.events e (hms.log ▸ List.mem_append_right _ he)).2.2
    rw [decide_eq_true (by omega), decide_eq_true hhigh, Bool.true_and, Bool.and_true]
  rw [hsw.log, hms.log, List.filter_append, List.filter_append, hbefore, hafter, List.nil_append,
    List.append_nil]
  exact List.filter_congr hbetween

/-- A watcher that asks for events which are not compacted is sent all. -/
theorem Watcher.pending_create {created w : Mvcc} {es : List Event} {req : WatchCreateRequest}
    (hlater : Mvcc.Later created w es) (hstart : req.startRevision ≠ 0)
    (hcompacted : w.compacted ≤ req.startRevision) :
    (({ req := req } : Watcher).create created).pending w req.startRevision
      = w.log.filter (req.carries req.startRevision) := by
  have hfrom : startsAt created req = req.startRevision := if_neg hstart
  have hcanceled : (({ req := req } : Watcher).create created).canceled = false := by
    have hle := hlater.compacted
    rw [create, hfrom]
    exact decide_eq_false (by omega)
  rw [pending, hcanceled]
  rfl

/-- **A range and a watch follow the store.** A chain of `RangeOptions`
calls that chooses keys and an order only is replied to, and a chain of
`WatchOptions` calls that chooses keys alike asks last to start at the
revision after that of the reply. Whatever is committed before, while and
after the watcher is created, as long as the history is not compacted past
that revision: the events that are sent to it up to any revision, written
over the entries of the reply, give for the chosen keys the content of the
store at that revision, and nothing for any other key. -/
theorem range_then_watch {S : Server} {char : PlainChar} {k : Bytes}
    {rs : List RangeCall} {ws : List WatchCall}
    (hsame : RangeCall.keyCalls rs = WatchCall.keyCalls ws) (hplain : RangeCall.Plain rs)
    (hput : .withNoPut ∉ ws) (hdelete : .withNoDelete ∉ ws) {m s w created : Mvcc} (hm : m.Wf)
    {rsp : RangeResponse}
    (hreads : m.Reads (Client.rangeRequest k (RangeCall.options char rs)) rsp)
    (hstart : (ws.filterMap WatchCall.startRevision).getLastD 0 = rsp.header.revision + 1)
    {h h' h'' : History Mvcc Commit} (hms : S.Commits m h s) (hsw : S.Commits s h' w)
    (hcw : S.Commits created h'' w) (hcompacted : w.compacted ≤ rsp.header.revision + 1) :
    let req := Client.watchSingleRequest k (WatchCall.options char ws)
    let watcher := ({ req := req } : Watcher).create created
    afterEvents (contentOf rsp.kvs) ((watcher.pending w (startsAt created req)).filter fun e =>
        decide (e.kv.modRevision ≤ s.revision))
      = restrict (fun key => decide (Requests (Client.rangeRequest k (RangeCall.options char rs))
          key)) s.store.get := by
  intro req watcher
  have hheader : rsp.header.revision = m.revision := congrArg ResponseHeader.revision hreads.header
  have hpos := hm.positive
  have hlast : req.startRevision = m.revision + 1 := by
    rw [WatchCall.startRevision_watch char k ws, hstart, hheader]
  have hfrom : startsAt created req = req.startRevision := if_neg (by omega)
  have hreq : ∀ key, Requests req key ↔
      Requests (Client.rangeRequest k (RangeCall.options char rs)) key := by
    intro key
    rw [requests_of_keyPart (WatchCall.keyPart_watch char k ws), ← hsame,
      requests_of_keyPart (keyPart_range char k rs)]
  obtain ⟨es, hlater⟩ := hms.later
  obtain ⟨es', hlater'⟩ := hsw.later
  obtain ⟨es'', hlater''⟩ := hcw.later
  have hsent := Mvcc.events_between hm (hms.wf hm) hlater hlater'
    fun key => decide (Requests req key)
  have hcarries : ∀ e, req.carries (m.revision + 1) e = _ := carries_unfiltered hput hdelete _
  have hans := hreads.answers_of_plain hplain
  rw [hfrom, Watcher.pending_create hlater'' (by omega) (by omega), List.filter_filter]
  simp only [hlast, hcarries, Bool.and_comm (decide (_ ≤ s.revision))]
  rw [hsent, hans.content (cutAt_of_plain char k hplain), hlater.content]
  simp only [hreq]
  exact play_restrict _ _ _ _ _

/-- The keys under `"a"`, from revision 2 on. -/
def underA : WatchCreateRequest :=
  Client.watchSingleRequest [0x61]
    (WatchCall.options .signed [.key .withPrefix, .withStartRevision 2, .withPrevKV])

/-- They are followed while `"ac"` is put, the history before that is
compacted, and `"ab"` is deleted. -/
theorem range_then_watch_two :
    ∃ (rsp : RangeResponse) (w : Mvcc), w.log.length = 2 ∧ w.compacted = 2 ∧
      afterEvents (contentOf rsp.kvs) (((({ req := underA } : Watcher).create keyAB).pending w
          (startsAt keyAB underA)).filter fun e => decide (e.kv.modRevision ≤ w.revision))
        = restrict (fun key => decide (Requests (Client.rangeRequest [0x61]
            (RangeCall.options .signed [.setter .withPrefix])) key)) w.store.get := by
  have hscript : (exec sampleServer.step [] keyAB
      [.request (.put { key := [0x61, 0x63] }),
        .compact (Client.compactRequest 2 (CompactOptions.withPhysical {})),
        .request (.deleteRange { key := [0x61, 0x62] })]).map
          (fun r => (r.2.log.length, r.2.compacted)) = some (2, 2) := by decide +kernel
  obtain ⟨⟨h, w⟩, hexec, hobs⟩ := Option.map_eq_some_iff.mp hscript
  obtain ⟨hlog, hcompacted⟩ := Prod.mk.inj hobs
  have hstart : sampleServer.Commits keyAB [] keyAB := .start rfl
  have hrun : sampleServer.Commits keyAB h w := hstart.exec hexec
  have hwf : keyAB.Wf := by
    refine ⟨by decide, by decide, ?_, ?_, .nil⟩
    · intro kv hkv
      cases List.mem_singleton.mp hkv
      decide
    · intro e he
      cases he
  have hreads := @Mvcc.range_reads
    (Client.rangeRequest [0x61] (RangeCall.options .signed [.setter .withPrefix])) keyAB _
    (if_pos (by decide))
  have hsame : RangeCall.keyCalls [.setter .withPrefix]
      = WatchCall.keyCalls [.key .withPrefix, .withStartRevision 2, .withPrevKV] := rfl
  exact ⟨_, w, hlog, hcompacted, range_then_watch hsame (by decide) (by decide) (by decide) hwf
    hreads rfl hrun (.start rfl) hrun hcompacted.le⟩

end Etcdv3Client
