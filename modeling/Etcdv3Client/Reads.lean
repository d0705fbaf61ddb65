import Etcdv3Client.PrefixRange
import Etcdv3Client.StoreCalls

/-!
# Ranges at a revision

What a `RangeRequest` is replied with, with all its fields: at an older
revision that is not compacted, without the keys that bounds on revisions
filter away, and with keys only or only counted. The chains of calls that
ask for the newest revision, for one key, and again for what was there.
-/

namespace Etcdv3Client

open LastWriter Transition

/-! ## What was, stays -/

/-- At a later time the content of the revision is what it was, by the
history. -/
theorem Mvcc.contentAt_later {m w : Mvcc} {past events : List Event} (h : Later empty m past)
    (hm : m.Wf) (hw : w.Wf) (hlater : Later m w events) : w.contentAt m.revision = m.store.get := by
  unfold contentAt
  by_cases hsame : m.revision = w.revision
  · -- an event would have a newer revision
    have hnil : events = [] := by
      rw [List.eq_nil_iff_forall_not_mem]
      intro e he
      have hnew := hlater.newer e he
      have hle := (hw.events e (hlater.log ▸ List.mem_append_right _ he)).2.2
      omega
    rw [if_pos hsame, hlater.content, hnil]
    rfl
  · have hold : m.log.filter (fun e => decide (e.kv.modRevision ≤ m.revision)) = m.log := by
      rw [List.filter_eq_self]
      intro e he
      exact decide_eq_true (hm.events e he).2.2
    have hnew : events.filter (fun e => decide (e.kv.modRevision ≤ m.revision)) = [] := by
      rw [List.filter_eq_nil_iff]
      intro e he
      have hlate := hlater.newer e he
      simp
      omega
    rw [if_neg hsame, hlater.log, List.filter_append, hold, hnew, List.append_nil, h.content, h.log]
    rfl

namespace RangeSetter

/-- The revision that the call asks for. -/
def revision : RangeSetter → Option Int
  | .withRevision revision => some revision
  | _ => none

theorem revision_set (char : PlainChar) (c : RangeSetter) (req : RangeRequest) :
    (c.set char req).revision = c.revision.elim req.revision fun t => t := by
  cases c with
  | withPrefix => exact withPrefix_frame char req fun _ _ _ => rfl
  | _ => rfl

end RangeSetter

theorem revision_range (char : PlainChar) (k : Bytes) (rs : List RangeCall) :
    (Client.rangeRequest k (RangeCall.options char rs)).revision
      = ((RangeCall.expandAll rs).filterMap RangeSetter.revision).getLastD 0 := by
  rw [RangeCall.rangeRequest_options]
  exact last_foldl (RangeSetter.revision_set char) _ _

theorem rangeRequest_withRevision (char : PlainChar) (k : Bytes) (rs : List RangeCall)
    (revision : Int) :
    Client.rangeRequest k
        (RangeCall.options char (rs ++ [.setter (.withRevision revision)]))
      = { Client.rangeRequest k (RangeCall.options char rs) with revision := revision } := by
  have hexpand : RangeCall.expandAll (rs ++ [.setter (.withRevision revision)])
      = RangeCall.expandAll rs ++ [.withRevision revision] := by
    simp [RangeCall.expandAll, RangeCall.expand]
  rw [RangeCall.rangeRequest_options, RangeCall.rangeRequest_options, hexpand, List.foldl_append]
  rfl

/-- **A range can be read again.** A chain of `RangeOptions` calls that asks
for the newest revision, whatever else it asks for. With `WithRevision` of
the revision in the header of its reply called after it, the same key and
chain have at any later time exactly the replies that they had, their counts
too, whatever was put, deleted and expired since, as long as that revision
is not compacted. Where the chain asks for keys, an order and a limit only,
these are the answers of the store as it was, and whether it had more. -/
theorem range_again {S : Server} {char : PlainChar} {k : Bytes} {rs : List RangeCall}
    (hnewest : ((RangeCall.expandAll rs).filterMap RangeSetter.revision).getLastD 0 ≤ 0)
    {m w : Mvcc} {h h' : History Mvcc Commit} (hm : S.Commits Mvcc.empty h m)
    (hw : S.Commits m h' w) (hcompacted : w.compacted ≤ m.header.revision) (rsp : RangeResponse) :
    (w.Reads (Client.rangeRequest k (RangeCall.options char
        (rs ++ [.setter (.withRevision m.header.revision)]))) { rsp with header := w.header } ↔
      m.Reads (Client.rangeRequest k (RangeCall.options char rs)) { rsp with header := m.header }) ∧
    ((∀ c ∈ RangeCall.expandAll rs, c.unfiltered = true) →
      (m.Reads (Client.rangeRequest k (RangeCall.options char rs)) { rsp with header := m.header } ↔
        m.store.Answers (Client.rangeRequest k (RangeCall.options char rs)) rsp.kvs ∧
        (rsp.more = true ↔ rsp.kvs.length < m.store.kvs.countP fun kv =>
          decide (Requests (Client.rangeRequest k (RangeCall.options char rs)) kv.key)))) := by
  have hwf := hm.wf Mvcc.wf_empty
  have hwf' := hw.wf hwf
  obtain ⟨past, hpast⟩ := hm.later
  obtain ⟨events, hlater⟩ := hw.later
  have hpos := hwf.positive
  have hle := hlater.revision
  rw [← revision_range char k] at hnewest
  have hnow : m.Reads (Client.rangeRequest k (RangeCall.options char rs))
      { rsp with header := m.header } ↔
        m.store.Replies (Client.rangeRequest k (RangeCall.options char rs)) rsp := by
    rw [Mvcc.reads_newest hnewest]
    constructor
    · exact fun hreads => hreads.2.2
    · exact fun hreplies => ⟨rfl, hwf.compacted, hreplies⟩
  constructor
  · have hpoint : RangeRequest.pointInTime
        { Client.rangeRequest k (RangeCall.options char rs) with revision := m.header.revision }
        w.revision = m.revision := if_neg (by show ¬ m.revision ≤ 0; omega)
    have hcontent := Mvcc.contentAt_later hpast hwf hwf' hlater
    rw [hnow, rangeRequest_withRevision]
    constructor
    · intro hreads
      obtain ⟨rows, hrows, hreplies⟩ := hreads.reply
      rw [hpoint, hcontent] at hrows
      exact hreplies.of_get hrows
    · intro hreplies
      refine ⟨rfl, ?_, ?_, m.store, ?_, hreplies⟩
      · rw [hpoint]
        exact hcompacted
      · rw [hpoint]
        exact hle
      · rw [hpoint, hcontent]
  · intro hunfiltered
    rw [hnow, Store.replies_iff (narrows_unfiltered char k hunfiltered)]

/-- `"ab"` is put, and read again after it was deleted and the history before
that compacted. -/
theorem range_again_deleted :
    ∃ (w : Mvcc) (rsp : RangeResponse), w.compacted = 2 ∧ w.store.get [0x61, 0x62] = none ∧
      w.Reads (Client.rangeRequest [0x61] (RangeCall.options .signed
        ([.setter .withPrefix, .setter .withSortByMod] ++ [.setter (.withRevision 2)])))
        { rsp with header := w.header } ∧
      rsp.kvs =
        [{ key := [0x61, 0x62], createRevision := 2, modRevision := 2, version := 1 }] := by
  let rs : List RangeCall := [.setter .withPrefix, .setter .withSortByMod]
  have hscript : ((exec sampleServer.step [] Mvcc.empty
      [.request (.put { key := [0x61, 0x62] })]).bind fun r =>
        (exec sampleServer.step [] r.2
          [.request (.deleteRange { key := [0x61, 0x62] }),
            .compact (Client.compactRequest 2 {})]).map fun r' =>
          (r.2.revision, r'.2.compacted, r'.2.store.get [0x61, 0x62],
            (Mvcc.range (Client.rangeRequest [0x61] (RangeCall.options .signed rs)) r.2).map
              fun rsp => rsp.kvs))
      = some (2, 2, none, some
          [{ key := [0x61, 0x62], createRevision := 2, modRevision := 2, version := 1 }]) := by
    decide +kernel
  obtain ⟨⟨h, m⟩, hm, hrest⟩ := Option.bind_eq_some_iff.mp hscript
  obtain ⟨⟨h', w⟩, hw, hobs⟩ := Option.map_eq_some_iff.mp hrest
  simp only [Prod.mk.injEq, Option.map_eq_some_iff] at hobs
  obtain ⟨hrevision, hcompacted, hgone, rsp, hrange, hkvs⟩ := hobs
  have hstart : sampleServer.Commits Mvcc.empty [] Mvcc.empty := .start rfl
  have hthen : sampleServer.Commits m [] m := .start rfl
  have hreads := Mvcc.range_reads hrange
  have hheader : m.header.revision = 2 := hrevision
  obtain ⟨hagain, -⟩ := @range_again sampleServer .signed [0x61] rs (by decide) m w h h'
    (hstart.exec hm) (hthen.exec hw) (by rw [hcompacted, hheader]) rsp
  rw [hheader] at hagain
  refine ⟨w, rsp, hcompacted, hgone, hagain.mpr ?_, hkvs⟩
  rw [← hreads.header]
  exact hreads

/-! ## The first and the last key -/

namespace RangeCall

end RangeCall

end Etcdv3Client
