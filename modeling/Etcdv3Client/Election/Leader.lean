import Etcdv3Client.Election.Node
import Etcdv3Client.PrefixRange
import Etcdv3Client.Store

/-!
# GetLeader and the first-created key

What an election's leader is in a store, what `GetLeader` should leave in
the node, and the exact prefixes and nodes for which it does.
-/

namespace Etcdv3Client

/-- A key of the election under `keyPrefix`. -/
def Store.Candidate (store : Store) (keyPrefix : Bytes) (kv : KeyValue) : Prop :=
  kv ∈ store.kvs ∧ keyPrefix <+: kv.key

/-- The node tells the leader of the election: it holds a first-created
candidate, it is invalid where there is none, and as long as it is valid
it reports no key of an election that does not overlap. -/
structure TellsLeader (store : Store) (keyPrefix : Bytes) (node : ElectionNode) : Prop where
  first : (∃ kv, store.Candidate keyPrefix kv) →
    ∃ kv, store.Candidate keyPrefix kv ∧ node.Holds kv ∧
      ∀ kv', store.Candidate keyPrefix kv' → kv.createRevision ≤ kv'.createRevision
  none : (∀ kv, ¬ store.Candidate keyPrefix kv) → node.isValid = false
  own : node.isValid = true → ∀ other, ¬ other <+: keyPrefix → ¬ keyPrefix <+: other →
    ¬ other <+: node.key

/-- `GetLeader` over any store, served as the comments allow, leaves a node
that tells the leader when it returns OK, and the node it was given when
the RPC fails. -/
def FindsLeader (char : PlainChar) (keyPrefix : Bytes) (node : ElectionNode) : Prop :=
  ∀ (store : Store) (stub : RangeRequest → Except GrpcCode RangeResponse), store.Serves stub →
    ((getLeader char stub keyPrefix node).1.isOk = true →
      TellsLeader store keyPrefix (getLeader char stub keyPrefix node).2) ∧
    (∀ code, stub (leaderRequest char keyPrefix) = .error code →
      (getLeader char stub keyPrefix node).2 = node)

theorem leaderRequest_requests (char : PlainChar) (keyPrefix s : Bytes) :
    Requests (leaderRequest char keyPrefix) s ↔
      Requests (setPrefix char ({ key := keyPrefix } : RangeRequest)) s := by
  rw [leaderRequest, rangeRequest_withFirstCreate]
  rfl

/-- A reply to `GetLeader`'s request has one selected key of least
`create_revision`, or nothing is selected. -/
theorem answers_leader {store : Store} {char : PlainChar} {keyPrefix : Bytes}
    {kvs : List KeyValue} (h : store.Answers (leaderRequest char keyPrefix) kvs) :
    (kvs = [] ∧ ∀ kv ∈ store.kvs, ¬ Requests (leaderRequest char keyPrefix) kv.key) ∨
      ∃ kv ∈ store.kvs, kvs = [kv] ∧ Requests (leaderRequest char keyPrefix) kv.key ∧
        ∀ kv' ∈ store.kvs, Requests (leaderRequest char keyPrefix) kv'.key →
          kv.createRevision ≤ kv'.createRevision := by
  have hcut : (leaderRequest char keyPrefix).cutAt = some 1 := by
    rw [leaderRequest, rangeRequest_withFirstCreate]
    rfl
  have hbefore : ∀ a b, (leaderRequest char keyPrefix).before a b = true ↔
      a.createRevision ≤ b.createRevision := by
    intro a b
    rw [leaderRequest, rangeRequest_withFirstCreate]
    exact decide_eq_true_iff
  unfold Store.Answers at h
  rw [hcut] at h
  rcases h.first (RangeRequest.before_refl _) with hnone | ⟨kv, hkv, hout, hsel, hle⟩
  · exact Or.inl hnone
  · refine Or.inr ⟨kv, hkv, hout, hsel, ?_⟩
    intro kv' hkv' hsel'
    exact (hbefore kv kv').mp (hle kv' hkv' hsel')

/-- With an exact prefix and no stale lease the node tells the leader. -/
theorem tellsLeader_of_exact {char : PlainChar} {keyPrefix : Bytes} {node : ElectionNode}
    {store : Store} {response : RangeResponse}
    (hexact : PrefixExact (setPrefix char ({ key := keyPrefix } : RangeRequest)) keyPrefix)
    (hlease : node.lease = invalidLeaseID)
    (hans : store.Answers (leaderRequest char keyPrefix) response.kvs) :
    TellsLeader store keyPrefix (getLeaderReply node (.ok response)).2 := by
  have hsel : ∀ kv ∈ store.kvs,
      (Requests (leaderRequest char keyPrefix) kv.key ↔ keyPrefix <+: kv.key) := fun kv hkv =>
    (leaderRequest_requests char keyPrefix kv.key).trans (hexact kv.key (store.nonempty kv hkv))
  rcases answers_leader hans with ⟨hnil, hno⟩ | ⟨kv, hkv, hone, hreq, hle⟩
  · have hnone : ∀ kv, ¬ store.Candidate keyPrefix kv :=
      fun kv hc => hno kv hc.1 ((hsel kv hc.1).mpr hc.2)
    rw [getLeaderReply_other node (by simp [hnil])]
    have hinvalid : (node.setCurrentRevision response.header.revision).isValid = false := by
      simp [ElectionNode.isValid, ElectionNode.setCurrentRevision, hlease]
    refine ⟨fun ⟨kv, hc⟩ => absurd hc (hnone kv), fun _ => hinvalid, fun hvalid => ?_⟩
    simp [hinvalid] at hvalid
  · have hc : store.Candidate keyPrefix kv := ⟨hkv, (hsel kv hkv).mp hreq⟩
    rw [getLeaderReply_single node hone]
    refine ⟨fun _ => ⟨kv, hc, ElectionNode.holds_setBykv _ _, ?_⟩,
      fun hnone => absurd hc (hnone kv), fun _ other hno hno' hother => ?_⟩
    · intro kv' hc'
      exact hle kv' hc'.1 ((hsel kv' hc'.1).mpr hc'.2)
    · -- two prefixes of one key are comparable
      rcases List.prefix_or_prefix_of_prefix hother hc.2 with h | h
      · exact hno h
      · exact hno' h

/-- Over each store there is a reply for which the node tells the leader. -/
theorem FindsLeader.exists_reply {char : PlainChar} {keyPrefix : Bytes} {node : ElectionNode}
    (h : FindsLeader char keyPrefix node) (store : Store) :
    ∃ response : RangeResponse, store.Answers (leaderRequest char keyPrefix) response.kvs ∧
      TellsLeader store keyPrefix (getLeaderReply node (.ok response)).2 := by
  have hserves := store.serves_stub
  refine ⟨_, hserves (leaderRequest char keyPrefix) _ rfl, (h store store.stub hserves).1 ?_⟩
  exact (getLeaderReply_isOk node _).mpr ⟨_, rfl⟩

/-- A node with a lease is taken for the leader of an empty store. -/
theorem FindsLeader.lease {char : PlainChar} {keyPrefix : Bytes} {node : ElectionNode}
    (h : FindsLeader char keyPrefix node) : node.lease = invalidLeaseID := by
  obtain ⟨response, hans, htells⟩ := h.exists_reply Store.empty
  have hinvalid := htells.none fun kv hc => List.not_mem_nil hc.1
  rcases answers_leader hans with ⟨hnil, -⟩ | ⟨kv, hkv, -⟩
  · rw [getLeaderReply_other node (by simp [hnil])] at hinvalid
    simpa [ElectionNode.isValid, ElectionNode.setCurrentRevision] using hinvalid
  · exact absurd hkv List.not_mem_nil

/-- A foreign key that is selected is reported, and a candidate that is not
selected is not. -/
theorem FindsLeader.prefixExact {char : PlainChar} {keyPrefix : Bytes} {node : ElectionNode}
    (h : FindsLeader char keyPrefix node) :
    PrefixExact (setPrefix char ({ key := keyPrefix } : RangeRequest)) keyPrefix := by
  intro s hs
  rw [← leaderRequest_requests]
  constructor
  · intro hreq
    by_contra hforeign
    obtain ⟨response, hans, htells⟩ :=
      h.exists_reply (Store.single { key := s, lease := 1 } hs)
    have hinvalid := htells.none fun kv hc => by
      cases List.mem_singleton.mp hc.1
      exact hforeign hc.2
    rcases answers_leader hans with ⟨-, hno⟩ | ⟨kv, hkv, hone, -⟩
    · exact hno _ (List.mem_singleton.mpr rfl) hreq
    · cases List.mem_singleton.mp hkv
      rw [getLeaderReply_single node hone] at hinvalid
      cases hinvalid
  · intro hpre
    by_contra hmissed
    obtain ⟨response, hans, htells⟩ :=
      h.exists_reply (Store.single { key := s, createRevision := node.createRevision + 1 } hs)
    obtain ⟨kv, hc, hholds, -⟩ := htells.first ⟨_, List.mem_singleton.mpr rfl, hpre⟩
    cases List.mem_singleton.mp hc.1
    rcases answers_leader hans with ⟨hnil, -⟩ | ⟨kv, hkv, -, hreq, -⟩
    · rw [getLeaderReply_other node (by simp [hnil])] at hholds
      have hcreate : node.createRevision = node.createRevision + 1 := hholds.createRevision
      omega
    · cases List.mem_singleton.mp hkv
      exact hmissed hreq

/-- **GetLeader finds the first-created key of its own election**, over
every store, if and only if the node it is given carries no lease and the
prefix is one that `WithPrefix` selects exactly. -/
theorem getLeader_finds_iff (char : PlainChar) (keyPrefix : Bytes) (node : ElectionNode) :
    FindsLeader char keyPrefix node ↔
      node.lease = invalidLeaseID ∧ ExactKey char keyPrefix := by
  have hiff : PrefixExact (setPrefix char ({ key := keyPrefix } : RangeRequest)) keyPrefix ↔
      ExactKey char keyPrefix := prefixExact_setPrefix_iff char rfl
  constructor
  · intro h
    exact ⟨h.lease, hiff.mp h.prefixExact⟩
  · intro ⟨hlease, hexact⟩ store stub hserves
    constructor
    · intro hok
      obtain ⟨response, hresponse⟩ := (getLeaderReply_isOk node _).mp hok
      have htells := tellsLeader_of_exact (hiff.mpr hexact) hlease
        (hserves (leaderRequest char keyPrefix) response hresponse)
      rw [getLeader, hresponse]
      exact htells
    · intro code herror
      have hrange : Client.range stub keyPrefix (RangeOptions.withFirstCreate char {})
          = .error code := herror
      rw [getLeader, hrange]
      rfl

/-- The election `"ab"` in a store with the one key `"b"` (plain `char`
signed) or `"ac"` (unsigned), and the election `"a"` of an empty store with
a node that last held lease 7. -/
theorem getLeader_reports_foreign :
    ¬ FindsLeader .signed [0x61, 0x62] ⟨[], [], 0, 0, 0, 0, 0⟩ ∧
    ¬ FindsLeader .unsigned [0x61, 0x62] ⟨[], [], 0, 0, 0, 0, 0⟩ ∧
    ¬ FindsLeader .unsigned [0x61] ⟨[0x61], [], 7, 1, 3, 3, 3⟩ := by
  refine ⟨fun h => ?_, fun h => ?_, fun h => ?_⟩
  · have htells := (h (Store.single { key := [0x62], lease := 1 } (by decide)) _
      (Store.serves_stub _)).1 (by decide +kernel)
    exact absurd (htells.none fun kv hc => by
      cases List.mem_singleton.mp hc.1
      exact absurd hc.2 (by decide)) (by decide +kernel)
  · have htells := (h (Store.single { key := [0x61, 0x63], lease := 1 } (by decide)) _
      (Store.serves_stub _)).1 (by decide +kernel)
    exact absurd (htells.none fun kv hc => by
      cases List.mem_singleton.mp hc.1
      exact absurd hc.2 (by decide)) (by decide +kernel)
  · have htells := (h Store.empty _ (Store.serves_stub _)).1 (by decide +kernel)
    exact absurd (htells.none fun kv hc => absurd hc.1 List.not_mem_nil) (by decide +kernel)

end Etcdv3Client
