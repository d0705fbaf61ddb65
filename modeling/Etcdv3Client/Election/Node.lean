import Etcdv3Client.KV
import Etcdv3Client.Lease

/-!
# election.h, and GetLeader of election.cc
-/

namespace Etcdv3Client

/-- `ElectionNode`. Its default constructor initialises no number, so there
is no default here. -/
structure ElectionNode where
  key : Bytes
  value : Bytes
  lease : Int
  version : Int
  createRevision : Int
  modRevision : Int
  currentRevision : Int
deriving DecidableEq, Repr

namespace ElectionNode

def isValid (node : ElectionNode) : Bool := node.lease != invalidLeaseID

/-- "Get the revision for watch leader change, this is actually the current
revision" -/
def watchRevision (node : ElectionNode) : Int := node.currentRevision

def setCurrentRevision (revision : Int) (node : ElectionNode) : ElectionNode :=
  { node with currentRevision := revision }

def setBykv (kv : KeyValue) (node : ElectionNode) : ElectionNode :=
  { node with
    key := kv.key
    value := kv.value
    lease := kv.lease
    version := kv.version
    createRevision := kv.createRevision
    modRevision := kv.modRevision }

/-- The node's members are those of `kv`. -/
def Holds (node : ElectionNode) (kv : KeyValue) : Prop := node = node.setBykv kv

instance (node : ElectionNode) (kv : KeyValue) : Decidable (node.Holds kv) :=
  inferInstanceAs (Decidable (node = node.setBykv kv))

theorem holds_setBykv (kv : KeyValue) (node : ElectionNode) : (node.setBykv kv).Holds kv := rfl

theorem Holds.setCurrentRevision {node : ElectionNode} {kv : KeyValue} (h : node.Holds kv)
    (revision : Int) : (node.setCurrentRevision revision).Holds kv := by
  unfold Holds at h ⊢
  rw [h]
  rfl

theorem Holds.createRevision {node : ElectionNode} {kv : KeyValue} (h : node.Holds kv) :
    node.createRevision = kv.createRevision :=
  congrArg ElectionNode.createRevision h

theorem Holds.lease {node : ElectionNode} {kv : KeyValue} (h : node.Holds kv) :
    node.lease = kv.lease :=
  congrArg ElectionNode.lease h

end ElectionNode

/-! ## GetLeader -/

/-- The request that `GetLeader` sends. -/
def leaderRequest (char : PlainChar) (keyPrefix : Bytes) : RangeRequest :=
  Client.rangeRequest keyPrefix (RangeOptions.withFirstCreate char {})

/-- What `GetLeader` does with the result of `Client::Range`: its status
and the node. -/
def getLeaderReply (node : ElectionNode) :
    Except GrpcCode RangeResponse → Status × ElectionNode
  | .error code => ({ code := .grpcError, value := some code }, node)
  | .ok response =>
      let node := node.setCurrentRevision response.header.revision
      match response.kvs with
      | [kv] => ({ value := some .ok }, node.setBykv kv)
      -- `response.kvs().size() != 1`
      | _ => ({ value := some .ok }, node)

/-- `ElectionImpl::GetLeader` over the stub's `Range`. -/
def getLeader (char : PlainChar) (stub : RangeRequest → Except GrpcCode RangeResponse)
    (keyPrefix : Bytes) (node : ElectionNode) : Status × ElectionNode :=
  getLeaderReply node (Client.range stub keyPrefix (RangeOptions.withFirstCreate char {}))

theorem getLeaderReply_isOk (node : ElectionNode) (r : Except GrpcCode RangeResponse) :
    (getLeaderReply node r).1.isOk = true ↔ ∃ response, r = .ok response := by
  cases r with
  | error code => simp [getLeaderReply, Status.isOk]
  | ok response =>
    refine iff_of_true ?_ ⟨response, rfl⟩
    unfold getLeaderReply
    dsimp only
    split <;> rfl

theorem getLeaderReply_single {response : RangeResponse} {kv : KeyValue} (node : ElectionNode)
    (h : response.kvs = [kv]) :
    (getLeaderReply node (.ok response)).2
      = (node.setCurrentRevision response.header.revision).setBykv kv := by
  simp [getLeaderReply, h]

/-- Without exactly one `KeyValue` in the reply the node keeps the last
leader's members. -/
theorem getLeaderReply_other {response : RangeResponse} (node : ElectionNode)
    (h : ∀ kv, response.kvs ≠ [kv]) :
    (getLeaderReply node (.ok response)).2
      = node.setCurrentRevision response.header.revision := by
  unfold getLeaderReply
  dsimp only
  split
  · rename_i kv hkv
    exact absurd hkv (h kv)
  · rfl

end Etcdv3Client
