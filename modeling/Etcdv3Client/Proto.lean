import Etcdv3Client.Lib.PrefixBlock

/-!
# The messages of rpc.proto and kv.proto, and the results of calls

The fields the client writes or reads. `bytes` fields are lists of bytes,
compared as unsigned bytes in lexicographic order; `int64` fields are
integers, with proto3's zero defaults.
-/

namespace Etcdv3Client

abbrev Bytes := List UInt8

/-! ## kv.proto -/

structure KeyValue where
  key : Bytes := []
  createRevision : Int := 0
  modRevision : Int := 0
  version : Int := 0
  value : Bytes := []
  lease : Int := 0
deriving DecidableEq, Repr

inductive EventType where
  | put
  | delete
deriving DecidableEq, Repr

structure Event where
  type : EventType := .put
  kv : KeyValue := {}
deriving DecidableEq, Repr

/-! ## rpc.proto -/

structure ResponseHeader where
  revision : Int := 0
deriving DecidableEq, Repr

inductive SortOrder where
  | none
  | ascend
  | descend
deriving DecidableEq, Repr

inductive SortTarget where
  | key
  | version
  | create
  | mod
  | value
deriving DecidableEq, Repr

structure RangeRequest where
  key : Bytes := []
  rangeEnd : Bytes := []
  limit : Int := 0
  revision : Int := 0
  sortOrder : SortOrder := .none
  sortTarget : SortTarget := .key
  serializable : Bool := false
  keysOnly : Bool := false
  countOnly : Bool := false
  minModRevision : Int := 0
  maxModRevision : Int := 0
  minCreateRevision : Int := 0
  maxCreateRevision : Int := 0
deriving DecidableEq, Repr

structure RangeResponse where
  header : ResponseHeader := {}
  kvs : List KeyValue := []
  more : Bool := false
  count : Int := 0
deriving DecidableEq, Repr

structure PutRequest where
  key : Bytes := []
  value : Bytes := []
  lease : Int := 0
  prevKv : Bool := false
  ignoreValue : Bool := false
  ignoreLease : Bool := false
deriving DecidableEq, Repr

structure DeleteRangeRequest where
  key : Bytes := []
  rangeEnd : Bytes := []
  prevKv : Bool := false
deriving DecidableEq, Repr

structure CompactionRequest where
  revision : Int := 0
  physical : Bool := false
deriving DecidableEq, Repr

/-- `Compare.CompareResult`. -/
inductive CompareResult where
  | equal
  | greater
  | less
  | notEqual
deriving DecidableEq, Repr

/-- `Compare.CompareTarget`. -/
inductive CompareTarget where
  | version
  | create
  | mod
  | value
  | lease
deriving DecidableEq, Repr

/-- The `target_union` of a `Compare`. -/
inductive TargetUnion where
  | notSet
  | version (version : Int)
  | createRevision (revision : Int)
  | modRevision (revision : Int)
  | value (value : Bytes)
  | lease (lease : Int)
deriving DecidableEq, Repr

structure Compare where
  result : CompareResult := .equal
  target : CompareTarget := .version
  key : Bytes := []
  targetUnion : TargetUnion := .notSet
  rangeEnd : Bytes := []
deriving DecidableEq, Repr

mutual

/-- The `request` of a `RequestOp`. -/
inductive RequestOp where
  | notSet
  | range (req : RangeRequest)
  | put (req : PutRequest)
  | deleteRange (req : DeleteRangeRequest)
  | txn (req : TxnRequest)

structure TxnRequest where
  compare : List Compare := []
  success : List RequestOp := []
  failure : List RequestOp := []

end

/-- `WatchCreateRequest.FilterType`. -/
inductive FilterType where
  | noput
  | nodelete
deriving DecidableEq, Repr

structure WatchCreateRequest where
  key : Bytes := []
  rangeEnd : Bytes := []
  startRevision : Int := 0
  progressNotify : Bool := false
  filters : List FilterType := []
  prevKv : Bool := false
  watchId : Int := 0
  fragment : Bool := false
deriving DecidableEq, Repr

structure WatchResponse where
  header : ResponseHeader := {}
  watchId : Int := 0
  created : Bool := false
  canceled : Bool := false
  compactRevision : Int := 0
  events : List Event := []
deriving DecidableEq, Repr

structure LeaseGrantRequest where
  ttl : Int := 0
  id : Int := 0
deriving DecidableEq, Repr

structure LeaseGrantResponse where
  id : Int := 0
  ttl : Int := 0
deriving DecidableEq, Repr

structure LeaseRevokeRequest where
  id : Int := 0
deriving DecidableEq, Repr

structure LeaseKeepAliveRequest where
  id : Int := 0
deriving DecidableEq, Repr

structure LeaseKeepAliveResponse where
  id : Int := 0
  ttl : Int := 0
deriving DecidableEq, Repr

/-! ## The range rule -/

/-- What a `key` and a `range_end` select: "If range_end is not given, the
request only looks up key"; "If range_end is '\0', the range is all keys
>= key"; else "the requested range [key, range_end)". -/
def Selects (key rangeEnd s : Bytes) : Prop :=
  if rangeEnd = [] then s = key
  else if rangeEnd = [0] then key ≤ s
  else key ≤ s ∧ s < rangeEnd

instance (key rangeEnd s : Bytes) : Decidable (Selects key rangeEnd s) :=
  inferInstanceAs (Decidable (if rangeEnd = [] then s = key
    else if rangeEnd = [0] then key ≤ s else key ≤ s ∧ s < rangeEnd))

theorem selects_from_key {key s : Bytes} : Selects key [0] s ↔ key ≤ s := by
  simp [Selects]

theorem selects_interval {key rangeEnd s : Bytes} (h : rangeEnd ≠ []) (h0 : rangeEnd ≠ [0]) :
    Selects key rangeEnd s ↔ s ∈ Set.Ico key rangeEnd := by
  simp [Selects, h, h0]

/-! ## Results of calls -/

/-- `grpc::StatusCode`. -/
inductive GrpcCode where
  | ok
  | cancelled
  | unknown
  | invalidArgument
  | deadlineExceeded
  | notFound
  | alreadyExists
  | permissionDenied
  | resourceExhausted
  | failedPrecondition
  | aborted
  | outOfRange
  | unimplemented
  | internal
  | unavailable
  | dataLoss
  | unauthenticated
deriving DecidableEq, Repr

/-- The codes this client puts in a `maybecommon::Status`. The numbers of
status.h give `GRPCError` and `SessionAlreadyGranted` the same value, which
no code here compares. -/
inductive StatusCode where
  | ok
  | cancelled
  | grpcError
  | sessionAlreadyGranted
  | sessionAlreadyClosed
deriving DecidableEq, Repr

/-- `maybecommon::Status` in this client's scope; `value` is the gRPC
status a call was wrapped from. -/
structure Status where
  code : StatusCode := .ok
  message : String := ""
  value : Option GrpcCode := none
deriving DecidableEq, Repr

def Status.isOk (s : Status) : Bool := s.code == .ok

end Etcdv3Client
