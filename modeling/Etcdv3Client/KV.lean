import Etcdv3Client.Common

/-!
# kv.h and kv.cc: options and requests

Each options class is the list of setters its builder calls push; a
request is the message `Client` fills with its arguments and then hands
to `options.Apply`.
-/

namespace Etcdv3Client

/-! ## Messages with a key range -/

/-- The two fields that `RangeRequest`, `DeleteRangeRequest` and
`WatchCreateRequest` share, with the accessors protoc generates. -/
class KeyRange (T : Type) where
  key : T → Bytes
  rangeEnd : T → Bytes
  setKey : T → Bytes → T
  setRangeEnd : T → Bytes → T
  key_setKey : ∀ t k, key (setKey t k) = k
  key_setRangeEnd : ∀ t e, key (setRangeEnd t e) = key t
  rangeEnd_setRangeEnd : ∀ t e, rangeEnd (setRangeEnd t e) = e

attribute [simp] KeyRange.key_setKey KeyRange.key_setRangeEnd
  KeyRange.rangeEnd_setRangeEnd

instance : KeyRange RangeRequest where
  key := RangeRequest.key
  rangeEnd := RangeRequest.rangeEnd
  setKey t k := { t with key := k }
  setRangeEnd t e := { t with rangeEnd := e }
  key_setKey _ _ := rfl
  key_setRangeEnd _ _ := rfl
  rangeEnd_setRangeEnd _ _ := rfl

instance : KeyRange DeleteRangeRequest where
  key := DeleteRangeRequest.key
  rangeEnd := DeleteRangeRequest.rangeEnd
  setKey t k := { t with key := k }
  setRangeEnd t e := { t with rangeEnd := e }
  key_setKey _ _ := rfl
  key_setRangeEnd _ _ := rfl
  rangeEnd_setRangeEnd _ _ := rfl

instance : KeyRange WatchCreateRequest where
  key := WatchCreateRequest.key
  rangeEnd := WatchCreateRequest.rangeEnd
  setKey t k := { t with key := k }
  setRangeEnd t e := { t with rangeEnd := e }
  key_setKey _ _ := rfl
  key_setRangeEnd _ _ := rfl
  rangeEnd_setRangeEnd _ _ := rfl

section
variable {T : Type} [KeyRange T]

/-- The setter that `WithPrefix` pushes, the same in all three classes. -/
def setPrefix (char : PlainChar) (req : T) : T :=
  if (KeyRange.key req).length = 0 then
    KeyRange.setRangeEnd (KeyRange.setKey req [0]) [0]
  else
    KeyRange.setRangeEnd req (getPrefixRangeEnd char (KeyRange.key req))

/-- The request selects a key, by the rule of rpc.proto. -/
def Requests (req : T) (s : Bytes) : Prop :=
  Selects (KeyRange.key req) (KeyRange.rangeEnd req) s

instance (req : T) (s : Bytes) : Decidable (Requests req s) :=
  inferInstanceAs (Decidable (Selects (KeyRange.key req) (KeyRange.rangeEnd req) s))

theorem requests_setPrefix_nil (char : PlainChar) {req : T} (h : KeyRange.key req = [])
    (s : Bytes) : Requests (setPrefix char req) s ↔ Selects [0] [0] s := by
  simp [Requests, setPrefix, h]

theorem requests_setPrefix (char : PlainChar) {req : T} (h : KeyRange.key req ≠ [])
    (s : Bytes) :
    Requests (setPrefix char req) s
      ↔ Selects (KeyRange.key req) (getPrefixRangeEnd char (KeyRange.key req)) s := by
  simp [Requests, setPrefix, h]

end

/-! ## RangeOptions -/

abbrev RangeOptions := Options RangeRequest

namespace RangeOptions

def withPrefix (char : PlainChar) (o : RangeOptions) : RangeOptions :=
  o.push (setPrefix char)

def withRangeEnd (e : Bytes) (o : RangeOptions) : RangeOptions :=
  o.push fun req => { req with rangeEnd := e }

def withFromKey (o : RangeOptions) : RangeOptions :=
  o.push fun req => { req with rangeEnd := [0] }

def withLimit (limit : Int) (o : RangeOptions) : RangeOptions :=
  o.push fun req => { req with limit := limit }

def withRevision (revision : Int) (o : RangeOptions) : RangeOptions :=
  o.push fun req => { req with revision := revision }

def withSortOrder (o : RangeOptions) (ascend : Bool := true) : RangeOptions :=
  o.push fun req => { req with sortOrder := if ascend then .ascend else .descend }

def withSortByKey (o : RangeOptions) : RangeOptions :=
  o.push fun req => { req with sortTarget := .key }

def withSortByVersion (o : RangeOptions) : RangeOptions :=
  o.push fun req => { req with sortTarget := .version }

def withSortByCreate (o : RangeOptions) : RangeOptions :=
  o.push fun req => { req with sortTarget := .create }

def withSortByMod (o : RangeOptions) : RangeOptions :=
  o.push fun req => { req with sortTarget := .mod }

def withSortByValue (o : RangeOptions) : RangeOptions :=
  o.push fun req => { req with sortTarget := .value }

def withSerializable (o : RangeOptions) : RangeOptions :=
  o.push fun req => { req with serializable := true }

def withKeysOnly (o : RangeOptions) : RangeOptions :=
  o.push fun req => { req with keysOnly := true }

def withCountOnly (o : RangeOptions) : RangeOptions :=
  o.push fun req => { req with countOnly := true }

def withMinModRevision (revision : Int) (o : RangeOptions) : RangeOptions :=
  o.push fun req => { req with minModRevision := revision }

def withMaxModRevision (revision : Int) (o : RangeOptions) : RangeOptions :=
  o.push fun req => { req with maxModRevision := revision }

def withMinCreateRevision (revision : Int) (o : RangeOptions) : RangeOptions :=
  o.push fun req => { req with minCreateRevision := revision }

def withMaxCreateRevision (revision : Int) (o : RangeOptions) : RangeOptions :=
  o.push fun req => { req with maxCreateRevision := revision }

/-- The first-created key under the prefix. -/
def withFirstCreate (char : PlainChar) (o : RangeOptions) : RangeOptions :=
  (((o.withPrefix char).withSortByCreate).withSortOrder).withLimit 1

def withLastCreate (char : PlainChar) (o : RangeOptions) : RangeOptions :=
  (((o.withPrefix char).withSortByCreate).withSortOrder false).withLimit 1

def withFirstKey (char : PlainChar) (o : RangeOptions) : RangeOptions :=
  (((o.withPrefix char).withSortByKey).withSortOrder).withLimit 1

def withLastKey (char : PlainChar) (o : RangeOptions) : RangeOptions :=
  (((o.withPrefix char).withSortByKey).withSortOrder false).withLimit 1

def withFirstMod (char : PlainChar) (o : RangeOptions) : RangeOptions :=
  (((o.withPrefix char).withSortByMod).withSortOrder).withLimit 1

def withLastMod (char : PlainChar) (o : RangeOptions) : RangeOptions :=
  (((o.withPrefix char).withSortByMod).withSortOrder false).withLimit 1

end RangeOptions

/-- `WithPrefix` changes nothing but the keys asked for. -/
theorem setPrefix_eq (char : PlainChar) (req : RangeRequest) :
    ∃ key rangeEnd, setPrefix char req = { req with key := key, rangeEnd := rangeEnd } := by
  unfold setPrefix
  by_cases hnil : (KeyRange.key req).length = 0
  · rw [if_pos hnil]
    exact ⟨_, _, rfl⟩
  · rw [if_neg hnil]
    exact ⟨req.key, _, rfl⟩

/-! ## PutOptions -/

abbrev PutOptions := Options PutRequest

namespace PutOptions

def withLease (lease : Int) (o : PutOptions) : PutOptions :=
  o.push fun req => { req with lease := lease }

def withPrevKV (o : PutOptions) : PutOptions :=
  o.push fun req => { req with prevKv := true }

def withIgnoreValue (o : PutOptions) : PutOptions :=
  o.push fun req => { req with ignoreValue := true }

def withIgnoreLease (o : PutOptions) : PutOptions :=
  o.push fun req => { req with ignoreLease := true }

end PutOptions

/-! ## DeleteRangeOptions -/

abbrev DeleteRangeOptions := Options DeleteRangeRequest

namespace DeleteRangeOptions

def withPrefix (char : PlainChar) (o : DeleteRangeOptions) : DeleteRangeOptions :=
  o.push (setPrefix char)

def withRangeEnd (e : Bytes) (o : DeleteRangeOptions) : DeleteRangeOptions :=
  o.push fun req => { req with rangeEnd := e }

def withFromKey (o : DeleteRangeOptions) : DeleteRangeOptions :=
  o.push fun req => { req with rangeEnd := [0] }

def withPrevKV (o : DeleteRangeOptions) : DeleteRangeOptions :=
  o.push fun req => { req with prevKv := true }

end DeleteRangeOptions

/-! ## CompactOptions -/

abbrev CompactOptions := Options CompactionRequest

def CompactOptions.withPhysical (o : CompactOptions) : CompactOptions :=
  o.push fun req => { req with physical := true }

/-! ## The requests `Client` sends -/

namespace Client

/-- The request of `Client::Range`. -/
def rangeRequest (key : Bytes) (options : RangeOptions) : RangeRequest :=
  options.apply { key := key }

/-- The request of `Client::Put`. -/
def putRequest (key value : Bytes) (options : PutOptions) : PutRequest :=
  options.apply { key := key, value := value }

/-- The request of `Client::DeleteRange`. -/
def deleteRangeRequest (key : Bytes) (options : DeleteRangeOptions) : DeleteRangeRequest :=
  options.apply { key := key }

/-- The request of `Client::Compact`. -/
def compactRequest (revision : Int) (options : CompactOptions) : CompactionRequest :=
  options.apply { revision := revision }

/-- `Client::Range` over the stub's `Range`. -/
def range (stub : RangeRequest → Except GrpcCode RangeResponse) (key : Bytes)
    (options : RangeOptions) : Except GrpcCode RangeResponse :=
  stub (rangeRequest key options)

end Client

theorem rangeRequest_withFirstCreate (char : PlainChar) (key : Bytes) :
    Client.rangeRequest key (RangeOptions.withFirstCreate char {})
      = { setPrefix char ({ key := key } : RangeRequest) with
          sortTarget := .create, sortOrder := .ascend, limit := 1 } := by
  simp [Client.rangeRequest, RangeOptions.withFirstCreate, RangeOptions.withPrefix,
    RangeOptions.withSortByCreate, RangeOptions.withSortOrder, RangeOptions.withLimit]

end Etcdv3Client
