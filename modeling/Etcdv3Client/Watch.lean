import Etcdv3Client.KV

/-!
# watch.h and watch.cc: options and the single-watcher request
-/

namespace Etcdv3Client

abbrev WatchOptions := Options WatchCreateRequest

namespace WatchOptions

def withPrefix (char : PlainChar) (o : WatchOptions) : WatchOptions :=
  o.push (setPrefix char)

def withRangeEnd (e : Bytes) (o : WatchOptions) : WatchOptions :=
  o.push fun req => { req with rangeEnd := e }

def withFromKey (o : WatchOptions) : WatchOptions :=
  o.push fun req => { req with rangeEnd := [0] }

def withStartRevision (revision : Int) (o : WatchOptions) : WatchOptions :=
  o.push fun req => { req with startRevision := revision }

def withProgressNotify (o : WatchOptions) : WatchOptions :=
  o.push fun req => { req with progressNotify := true }

def withNoPut (o : WatchOptions) : WatchOptions :=
  o.push fun req => { req with filters := req.filters ++ [.noput] }

def withNoDelete (o : WatchOptions) : WatchOptions :=
  o.push fun req => { req with filters := req.filters ++ [.nodelete] }

def withPrevKV (o : WatchOptions) : WatchOptions :=
  o.push fun req => { req with prevKv := true }

def withWatchID (id : Int) (o : WatchOptions) : WatchOptions :=
  o.push fun req => { req with watchId := id }

def withFragment (o : WatchOptions) : WatchOptions :=
  o.push fun req => { req with fragment := true }

end WatchOptions

/-- The create request of `Client::WatchSingle`, the only one written to
its stream. -/
def Client.watchSingleRequest (key : Bytes) (options : WatchOptions) : WatchCreateRequest :=
  options.apply { key := key }

/-! ## What a watcher is sent -/

/-- "filter out put event", "filter out delete event" -/
def FilterType.drops : FilterType → EventType → Bool
  | .noput, .put | .nodelete, .delete => true
  | _, _ => false

/-- A watcher created from `since` on is sent the event. -/
def WatchCreateRequest.carries (req : WatchCreateRequest) (since : Int) (event : Event) : Bool :=
  decide (since ≤ event.kv.modRevision) && decide (Requests req event.kv.key) &&
    !(req.filters.any fun filter => filter.drops event.type)

theorem WatchCreateRequest.carries_iff {req : WatchCreateRequest} {since : Int} {event : Event} :
    req.carries since event = true ↔
      since ≤ event.kv.modRevision ∧ Requests req event.kv.key ∧
        ∀ filter ∈ req.filters, filter.drops event.type = false := by
  simp [carries, and_assoc]

end Etcdv3Client
