import Etcdv3Client.RangeChain
import Etcdv3Client.Watch

/-!
# kv.h and watch.h: chains of options calls

The builder calls of `DeleteRangeOptions`, `WatchOptions` and `PutOptions`
as data, beside those of `RangeOptions`. Three of the four classes have the
same calls that choose keys, each with a copy of the code: whatever else is
asked for in between, equal choices select equal keys.
-/

namespace Etcdv3Client

open LastWriter

/-- Calls that each apply setters after those of the calls before. -/
theorem Options.apply_foldl {C T : Type} {call : C → Options T → Options T}
    (h : ∀ c o t, (call c o).apply t = (call c {}).apply (o.apply t)) (cs : List C)
    (o : Options T) (t : T) :
    (cs.foldl (fun o c => call c o) o).apply t
      = cs.foldl (fun t c => (call c {}).apply t) (o.apply t) := by
  induction cs generalizing o with
  | nil => rfl
  | cons c cs ih => rw [List.foldl_cons, List.foldl_cons, ih, h]

/-! ## The calls that choose keys -/

inductive KeyCall where
  | withPrefix
  | withRangeEnd (e : Bytes)
  | withFromKey
deriving DecidableEq, Repr

namespace KeyCall

/-- What the setter of the call makes of a `key` and a `range_end`. -/
def on (char : PlainChar) : KeyCall → Bytes × Bytes → Bytes × Bytes
  | .withPrefix, (key, _) =>
      if key.length = 0 then ([0], [0]) else (key, getPrefixRangeEnd char key)
  | .withRangeEnd e, (key, _) => (key, e)
  | .withFromKey, (key, _) => (key, [0])

/-- The `key` and `range_end` that a chain asks for. -/
def range (char : PlainChar) (k : Bytes) (ks : List KeyCall) : Bytes × Bytes :=
  ks.foldl (fun p c => c.on char p) (k, [])

/-- A chain of the calls on `k` chooses a key. -/
def Chooses (char : PlainChar) (k : Bytes) (ks : List KeyCall) (s : Bytes) : Prop :=
  Selects (range char k ks).1 (range char k ks).2 s

instance (char : PlainChar) (k : Bytes) (ks : List KeyCall) (s : Bytes) :
    Decidable (Chooses char k ks s) :=
  inferInstanceAs (Decidable (Selects (range char k ks).1 (range char k ks).2 s))

end KeyCall

/-- The fields that choose the keys of a request. -/
def keyPart {T : Type} [KeyRange T] (req : T) : Bytes × Bytes :=
  (KeyRange.key req, KeyRange.rangeEnd req)

theorem keyPart_setPrefix {T : Type} [KeyRange T] (char : PlainChar) (req : T) :
    keyPart (setPrefix char req) = KeyCall.on char .withPrefix (keyPart req) := by
  by_cases h : KeyRange.key req = [] <;> simp [keyPart, setPrefix, KeyCall.on, h]

/-- The key a request selects is the matter of its key part. -/
theorem requests_of_keyPart {T : Type} [KeyRange T] {req : T} {char : PlainChar} {k : Bytes}
    {ks : List KeyCall} (h : keyPart req = KeyCall.range char k ks) (s : Bytes) :
    Requests req s ↔ KeyCall.Chooses char k ks s := by
  rw [KeyCall.Chooses, ← h]
  rfl

/-! ## RangeOptions -/

def RangeSetter.keyCall : RangeSetter → Option KeyCall
  | .withPrefix => some .withPrefix
  | .withRangeEnd e => some (.withRangeEnd e)
  | .withFromKey => some .withFromKey
  | _ => none

/-- The calls of a chain that choose keys. -/
def RangeCall.keyCalls (cs : List RangeCall) : List KeyCall :=
  (expandAll cs).filterMap RangeSetter.keyCall

theorem keyPart_rangeSet (char : PlainChar) (c : RangeSetter) (req : RangeRequest) :
    keyPart (c.set char req)
      = c.keyCall.elim (keyPart req) fun d => d.on char (keyPart req) := by
  cases c with
  | withPrefix =>
    rw [RangeSetter.set_withPrefix_eq]
    exact keyPart_setPrefix char req
  | _ => rfl

theorem keyPart_range (char : PlainChar) (k : Bytes) (cs : List RangeCall) :
    keyPart (Client.rangeRequest k (RangeCall.options char cs))
      = KeyCall.range char k (RangeCall.keyCalls cs) := by
  rw [RangeCall.rangeRequest_options]
  exact part_foldl (keyPart_rangeSet char) _ _

/-! ## DeleteRangeOptions -/

inductive DeleteRangeCall where
  | key (c : KeyCall)
  | withPrevKV
deriving DecidableEq, Repr

namespace DeleteRangeCall

def call (char : PlainChar) : DeleteRangeCall → DeleteRangeOptions → DeleteRangeOptions
  | .key .withPrefix, o => o.withPrefix char
  | .key (.withRangeEnd e), o => o.withRangeEnd e
  | .key .withFromKey, o => o.withFromKey
  | .withPrevKV, o => o.withPrevKV

def options (char : PlainChar) (cs : List DeleteRangeCall) : DeleteRangeOptions :=
  cs.foldl (fun o c => c.call char o) {}

def keyCall : DeleteRangeCall → Option KeyCall
  | .key c => some c
  | .withPrevKV => none

def keyCalls (cs : List DeleteRangeCall) : List KeyCall := cs.filterMap keyCall

theorem apply_call (char : PlainChar) (c : DeleteRangeCall) (o : DeleteRangeOptions)
    (req : DeleteRangeRequest) :
    (c.call char o).apply req = (c.call char {}).apply (o.apply req) := by
  rcases c with (_ | _ | _) | _ <;> exact Options.apply_push _ _ _

theorem keyPart_apply (char : PlainChar) (c : DeleteRangeCall) (req : DeleteRangeRequest) :
    keyPart ((c.call char {}).apply req)
      = c.keyCall.elim (keyPart req) fun d => d.on char (keyPart req) := by
  rcases c with (_ | _ | _) | _ <;> try rfl
  exact keyPart_setPrefix char req

theorem prevKv_apply (char : PlainChar) (c : DeleteRangeCall) (req : DeleteRangeRequest) :
    ((c.call char {}).apply req).prevKv = (req.prevKv || c == .withPrevKV) := by
  rcases c with (_ | _ | _) | _
  · show (setPrefix char req).prevKv = _
    unfold setPrefix
    split <;> exact (Bool.or_false _).symm
  · exact (Bool.or_false _).symm
  · exact (Bool.or_false _).symm
  · exact (Bool.or_true _).symm

/-- The request of a chain. -/
theorem deleteRangeRequest_options (char : PlainChar) (k : Bytes) (cs : List DeleteRangeCall) :
    Client.deleteRangeRequest k (options char cs)
      = { key := (KeyCall.range char k (keyCalls cs)).1
          rangeEnd := (KeyCall.range char k (keyCalls cs)).2
          prevKv := cs.any (· == .withPrevKV) } := by
  have hchain : Client.deleteRangeRequest k (options char cs)
      = cs.foldl (fun req c => (c.call char {}).apply req) { key := k } :=
    Options.apply_foldl (apply_call char) cs {} _
  have hkey := part_foldl (keyPart_apply char) cs ({ key := k } : DeleteRangeRequest)
  have hprev := flag_foldl (prevKv_apply char) cs ({ key := k } : DeleteRangeRequest)
  rw [← hchain] at hkey hprev
  rw [DeleteRangeRequest.mk.injEq]
  exact ⟨congrArg Prod.fst hkey, congrArg Prod.snd hkey, hprev⟩

end DeleteRangeCall

/-! ## WatchOptions -/

inductive WatchCall where
  | key (c : KeyCall)
  | withStartRevision (revision : Int)
  | withProgressNotify
  | withNoPut
  | withNoDelete
  | withPrevKV
  | withWatchID (id : Int)
  | withFragment
deriving DecidableEq, Repr

namespace WatchCall

def call (char : PlainChar) : WatchCall → WatchOptions → WatchOptions
  | .key .withPrefix, o => o.withPrefix char
  | .key (.withRangeEnd e), o => o.withRangeEnd e
  | .key .withFromKey, o => o.withFromKey
  | .withStartRevision revision, o => o.withStartRevision revision
  | .withProgressNotify, o => o.withProgressNotify
  | .withNoPut, o => o.withNoPut
  | .withNoDelete, o => o.withNoDelete
  | .withPrevKV, o => o.withPrevKV
  | .withWatchID id, o => o.withWatchID id
  | .withFragment, o => o.withFragment

def options (char : PlainChar) (cs : List WatchCall) : WatchOptions :=
  cs.foldl (fun o c => c.call char o) {}

def keyCall : WatchCall → Option KeyCall
  | .key c => some c
  | _ => none

def keyCalls (cs : List WatchCall) : List KeyCall := cs.filterMap keyCall

/-- The filter that the call adds. -/
def filter : WatchCall → Option FilterType
  | .withNoPut => some .noput
  | .withNoDelete => some .nodelete
  | _ => none

/-- The revision that the call asks to start at. -/
def startRevision : WatchCall → Option Int
  | .withStartRevision revision => some revision
  | _ => none

theorem apply_call (char : PlainChar) (c : WatchCall) (o : WatchOptions)
    (req : WatchCreateRequest) :
    (c.call char o).apply req = (c.call char {}).apply (o.apply req) := by
  cases c with
  | key c => cases c <;> exact Options.apply_push _ _ _
  | _ => exact Options.apply_push _ _ _

theorem keyPart_apply (char : PlainChar) (c : WatchCall) (req : WatchCreateRequest) :
    keyPart ((c.call char {}).apply req)
      = c.keyCall.elim (keyPart req) fun d => d.on char (keyPart req) := by
  cases c with
  | key c =>
    cases c with
    | withPrefix => exact keyPart_setPrefix char req
    | _ => rfl
  | _ => rfl

theorem filters_apply (char : PlainChar) (c : WatchCall) (req : WatchCreateRequest) :
    ((c.call char {}).apply req).filters
      = c.filter.elim req.filters fun d => req.filters ++ [d] := by
  cases c with
  | key c =>
    cases c with
    | withPrefix =>
      show (setPrefix char req).filters = _
      unfold setPrefix
      split <;> rfl
    | _ => rfl
  | _ => rfl

theorem startRevision_apply (char : PlainChar) (c : WatchCall) (req : WatchCreateRequest) :
    ((c.call char {}).apply req).startRevision
      = c.startRevision.elim req.startRevision fun t => t := by
  cases c with
  | key c =>
    cases c with
    | withPrefix =>
      show (setPrefix char req).startRevision = _
      unfold setPrefix
      split <;> rfl
    | _ => rfl
  | _ => rfl

/-- What a chain makes of a request, one call after the other. -/
theorem watchSingleRequest_options (char : PlainChar) (k : Bytes) (cs : List WatchCall) :
    Client.watchSingleRequest k (options char cs)
      = cs.foldl (fun req c => (c.call char {}).apply req) { key := k } :=
  Options.apply_foldl (apply_call char) cs {} _

theorem keyPart_watch (char : PlainChar) (k : Bytes) (cs : List WatchCall) :
    keyPart (Client.watchSingleRequest k (options char cs))
      = KeyCall.range char k (keyCalls cs) := by
  rw [watchSingleRequest_options]
  exact part_foldl (keyPart_apply char) cs _

/-- The revision asked for last. -/
theorem startRevision_watch (char : PlainChar) (k : Bytes) (cs : List WatchCall) :
    (Client.watchSingleRequest k (options char cs)).startRevision
      = (cs.filterMap startRevision).getLastD 0 := by
  rw [watchSingleRequest_options]
  exact last_foldl (startRevision_apply char) cs _

/-- The filters add up, in the order of the calls. -/
theorem filters_watch (char : PlainChar) (k : Bytes) (cs : List WatchCall) :
    (Client.watchSingleRequest k (options char cs)).filters = cs.filterMap filter := by
  rw [watchSingleRequest_options]
  refine (part_foldl (g := fun d l => l ++ [d]) (filters_apply char) cs _).trans ?_
  have hall : ∀ (fs gs : List FilterType), fs.foldl (fun l d => l ++ [d]) gs = gs ++ fs := by
    intro fs
    induction fs with
    | nil => simp
    | cons f fs ih =>
      intro gs
      simp [ih]
  exact hall _ []

end WatchCall

/-! ## PutOptions -/

inductive PutCall where
  | withLease (lease : Int)
  | withPrevKV
  | withIgnoreValue
  | withIgnoreLease
deriving DecidableEq, Repr

namespace PutCall

def call : PutCall → PutOptions → PutOptions
  | .withLease lease, o => o.withLease lease
  | .withPrevKV, o => o.withPrevKV
  | .withIgnoreValue, o => o.withIgnoreValue
  | .withIgnoreLease, o => o.withIgnoreLease

def options (cs : List PutCall) : PutOptions := cs.foldl (fun o c => c.call o) {}

/-- The lease that the call sets. -/
def lease : PutCall → Option Int
  | .withLease lease => some lease
  | _ => none

/-- What the setter it pushes does to a request. -/
def set (c : PutCall) (req : PutRequest) : PutRequest := (c.call {}).apply req

theorem apply_call (c : PutCall) (o : PutOptions) (req : PutRequest) :
    (c.call o).apply req = (c.call {}).apply (o.apply req) := by
  cases c <;> exact Options.apply_push _ _ _

/-- No call changes the key or the value; each sets a field of its own. -/
theorem set_eq (c : PutCall) (req : PutRequest) :
    c.set req
      = { req with
          lease := c.lease.elim req.lease fun t => t
          prevKv := req.prevKv || c == .withPrevKV
          ignoreValue := req.ignoreValue || c == .withIgnoreValue
          ignoreLease := req.ignoreLease || c == .withIgnoreLease } := by
  obtain ⟨_, _, _, p, v, l⟩ := req
  cases c <;> cases p <;> cases v <;> cases l <;> rfl

/-- The request of a chain: the last lease asked for, and the flags that
were. -/
theorem putRequest_options (k v : Bytes) (cs : List PutCall) :
    Client.putRequest k v (options cs)
      = { key := k
          value := v
          lease := (cs.filterMap lease).getLastD 0
          prevKv := cs.any (· == .withPrevKV)
          ignoreValue := cs.any (· == .withIgnoreValue)
          ignoreLease := cs.any (· == .withIgnoreLease) } := by
  have hchain : Client.putRequest k v (options cs)
      = cs.foldl (fun req c => c.set req) { key := k, value := v } :=
    Options.apply_foldl apply_call cs {} _
  have hkey := kept_foldl (f := PutRequest.key) cs
    (fun c _ req => show (set c req).key = req.key by rw [set_eq])
  have hvalue := kept_foldl (f := PutRequest.value) cs
    (fun c _ req => show (set c req).value = req.value by rw [set_eq])
  have hlease := last_foldl (f := PutRequest.lease) (p := lease)
    (fun c req => show (set c req).lease = _ by rw [set_eq])
  have hprev := flag_foldl (f := PutRequest.prevKv)
    (fun c req => show (set c req).prevKv = _ by rw [set_eq])
  have hignore := flag_foldl (f := PutRequest.ignoreValue)
    (fun c req => show (set c req).ignoreValue = _ by rw [set_eq])
  have hignore' := flag_foldl (f := PutRequest.ignoreLease)
    (fun c req => show (set c req).ignoreLease = _ by rw [set_eq])
  rw [hchain, PutRequest.mk.injEq]
  exact ⟨hkey _, hvalue _, hlease cs _, hprev cs _, hignore cs _, hignore' cs _⟩

end PutCall

end Etcdv3Client
