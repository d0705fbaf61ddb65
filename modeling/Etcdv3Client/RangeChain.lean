import Etcdv3Client.KV
import Etcdv3Client.Lib.LastWriter

/-!
# kv.h: chains of RangeOptions calls

The builder calls as data, and the request that a chain of them makes of a
key. `WithPrefix` reads the key, which an earlier `WithPrefix` may have
changed; with plain `char` signed this does not show.
-/

namespace Etcdv3Client

open LastWriter

/-! ## The fields of a RangeRequest -/

inductive RangeField where
  | key
  | rangeEnd
  | limit
  | revision
  | sortOrder
  | sortTarget
  | serializable
  | keysOnly
  | countOnly
  | minModRevision
  | maxModRevision
  | minCreateRevision
  | maxCreateRevision
deriving DecidableEq, Repr

namespace RangeField

def Value : RangeField → Type
  | .key | .rangeEnd => Bytes
  | .sortOrder => SortOrder
  | .sortTarget => SortTarget
  | .serializable | .keysOnly | .countOnly => Bool
  | _ => Int

def get : (f : RangeField) → RangeRequest → f.Value
  | .key, req => req.key
  | .rangeEnd, req => req.rangeEnd
  | .limit, req => req.limit
  | .revision, req => req.revision
  | .sortOrder, req => req.sortOrder
  | .sortTarget, req => req.sortTarget
  | .serializable, req => req.serializable
  | .keysOnly, req => req.keysOnly
  | .countOnly, req => req.countOnly
  | .minModRevision, req => req.minModRevision
  | .maxModRevision, req => req.maxModRevision
  | .minCreateRevision, req => req.minCreateRevision
  | .maxCreateRevision, req => req.maxCreateRevision

theorem ext_get {r r' : RangeRequest} (h : ∀ f : RangeField, f.get r = f.get r') : r = r' := by
  obtain ⟨_, _, _, _, _, _, _, _, _, _, _, _, _⟩ := r
  rw [RangeRequest.mk.injEq]
  exact ⟨h .key, h .rangeEnd, h .limit, h .revision, h .sortOrder, h .sortTarget,
    h .serializable, h .keysOnly, h .countOnly, h .minModRevision, h .maxModRevision,
    h .minCreateRevision, h .maxCreateRevision⟩

end RangeField

/-! ## The calls -/

/-- A builder call that pushes one setter. -/
inductive RangeSetter where
  | withPrefix
  | withRangeEnd (e : Bytes)
  | withFromKey
  | withLimit (limit : Int)
  | withRevision (revision : Int)
  | withSortOrder (ascend : Bool)
  | withSortByKey
  | withSortByVersion
  | withSortByCreate
  | withSortByMod
  | withSortByValue
  | withSerializable
  | withKeysOnly
  | withCountOnly
  | withMinModRevision (revision : Int)
  | withMaxModRevision (revision : Int)
  | withMinCreateRevision (revision : Int)
  | withMaxCreateRevision (revision : Int)
deriving DecidableEq, Repr

namespace RangeSetter

/-- The builder call. -/
def call (char : PlainChar) : RangeSetter → RangeOptions → RangeOptions
  | .withPrefix, o => o.withPrefix char
  | .withRangeEnd e, o => o.withRangeEnd e
  | .withFromKey, o => o.withFromKey
  | .withLimit limit, o => o.withLimit limit
  | .withRevision revision, o => o.withRevision revision
  | .withSortOrder ascend, o => o.withSortOrder ascend
  | .withSortByKey, o => o.withSortByKey
  | .withSortByVersion, o => o.withSortByVersion
  | .withSortByCreate, o => o.withSortByCreate
  | .withSortByMod, o => o.withSortByMod
  | .withSortByValue, o => o.withSortByValue
  | .withSerializable, o => o.withSerializable
  | .withKeysOnly, o => o.withKeysOnly
  | .withCountOnly, o => o.withCountOnly
  | .withMinModRevision revision, o => o.withMinModRevision revision
  | .withMaxModRevision revision, o => o.withMaxModRevision revision
  | .withMinCreateRevision revision, o => o.withMinCreateRevision revision
  | .withMaxCreateRevision revision, o => o.withMaxCreateRevision revision

/-- What the setter it pushes does to a request. -/
def set (char : PlainChar) (c : RangeSetter) (req : RangeRequest) : RangeRequest :=
  (c.call char {}).apply req

theorem apply_call (char : PlainChar) (c : RangeSetter) (o : RangeOptions) (req : RangeRequest) :
    (c.call char o).apply req = c.set char (o.apply req) := by
  cases c <;> exact Options.apply_push _ _ _

theorem set_withPrefix_eq (char : PlainChar) (req : RangeRequest) :
    RangeSetter.set char .withPrefix req = setPrefix char req := Options.apply_push _ _ _

theorem apply_foldl (char : PlainChar) (cs : List RangeSetter) (o : RangeOptions)
    (req : RangeRequest) :
    (cs.foldl (fun o c => c.call char o) o).apply req
      = cs.foldl (fun req c => c.set char req) (o.apply req) := by
  induction cs generalizing o with
  | nil => rfl
  | cons c cs ih => rw [List.foldl_cons, List.foldl_cons, ih, apply_call]

/-- What the call writes into the fields of a request for `k`. -/
def writes (char : PlainChar) (k : Bytes) : RangeSetter → (f : RangeField) → Option f.Value
  | .withPrefix, .key => if k = [] then some [0] else none
  | .withPrefix, .rangeEnd => some (if k = [] then [0] else getPrefixRangeEnd char k)
  | .withRangeEnd e, .rangeEnd => some e
  | .withFromKey, .rangeEnd => some [0]
  | .withLimit limit, .limit => some limit
  | .withRevision revision, .revision => some revision
  | .withSortOrder ascend, .sortOrder => some (if ascend then .ascend else .descend)
  | .withSortByKey, .sortTarget => some .key
  | .withSortByVersion, .sortTarget => some .version
  | .withSortByCreate, .sortTarget => some .create
  | .withSortByMod, .sortTarget => some .mod
  | .withSortByValue, .sortTarget => some .value
  | .withSerializable, .serializable => some true
  | .withKeysOnly, .keysOnly => some true
  | .withCountOnly, .countOnly => some true
  | .withMinModRevision revision, .minModRevision => some revision
  | .withMaxModRevision revision, .maxModRevision => some revision
  | .withMinCreateRevision revision, .minCreateRevision => some revision
  | .withMaxCreateRevision revision, .maxCreateRevision => some revision
  | _, _ => none

end RangeSetter

/-- A builder call. -/
inductive RangeCall where
  | setter (c : RangeSetter)
  | withFirstCreate
  | withLastCreate
  | withFirstKey
  | withLastKey
  | withFirstMod
  | withLastMod
deriving DecidableEq, Repr

namespace RangeCall

def call (char : PlainChar) : RangeCall → RangeOptions → RangeOptions
  | .setter c, o => c.call char o
  | .withFirstCreate, o => o.withFirstCreate char
  | .withLastCreate, o => o.withLastCreate char
  | .withFirstKey, o => o.withFirstKey char
  | .withLastKey, o => o.withLastKey char
  | .withFirstMod, o => o.withFirstMod char
  | .withLastMod, o => o.withLastMod char

/-- The calls that a call makes. -/
def expand : RangeCall → List RangeSetter
  | .setter c => [c]
  | .withFirstCreate => [.withPrefix, .withSortByCreate, .withSortOrder true, .withLimit 1]
  | .withLastCreate => [.withPrefix, .withSortByCreate, .withSortOrder false, .withLimit 1]
  | .withFirstKey => [.withPrefix, .withSortByKey, .withSortOrder true, .withLimit 1]
  | .withLastKey => [.withPrefix, .withSortByKey, .withSortOrder false, .withLimit 1]
  | .withFirstMod => [.withPrefix, .withSortByMod, .withSortOrder true, .withLimit 1]
  | .withLastMod => [.withPrefix, .withSortByMod, .withSortOrder false, .withLimit 1]

theorem call_expand (char : PlainChar) (c : RangeCall) (o : RangeOptions) :
    c.call char o = c.expand.foldl (fun o c => c.call char o) o := by
  cases c <;> rfl

/-- The options that a chain of calls builds. -/
def options (char : PlainChar) (cs : List RangeCall) : RangeOptions :=
  cs.foldl (fun o c => c.call char o) {}

/-- The calls of a chain, with the composite ones expanded. -/
def expandAll (cs : List RangeCall) : List RangeSetter := cs.flatMap expand

theorem expandAll_cons (c : RangeCall) (cs : List RangeCall) :
    expandAll (c :: cs) = c.expand ++ expandAll cs := List.flatMap_cons

/-- The setters of a chain are those of the expanded one. -/
theorem options_expandAll (char : PlainChar) (cs : List RangeCall) (o : RangeOptions) :
    cs.foldl (fun o c => c.call char o) o
      = (expandAll cs).foldl (fun o c => c.call char o) o := by
  induction cs generalizing o with
  | nil => rfl
  | cons c cs ih => rw [List.foldl_cons, ih, call_expand, expandAll_cons, List.foldl_append]

/-- The request of a chain is its setters' work, one after the other. -/
theorem rangeRequest_options (char : PlainChar) (k : Bytes) (cs : List RangeCall) :
    Client.rangeRequest k (options char cs)
      = (expandAll cs).foldl (fun req c => c.set char req) { key := k } := by
  rw [Client.rangeRequest, options, options_expandAll, RangeSetter.apply_foldl,
    Options.apply_empty]

end RangeCall

/-! ## What a setter writes -/

/-- The keys that a request for `k` may have. -/
def KeyOf (k : Bytes) (req : RangeRequest) : Prop := req.key = k ∨ k = [] ∧ req.key = [0]

/-- `GetPrefixRangeEnd` of the rewritten key. -/
theorem getPrefixRangeEnd_zero : getPrefixRangeEnd .signed [0] = [0] := by decide

/-- With plain `char` unsigned a second `WithPrefix` changes the range end. -/
theorem getPrefixRangeEnd_zero_unsigned : getPrefixRangeEnd .unsigned [0] = [1] := by decide

theorem set_withPrefix {k : Bytes} {req : RangeRequest} (hk : KeyOf k req) :
    RangeSetter.set .signed .withPrefix req
      = { req with
          key := if k = [] then [0] else k
          rangeEnd := if k = [] then [0] else getPrefixRangeEnd .signed k } := by
  rw [RangeSetter.set_withPrefix_eq, setPrefix]
  by_cases hnil : k = []
  · rcases hk with hkey | ⟨-, hkey⟩
    · simp [KeyRange.key, KeyRange.setKey, KeyRange.setRangeEnd, hkey, hnil]
    · -- an earlier `WithPrefix` has rewritten the key
      simp [KeyRange.key, KeyRange.setRangeEnd, hkey, hnil, getPrefixRangeEnd_zero]
  · rcases hk with hkey | ⟨hnil', -⟩
    · simp [KeyRange.key, KeyRange.setRangeEnd, hkey, hnil]
    · exact absurd hnil' hnil

/-- With plain `char` signed, what a call writes does not depend on the
calls before it. -/
theorem lawful_set (k : Bytes) :
    Lawful RangeField.get (RangeSetter.set .signed) (RangeSetter.writes .signed k) (KeyOf k) where
  keeps c req hk := by
    cases c with
    | withPrefix =>
      rw [set_withPrefix hk]
      by_cases hnil : k = []
      · exact Or.inr ⟨hnil, if_pos hnil⟩
      · exact Or.inl (if_neg hnil)
    | _ => exact hk
  get_act c req f hk := by
    cases c with
    | withPrefix =>
      rw [set_withPrefix hk]
      cases f with
      | key =>
        by_cases hnil : k = []
        · simp only [RangeField.get, RangeSetter.writes, hnil, if_true]
          rfl
        · have hkey : req.key = k := hk.resolve_right fun h => hnil h.1
          simp only [RangeField.get, RangeSetter.writes, hnil, if_false, hkey]
          rfl
      | _ => rfl
    | _ => cases f <;> rfl

/-! ## Main result -/

/-- The key is written where it is empty, by `WithPrefix` alone. -/
theorem lastWriter_key (k : Bytes) (cs : List RangeSetter) :
    lastWriter (RangeSetter.writes .signed k) .key cs
      = if k = [] ∧ .withPrefix ∈ cs then some .withPrefix else none := by
  induction cs using List.reverseRecOn with
  | nil => simp [lastWriter]
  | append_singleton cs c ih =>
    rw [lastWriter_concat, ih]
    cases c with
    | withPrefix => by_cases hnil : k = [] <;> simp [RangeSetter.writes, hnil]
    | _ => simp [RangeSetter.writes]

/-- **Last writer wins, field by field**, in the request that `Client::Range`
sends for a key and a chain of calls; and the key is "\0" exactly where it
was empty and the chain contains `WithPrefix`. So two chains with the same
last writer of every field that agree on containing `WithPrefix` build the
same request. -/
theorem range_last_writer_wins (k : Bytes) (cs : List RangeCall) :
    (∀ f, f ≠ .key → f.get (Client.rangeRequest k (RangeCall.options .signed cs))
      = (lastWritten (RangeSetter.writes .signed k) f (RangeCall.expandAll cs)).getD
          (f.get {})) ∧
    (Client.rangeRequest k (RangeCall.options .signed cs)).key
      = (if k = [] ∧ .withPrefix ∈ RangeCall.expandAll cs then [0] else k) ∧
    ∀ ds : List RangeCall,
      (∀ f, f ≠ .key → lastWriter (RangeSetter.writes .signed k) f (RangeCall.expandAll cs)
        = lastWriter (RangeSetter.writes .signed k) f (RangeCall.expandAll ds)) →
      (.withPrefix ∈ RangeCall.expandAll cs ↔ .withPrefix ∈ RangeCall.expandAll ds) →
      Client.rangeRequest k (RangeCall.options .signed cs)
        = Client.rangeRequest k (RangeCall.options .signed ds) := by
  have hlaw := lawful_set k
  have hstart : KeyOf k { key := k } := Or.inl rfl
  refine ⟨fun f hf => ?_, ?_, fun ds hlast hprefix => ?_⟩
  · rw [RangeCall.rangeRequest_options, hlaw.get_foldl hstart]
    cases f with
    | key => exact absurd rfl hf
    | _ => rfl
  · rw [RangeCall.rangeRequest_options]
    refine (hlaw.get_foldl hstart .key _).trans ?_
    rw [lastWritten, lastWriter_key]
    by_cases h : k = [] ∧ .withPrefix ∈ RangeCall.expandAll cs
    · simp only [h, and_self, if_true, Option.bind_some, RangeSetter.writes]
      rfl
    · simp only [h, if_false]
      rfl
  · rw [RangeCall.rangeRequest_options, RangeCall.rangeRequest_options]
    refine hlaw.foldl_eq (fun _ _ => RangeField.ext_get) hstart fun f => ?_
    cases f with
    | key => simp only [lastWriter_key, hprefix]
    | _ => exact hlast _ (by simp)

/-- The first-created key, and the same with `WithPrefix` once more in
front and a limit that is overwritten. -/
theorem range_last_writer_wins_first_create :
    Client.rangeRequest [] (RangeCall.options .signed [.withFirstCreate])
      = Client.rangeRequest [] (RangeCall.options .signed
          [.setter .withPrefix, .setter (.withLimit 5), .withFirstCreate]) :=
  (range_last_writer_wins [] [.withFirstCreate]).2.2
    [.setter .withPrefix, .setter (.withLimit 5), .withFirstCreate]
    (fun f _ => by cases f <;> rfl) (by decide)

end Etcdv3Client
