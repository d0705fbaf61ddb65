import Etcdv3Client.KV
import Etcdv3Client.Lib.Query

/-!
# The server's side of Range

A store is a finite map from non-empty keys to `KeyValue`s. What the server
answers to a `RangeRequest` follows the comments of rpc.proto: the keys the
request selects, sorted by its target and order, then cut to its limit.
-/

namespace Etcdv3Client

/-- The store content at one revision. -/
structure Store where
  kvs : List KeyValue
  /-- "An empty key is not allowed." -/
  nonempty : ∀ kv ∈ kvs, kv.key ≠ []
  nodup : (kvs.map KeyValue.key).Nodup

def Store.empty : Store := ⟨[], by simp, by simp⟩

/-- A store with one key. -/
def Store.single (kv : KeyValue) (h : kv.key ≠ []) : Store := ⟨[kv], by simpa using h, by simp⟩

/-- "lowest target value first" -/
def SortTarget.le : SortTarget → KeyValue → KeyValue → Bool
  | .key, a, b => decide (a.key ≤ b.key)
  | .version, a, b => decide (a.version ≤ b.version)
  | .create, a, b => decide (a.createRevision ≤ b.createRevision)
  | .mod, a, b => decide (a.modRevision ≤ b.modRevision)
  | .value, a, b => decide (a.value ≤ b.value)

/-- `a` may come before `b`. -/
def RangeRequest.before (req : RangeRequest) (a b : KeyValue) : Bool :=
  match req.sortOrder with
  | .none => true
  | .ascend => req.sortTarget.le a b
  | .descend => req.sortTarget.le b a

/-- "When limit is set to 0, it is treated as no limit." -/
def RangeRequest.cutAt (req : RangeRequest) : Option Nat :=
  if req.limit = 0 then none else some req.limit.toNat

/-- The answers to a request that the comments allow. -/
def Store.Answers (store : Store) (req : RangeRequest) (kvs : List KeyValue) : Prop :=
  Query.Answers (fun kv => Requests req kv.key) (fun a b => req.before a b = true) req.cutAt
    store.kvs kvs

/-- A stub whose successful answers are those of the store. -/
def Store.Serves (store : Store) (stub : RangeRequest → Except GrpcCode RangeResponse) : Prop :=
  ∀ req response, stub req = .ok response → store.Answers req response.kvs

/-- One such stub. -/
def Store.stub (store : Store) (req : RangeRequest) : Except GrpcCode RangeResponse :=
  .ok { kvs := Query.answer (fun kv => Requests req kv.key) req.before req.cutAt store.kvs }

theorem sortTarget_le_trans (t : SortTarget) (a b c : KeyValue) (hab : t.le a b = true)
    (hbc : t.le b c = true) : t.le a c = true := by
  cases t <;> simp only [SortTarget.le, decide_eq_true_iff] at hab hbc ⊢ <;>
    exact le_trans hab hbc

theorem sortTarget_le_total (t : SortTarget) (a b : KeyValue) :
    (t.le a b || t.le b a) = true := by
  cases t <;> simp only [SortTarget.le, Bool.or_eq_true, decide_eq_true_iff] <;>
    exact le_total _ _

theorem RangeRequest.before_trans (req : RangeRequest) (a b c : KeyValue)
    (hab : req.before a b = true) (hbc : req.before b c = true) : req.before a c = true := by
  cases ho : req.sortOrder with
  | none => simp only [before, ho]
  | ascend =>
    simp only [before, ho] at hab hbc ⊢
    exact sortTarget_le_trans _ a b c hab hbc
  | descend =>
    simp only [before, ho] at hab hbc ⊢
    exact sortTarget_le_trans _ c b a hbc hab

theorem RangeRequest.before_total (req : RangeRequest) (a b : KeyValue) :
    (req.before a b || req.before b a) = true := by
  cases ho : req.sortOrder with
  | none => simp only [before, ho, Bool.or_true]
  | ascend =>
    simp only [before, ho]
    exact sortTarget_le_total _ a b
  | descend =>
    simp only [before, ho]
    exact sortTarget_le_total _ b a

theorem RangeRequest.before_refl (req : RangeRequest) (a : KeyValue) : req.before a a = true := by
  simpa using req.before_total a a

theorem Store.serves_stub (store : Store) : store.Serves store.stub := by
  intro req response h
  cases h
  exact Query.answers_answer _ _ _ req.before_trans req.before_total

end Etcdv3Client
