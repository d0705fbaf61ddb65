import Mathlib.Data.List.Forall2
import Etcdv3Client.Txn

/-!
# Running a transaction

What the comments of rpc.proto say a server does with a `TxnRequest`, over
any meaning of the single requests; and what a sequence of builder calls
asks for, call by call, without a message. The builder is the way from the
second to the first, and the responses find their way back to the calls.
-/

namespace Etcdv3Client

open TxnCall

/-! ## Responses -/

structure PutResponse where
  header : ResponseHeader := {}
  prevKv : Option KeyValue := none
deriving DecidableEq, Repr

structure DeleteRangeResponse where
  header : ResponseHeader := {}
  deleted : Int := 0
  prevKvs : List KeyValue := []
deriving DecidableEq, Repr

mutual

/-- The `response` of a `ResponseOp`. -/
inductive ResponseOp where
  | notSet
  | range (rsp : RangeResponse)
  | put (rsp : PutResponse)
  | deleteRange (rsp : DeleteRangeResponse)
  | txn (rsp : TxnResponse)

structure TxnResponse where
  header : ResponseHeader := {}
  succeeded : Bool := false
  responses : List ResponseOp := []

end

/-! ## The server -/

/-- What a server does with the requests that are not transactions; `none`
is an error. The guard of a nested transaction may be tested on the state
before all of the transaction or on the one its operations find: `compare`
takes both. -/
structure Handlers (σ : Type*) where
  header : σ → ResponseHeader
  compare : σ → σ → Compare → Bool
  range : RangeRequest → σ → Option RangeResponse
  put : PutRequest → σ → Option (PutResponse × σ)
  deleteRange : DeleteRangeRequest → σ → Option (DeleteRangeResponse × σ)

namespace Handlers

variable {σ : Type*}

mutual

def runOp (S : Handlers σ) (s₀ : σ) : RequestOp → σ → Option (ResponseOp × σ)
  | .notSet, _ => none
  | .range req, s => (S.range req s).map fun rsp => (.range rsp, s)
  | .put req, s => (S.put req s).map fun r => (.put r.1, r.2)
  | .deleteRange req, s => (S.deleteRange req s).map fun r => (.deleteRange r.1, r.2)
  | .txn req, s => (S.runTxn s₀ req s).map fun r => (.txn r.1, r.2)

/-- "the success requests will be processed in order, and the response will
contain their respective responses in order" -/
def runOps (S : Handlers σ) (s₀ : σ) : List RequestOp → σ → Option (List ResponseOp × σ)
  | [], s => some ([], s)
  | op :: ops, s =>
      (S.runOp s₀ op s).bind fun r => (S.runOps s₀ ops r.2).map fun rs => (r.1 :: rs.1, rs.2)

/-- "compare is a list of predicates representing a conjunction of terms" -/
def runTxn (S : Handlers σ) (s₀ : σ) : TxnRequest → σ → Option (TxnResponse × σ)
  | ⟨compare, success, failure⟩, s =>
      let succeeded := compare.all (S.compare s₀ s)
      (if succeeded then S.runOps s₀ success s else S.runOps s₀ failure s).map fun r =>
        (⟨S.header r.2, succeeded, r.1⟩, r.2)

end

end Handlers

/-! ## What a transaction keeps -/

namespace Handlers

variable {σ : Type*} {P : σ → Prop}

mutual

/-- What the single requests keep, an operation keeps. -/
theorem runOp_keeps (S : Handlers σ) (s₀ : σ)
    (hput : ∀ {req s r}, P s → S.put req s = some r → P r.2)
    (hdelete : ∀ {req s r}, P s → S.deleteRange req s = some r → P r.2) :
    ∀ (op : RequestOp) {s : σ} {r : ResponseOp × σ}, P s → S.runOp s₀ op s = some r → P r.2
  | .notSet, _, _, _, h => by
      rw [runOp] at h
      cases h
  | .range req, s, r, hs, h => by
      rw [runOp] at h
      obtain ⟨_, _, rfl⟩ := Option.map_eq_some_iff.mp h
      exact hs
  | .put req, s, r, hs, h => by
      rw [runOp] at h
      obtain ⟨_, hr, rfl⟩ := Option.map_eq_some_iff.mp h
      exact hput hs hr
  | .deleteRange req, s, r, hs, h => by
      rw [runOp] at h
      obtain ⟨_, hr, rfl⟩ := Option.map_eq_some_iff.mp h
      exact hdelete hs hr
  | .txn req, s, r, hs, h => by
      rw [runOp] at h
      obtain ⟨_, hr, rfl⟩ := Option.map_eq_some_iff.mp h
      exact runTxn_keeps S s₀ hput hdelete req hs hr

theorem runOps_keeps (S : Handlers σ) (s₀ : σ)
    (hput : ∀ {req s r}, P s → S.put req s = some r → P r.2)
    (hdelete : ∀ {req s r}, P s → S.deleteRange req s = some r → P r.2) :
    ∀ (ops : List RequestOp) {s : σ} {r : List ResponseOp × σ},
      P s → S.runOps s₀ ops s = some r → P r.2
  | [], s, r, hs, h => by
      rw [runOps] at h
      cases h
      exact hs
  | op :: ops, s, r, hs, h => by
      rw [runOps, Option.bind_eq_some_iff] at h
      obtain ⟨r₁, hr₁, hrest⟩ := h
      obtain ⟨r₂, hr₂, rfl⟩ := Option.map_eq_some_iff.mp hrest
      show P r₂.2
      exact runOps_keeps S s₀ hput hdelete ops (runOp_keeps S s₀ hput hdelete op hs hr₁) hr₂

theorem runTxn_keeps (S : Handlers σ) (s₀ : σ)
    (hput : ∀ {req s r}, P s → S.put req s = some r → P r.2)
    (hdelete : ∀ {req s r}, P s → S.deleteRange req s = some r → P r.2) :
    ∀ (req : TxnRequest) {s : σ} {r : TxnResponse × σ},
      P s → S.runTxn s₀ req s = some r → P r.2
  | ⟨compare, success, failure⟩, s, r, hs, h => by
      rw [runTxn] at h
      obtain ⟨r', hr, rfl⟩ := Option.map_eq_some_iff.mp h
      by_cases hsucceeded : compare.all (S.compare s₀ s) = true
      · rw [if_pos hsucceeded] at hr
        exact runOps_keeps S s₀ hput hdelete success hs hr
      · rw [if_neg hsucceeded] at hr
        exact runOps_keeps S s₀ hput hdelete failure hs hr

end

end Handlers

/-! ## The calls -/

/-- The call adds an operation to the branch that is taken. -/
def TxnCall.inBranch (succeeded : Bool) (c : TxnCall) : Bool :=
  if succeeded then c.isThen else c.isElse

namespace Handlers

variable {σ : Type*}

/-- All the `If`s of a sequence hold. -/
def guard (S : Handlers σ) (s₀ s : σ) (cs : List TxnCall) : Bool :=
  (cs.filterMap compare?).all (S.compare s₀ s)

mutual

/-- A `Then` or `Else` call, as if `Client` sent its operation alone. -/
def perform (S : Handlers σ) (s₀ : σ) : TxnCall → σ → Option (ResponseOp × σ)
  | .if_ _, _ => none
  | .thenRange key options, s | .elseRange key options, s =>
      (S.range (Client.rangeRequest key options) s).map fun rsp => (.range rsp, s)
  | .thenPut key value options, s | .elsePut key value options, s =>
      (S.put (Client.putRequest key value options) s).map fun r => (.put r.1, r.2)
  | .thenDeleteRange key options, s | .elseDeleteRange key options, s =>
      (S.deleteRange (Client.deleteRangeRequest key options) s).map fun r =>
        (.deleteRange r.1, r.2)
  | .then_ txn, s | .else_ txn, s =>
      (S.performCalls s₀ (S.guard s₀ s txn) txn s).map fun r =>
        (.txn ⟨S.header r.2, S.guard s₀ s txn, r.1⟩, r.2)

/-- The calls of one branch, in call order; the others are passed over. -/
def performCalls (S : Handlers σ) (s₀ : σ) :
    Bool → List TxnCall → σ → Option (List ResponseOp × σ)
  | _, [], s => some ([], s)
  | succeeded, c :: cs, s =>
      if c.inBranch succeeded then
        (S.perform s₀ c s).bind fun r =>
          (S.performCalls s₀ succeeded cs r.2).map fun rs => (r.1 :: rs.1, rs.2)
      else S.performCalls s₀ succeeded cs s

end

/-- What a sequence of calls asks for: the branch that its `If`s select. -/
def performTxn (S : Handlers σ) (s₀ : σ) (cs : List TxnCall) (s : σ) :
    Option (TxnResponse × σ) :=
  (S.performCalls s₀ (S.guard s₀ s cs) cs s).map fun r =>
    (⟨S.header r.2, S.guard s₀ s cs, r.1⟩, r.2)

/-! ## The builder -/

/-- A `Then` adds to the first branch, an `Else` to the second. -/
theorem branch_build (S : Handlers σ) (s₀ : σ) (cs : List TxnCall) (s : σ) :
    ∃ ops, List.Forall₂ Sends (cs.filter (inBranch (S.guard s₀ s cs))) ops ∧
      S.runTxn s₀ (Txn.build cs).getRequest s = (S.runOps s₀ ops s).map fun r =>
        (⟨S.header r.2, S.guard s₀ s cs, r.1⟩, r.2) := by
  obtain ⟨hcompare, ⟨thens, hthens, hsuccess⟩, elses, helses, hfailure⟩ := adds_calls cs {}
  have hreq : (Txn.build cs).getRequest = ⟨cs.filterMap compare?, thens, elses⟩ :=
    txnRequest_ext hcompare hthens helses
  have hguard : (cs.filterMap compare?).all (S.compare s₀ s) = S.guard s₀ s cs := rfl
  rw [hreq, runTxn]
  simp only [hguard]
  cases S.guard s₀ s cs with
  | true => exact ⟨thens, hsuccess, rfl⟩
  | false => exact ⟨elses, hfailure, rfl⟩

mutual

/-- The request of a call runs as the call asks. -/
theorem runOp_sends (S : Handlers σ) (s₀ : σ) :
    ∀ (c : TxnCall) {op : RequestOp} (_ : Sends c op) (s : σ),
      S.runOp s₀ op s = S.perform s₀ c s
  | .thenRange _ _, _, .thenRange, s => by rw [runOp, perform]
  | .thenPut _ _ _, _, .thenPut, s => by rw [runOp, perform]
  | .thenDeleteRange _ _, _, .thenDeleteRange, s => by rw [runOp, perform]
  | .elseRange _ _, _, .elseRange, s => by rw [runOp, perform]
  | .elsePut _ _ _, _, .elsePut, s => by rw [runOp, perform]
  | .elseDeleteRange _ _, _, .elseDeleteRange, s => by rw [runOp, perform]
  | .then_ txn, _, .then_, s => by
      obtain ⟨ops, hsends, hrun⟩ := S.branch_build s₀ txn s
      rw [runOp, Client.txnRequest, hrun, runOps_sends S s₀ txn hsends s, perform]
      simp only [Option.map_map, Function.comp_def]
  | .else_ txn, _, .else_, s => by
      obtain ⟨ops, hsends, hrun⟩ := S.branch_build s₀ txn s
      rw [runOp, Client.txnRequest, hrun, runOps_sends S s₀ txn hsends s, perform]
      simp only [Option.map_map, Function.comp_def]

/-- The same for the calls of a branch, in order. -/
theorem runOps_sends (S : Handlers σ) (s₀ : σ) :
    ∀ (cs : List TxnCall) {succeeded : Bool} {ops : List RequestOp}
      (_ : List.Forall₂ Sends (cs.filter (inBranch succeeded)) ops) (s : σ),
      S.runOps s₀ ops s = S.performCalls s₀ succeeded cs s
  | [], _, _, .nil, s => by rw [runOps, performCalls]
  | c :: cs, succeeded, ops, hsends, s => by
      rw [performCalls]
      by_cases hin : c.inBranch succeeded = true
      · rw [List.filter_cons_of_pos hin] at hsends
        cases hsends with
        | cons hop hops =>
          rw [if_pos hin, runOps, runOp_sends S s₀ c hop s]
          congr 1
          funext r
          rw [runOps_sends S s₀ cs hops r.2]
      · rw [List.filter_cons_of_neg hin] at hsends
        rw [if_neg hin]
        exact runOps_sends S s₀ cs hsends s

end

/-- **A transaction does what its calls ask for.** What `Client::Txn` sends
for a sequence of builder calls makes a server, whatever the single requests
and comparisons mean to it, do as if the calls themselves were carried out:
all `If`s tested, wherever they stand in the sequence; then the `Then` calls,
or the `Else` calls, one after the other as `Client` would send them alone,
transactions within transactions in the same way. -/
theorem runTxn_build (S : Handlers σ) (cs : List TxnCall) (s : σ) :
    S.runTxn s (Client.txnRequest (Txn.build cs)) s = S.performTxn s cs s := by
  obtain ⟨ops, hsends, hrun⟩ := S.branch_build s cs s
  rw [Client.txnRequest, hrun, runOps_sends S s cs hsends s]
  rfl

end Handlers

/-! ## The responses -/

/-- A response is of the kind that a call asks for; that of a transaction
has one response for each call of the branch it took. -/
inductive Replies : TxnCall → ResponseOp → Prop where
  | thenRange {k o rsp} : Replies (.thenRange k o) (.range rsp)
  | thenPut {k v o rsp} : Replies (.thenPut k v o) (.put rsp)
  | thenDeleteRange {k o rsp} : Replies (.thenDeleteRange k o) (.deleteRange rsp)
  | then_ {txn rsp} :
      List.Forall₂ Replies (txn.filter (inBranch rsp.succeeded)) rsp.responses →
      Replies (.then_ txn) (.txn rsp)
  | elseRange {k o rsp} : Replies (.elseRange k o) (.range rsp)
  | elsePut {k v o rsp} : Replies (.elsePut k v o) (.put rsp)
  | elseDeleteRange {k o rsp} : Replies (.elseDeleteRange k o) (.deleteRange rsp)
  | else_ {txn rsp} :
      List.Forall₂ Replies (txn.filter (inBranch rsp.succeeded)) rsp.responses →
      Replies (.else_ txn) (.txn rsp)

namespace Handlers

variable {σ : Type*}

mutual

/-- A call that is carried out is replied to. -/
theorem replies_perform (S : Handlers σ) (s₀ : σ) :
    ∀ (c : TxnCall) {s s' : σ} {rsp : ResponseOp} (_ : S.perform s₀ c s = some (rsp, s')),
      Replies c rsp
  | .if_ _, _, _, _, h => by cases h
  | .thenRange _ _, _, _, _, h => by
      obtain ⟨_, _, heq⟩ := Option.map_eq_some_iff.mp h
      cases heq
      exact .thenRange
  | .thenPut _ _ _, _, _, _, h => by
      obtain ⟨_, _, heq⟩ := Option.map_eq_some_iff.mp h
      cases heq
      exact .thenPut
  | .thenDeleteRange _ _, _, _, _, h => by
      obtain ⟨_, _, heq⟩ := Option.map_eq_some_iff.mp h
      cases heq
      exact .thenDeleteRange
  | .elseRange _ _, _, _, _, h => by
      obtain ⟨_, _, heq⟩ := Option.map_eq_some_iff.mp h
      cases heq
      exact .elseRange
  | .elsePut _ _ _, _, _, _, h => by
      obtain ⟨_, _, heq⟩ := Option.map_eq_some_iff.mp h
      cases heq
      exact .elsePut
  | .elseDeleteRange _ _, _, _, _, h => by
      obtain ⟨_, _, heq⟩ := Option.map_eq_some_iff.mp h
      cases heq
      exact .elseDeleteRange
  | .then_ txn, _, _, _, h => by
      rw [perform] at h
      obtain ⟨⟨rs, s'⟩, hcalls, heq⟩ := Option.map_eq_some_iff.mp h
      cases heq
      exact .then_ (replies_calls S s₀ txn hcalls)
  | .else_ txn, _, _, _, h => by
      rw [perform] at h
      obtain ⟨⟨rs, s'⟩, hcalls, heq⟩ := Option.map_eq_some_iff.mp h
      cases heq
      exact .else_ (replies_calls S s₀ txn hcalls)

theorem replies_calls (S : Handlers σ) (s₀ : σ) :
    ∀ (cs : List TxnCall) {succeeded : Bool} {s s' : σ} {rs : List ResponseOp}
      (_ : S.performCalls s₀ succeeded cs s = some (rs, s')),
      List.Forall₂ Replies (cs.filter (inBranch succeeded)) rs
  | [], _, _, _, _, h => by
      rw [performCalls] at h
      cases h
      exact .nil
  | c :: cs, succeeded, s, s', rs, h => by
      rw [performCalls] at h
      by_cases hin : c.inBranch succeeded = true
      · rw [if_pos hin, Option.bind_eq_some_iff] at h
        obtain ⟨⟨r, s₁⟩, hr, hrest⟩ := h
        obtain ⟨⟨rs', s₂⟩, hrs, heq⟩ := Option.map_eq_some_iff.mp hrest
        cases heq
        rw [List.filter_cons_of_pos hin]
        exact .cons (replies_perform S s₀ c hr) (replies_calls S s₀ cs hrs)
      · rw [if_neg hin] at h
        rw [List.filter_cons_of_neg hin]
        exact replies_calls S s₀ cs h

end

/-- **The responses of a transaction line up with its calls.** `succeeded`
says whether all `If`s hold, and the responses are one for each `Then` call
then, one for each `Else` call otherwise, in call order and of the kind of
the call, down through the transactions within. -/
theorem txn_responses_line_up (S : Handlers σ) (cs : List TxnCall) {s s' : σ}
    {rsp : TxnResponse} (h : S.runTxn s (Client.txnRequest (Txn.build cs)) s = some (rsp, s')) :
    rsp.succeeded = (cs.filterMap compare?).all (S.compare s s) ∧
      List.Forall₂ Replies (cs.filter fun c => if rsp.succeeded then c.isThen else c.isElse)
        rsp.responses := by
  obtain ⟨ops, hsends, hrun⟩ := S.branch_build s cs s
  rw [Client.txnRequest, hrun, runOps_sends S s cs hsends s] at h
  obtain ⟨⟨rs, s₁⟩, hcalls, heq⟩ := Option.map_eq_some_iff.mp h
  cases heq
  exact ⟨rfl, S.replies_calls s cs hcalls⟩

end Handlers

/-- A server that knows one key, with values only. -/
def oneKey (key : Bytes) : Handlers Bytes where
  header _ := {}
  compare _ s c := c.key = key ∧ c.targetUnion = .value s
  range req s := some { kvs := if Requests req key then [{ key := key, value := s }] else [] }
  put req _ := if req.key = key then some ({}, req.value) else none
  deleteRange _ _ := none

/-- A compare-and-swap with a read in each branch, called in an order that
mixes the branches. -/
def swapCalls : List TxnCall :=
  [.elseRange [0x6b] {}, .thenPut [0x6b] [2] {},
    .if_ { key := [0x6b], target := .value, targetUnion := .value [1] },
    .then_ [.elseRange [0x6c] {}, .thenRange [0x6b] {}]]

theorem txn_responses_line_up_swap :
    ∃ rsp s', (oneKey [0x6b]).runTxn [1] (Client.txnRequest (Txn.build swapCalls)) [1]
        = some (rsp, s') ∧
      s' = [2] ∧ rsp.succeeded = true ∧ rsp.responses.length = 2 := by
  have hrun : (oneKey [0x6b]).runTxn [1] (Client.txnRequest (Txn.build swapCalls)) [1]
      = some (⟨{}, true, [.put {}, .txn ⟨{}, true,
          [.range { kvs := [{ key := [0x6b], value := [2] }] }]⟩]⟩, [2]) := rfl
  obtain ⟨hsucceeded, hreplies⟩ := Handlers.txn_responses_line_up (oneKey [0x6b]) swapCalls hrun
  exact ⟨_, _, hrun, rfl, hsucceeded, hreplies.length_eq.symm⟩

end Etcdv3Client
