import Etcdv3Client.KV

/-!
# kv.h: the transaction builder

`Txn` fills its message call by call, with code of its own for every kind
of operation; `Client` has another copy of that code for the same
operations sent alone. The sequences of calls are data here, with the
transactions that are arguments as the calls made on them before.
-/

namespace Etcdv3Client

/-! ## The accessors protoc generates -/

namespace RequestOp

/-- `mutable_request_range()`: what `f` does to the message it points to, a
new one where another member of the oneof was set. -/
def mutableRequestRange (f : RangeRequest → RangeRequest) : RequestOp → RequestOp
  | .range req => .range (f req)
  | _ => .range (f {})

def mutableRequestPut (f : PutRequest → PutRequest) : RequestOp → RequestOp
  | .put req => .put (f req)
  | _ => .put (f {})

def mutableRequestDeleteRange (f : DeleteRangeRequest → DeleteRangeRequest) :
    RequestOp → RequestOp
  | .deleteRange req => .deleteRange (f req)
  | _ => .deleteRange (f {})

def mutableRequestTxn (f : TxnRequest → TxnRequest) : RequestOp → RequestOp
  | .txn req => .txn (f req)
  | _ => .txn (f {})

end RequestOp

namespace TxnRequest

def addCompare (compare : Compare) (req : TxnRequest) : TxnRequest :=
  { req with compare := req.compare ++ [compare] }

/-- `add_success()`: a new operation at the end, and what `f` does to it. -/
def addSuccess (f : RequestOp → RequestOp) (req : TxnRequest) : TxnRequest :=
  { req with success := req.success ++ [f .notSet] }

def addFailure (f : RequestOp → RequestOp) (req : TxnRequest) : TxnRequest :=
  { req with failure := req.failure ++ [f .notSet] }

end TxnRequest

/-! ## Txn -/

structure Txn where
  request : TxnRequest := {}

namespace Txn

def getRequest (t : Txn) : TxnRequest := t.request

/-- `If`; the overload that takes an rvalue copies it too. -/
def if_ (compare : Compare) (t : Txn) : Txn := ⟨t.request.addCompare compare⟩

def then_ (t txn : Txn) : Txn :=
  ⟨t.request.addSuccess (RequestOp.mutableRequestTxn fun _ => txn.getRequest)⟩

def thenRange (key : Bytes) (options : RangeOptions) (t : Txn) : Txn :=
  ⟨t.request.addSuccess (RequestOp.mutableRequestRange fun req =>
    options.apply { req with key := key })⟩

def thenPut (key value : Bytes) (options : PutOptions) (t : Txn) : Txn :=
  ⟨t.request.addSuccess (RequestOp.mutableRequestPut fun req =>
    options.apply { req with key := key, value := value })⟩

def thenDeleteRange (key : Bytes) (options : DeleteRangeOptions) (t : Txn) : Txn :=
  ⟨t.request.addSuccess (RequestOp.mutableRequestDeleteRange fun req =>
    options.apply { req with key := key })⟩

def else_ (t txn : Txn) : Txn :=
  ⟨t.request.addFailure (RequestOp.mutableRequestTxn fun _ => txn.getRequest)⟩

def elseRange (key : Bytes) (options : RangeOptions) (t : Txn) : Txn :=
  ⟨t.request.addFailure (RequestOp.mutableRequestRange fun req =>
    options.apply { req with key := key })⟩

def elsePut (key value : Bytes) (options : PutOptions) (t : Txn) : Txn :=
  ⟨t.request.addFailure (RequestOp.mutableRequestPut fun req =>
    options.apply { req with key := key, value := value })⟩

def elseDeleteRange (key : Bytes) (options : DeleteRangeOptions) (t : Txn) : Txn :=
  ⟨t.request.addFailure (RequestOp.mutableRequestDeleteRange fun req =>
    options.apply { req with key := key })⟩

end Txn

/-- The request of `Client::Txn`. -/
def Client.txnRequest (txn : Txn) : TxnRequest := txn.getRequest

/-! ## The calls -/

/-- A builder call; an argument that is a `Txn` stands as the calls that
built it. -/
inductive TxnCall where
  | if_ (compare : Compare)
  | then_ (txn : List TxnCall)
  | thenRange (key : Bytes) (options : RangeOptions)
  | thenPut (key value : Bytes) (options : PutOptions)
  | thenDeleteRange (key : Bytes) (options : DeleteRangeOptions)
  | else_ (txn : List TxnCall)
  | elseRange (key : Bytes) (options : RangeOptions)
  | elsePut (key value : Bytes) (options : PutOptions)
  | elseDeleteRange (key : Bytes) (options : DeleteRangeOptions)

mutual

/-- The builder call, on a `Txn`. -/
def TxnCall.call : TxnCall → Txn → Txn
  | .if_ compare, t => t.if_ compare
  | .then_ txn, t => t.then_ (Txn.calls txn {})
  | .thenRange key options, t => t.thenRange key options
  | .thenPut key value options, t => t.thenPut key value options
  | .thenDeleteRange key options, t => t.thenDeleteRange key options
  | .else_ txn, t => t.else_ (Txn.calls txn {})
  | .elseRange key options, t => t.elseRange key options
  | .elsePut key value options, t => t.elsePut key value options
  | .elseDeleteRange key options, t => t.elseDeleteRange key options

/-- One call after the other. -/
def Txn.calls : List TxnCall → Txn → Txn
  | [], t => t
  | c :: cs, t => Txn.calls cs (c.call t)

end

/-- The `Txn` that a sequence of calls builds. -/
def Txn.build (cs : List TxnCall) : Txn := Txn.calls cs {}

/-! ## What the calls are for -/

namespace TxnCall

/-- The argument of an `If`. -/
def compare? : TxnCall → Option Compare
  | .if_ compare => some compare
  | _ => none

def isThen : TxnCall → Bool
  | .then_ _ | .thenRange _ _ | .thenPut _ _ _ | .thenDeleteRange _ _ => true
  | _ => false

def isElse : TxnCall → Bool
  | .else_ _ | .elseRange _ _ | .elsePut _ _ _ | .elseDeleteRange _ _ => true
  | _ => false

/-- The operation is the request that `Client` would send for the arguments
of the call. -/
inductive Sends : TxnCall → RequestOp → Prop where
  | then_ {txn} : Sends (.then_ txn) (.txn (Client.txnRequest (Txn.build txn)))
  | thenRange {k o} : Sends (.thenRange k o) (.range (Client.rangeRequest k o))
  | thenPut {k v o} : Sends (.thenPut k v o) (.put (Client.putRequest k v o))
  | thenDeleteRange {k o} :
      Sends (.thenDeleteRange k o) (.deleteRange (Client.deleteRangeRequest k o))
  | else_ {txn} : Sends (.else_ txn) (.txn (Client.txnRequest (Txn.build txn)))
  | elseRange {k o} : Sends (.elseRange k o) (.range (Client.rangeRequest k o))
  | elsePut {k v o} : Sends (.elsePut k v o) (.put (Client.putRequest k v o))
  | elseDeleteRange {k o} :
      Sends (.elseDeleteRange k o) (.deleteRange (Client.deleteRangeRequest k o))

theorem Sends.unique {c : TxnCall} {op op' : RequestOp} (h : Sends c op) (h' : Sends c op') :
    op = op' := by
  cases h <;> cases h' <;> rfl

/-- **What one call does**: it adds one element to one of the lists, and
leaves the other two. -/
theorem call_cases (c : TxnCall) (t : Txn) :
    (∃ compare, c.compare? = some compare ∧ c.isThen = false ∧ c.isElse = false ∧
      (c.call t).request = { t.request with compare := t.request.compare ++ [compare] }) ∨
    (∃ op, Sends c op ∧ c.compare? = none ∧ c.isThen = true ∧ c.isElse = false ∧
      (c.call t).request = { t.request with success := t.request.success ++ [op] }) ∨
    (∃ op, Sends c op ∧ c.compare? = none ∧ c.isThen = false ∧ c.isElse = true ∧
      (c.call t).request = { t.request with failure := t.request.failure ++ [op] }) := by
  cases c with
  | if_ compare => exact Or.inl ⟨compare, rfl, rfl, rfl, rfl⟩
  | then_ txn => exact Or.inr (Or.inl ⟨_, .then_, rfl, rfl, rfl, by rw [call]; rfl⟩)
  | thenRange => exact Or.inr (Or.inl ⟨_, .thenRange, rfl, rfl, rfl, rfl⟩)
  | thenPut => exact Or.inr (Or.inl ⟨_, .thenPut, rfl, rfl, rfl, rfl⟩)
  | thenDeleteRange => exact Or.inr (Or.inl ⟨_, .thenDeleteRange, rfl, rfl, rfl, rfl⟩)
  | else_ txn => exact Or.inr (Or.inr ⟨_, .else_, rfl, rfl, rfl, by rw [call]; rfl⟩)
  | elseRange => exact Or.inr (Or.inr ⟨_, .elseRange, rfl, rfl, rfl, rfl⟩)
  | elsePut => exact Or.inr (Or.inr ⟨_, .elsePut, rfl, rfl, rfl, rfl⟩)
  | elseDeleteRange => exact Or.inr (Or.inr ⟨_, .elseDeleteRange, rfl, rfl, rfl, rfl⟩)

end TxnCall

open TxnCall

/-- The lists that a sequence of calls adds. -/
structure Adds (cs : List TxnCall) (t t' : Txn) : Prop where
  compare : t'.request.compare = t.request.compare ++ cs.filterMap compare?
  success : ∃ ops, t'.request.success = t.request.success ++ ops ∧
    List.Forall₂ Sends (cs.filter isThen) ops
  failure : ∃ ops, t'.request.failure = t.request.failure ++ ops ∧
    List.Forall₂ Sends (cs.filter isElse) ops

theorem adds_calls (cs : List TxnCall) (t : Txn) : Adds cs t (Txn.calls cs t) := by
  induction cs generalizing t with
  | nil =>
    constructor
    · simp [Txn.calls]
    · exact ⟨[], by simp [Txn.calls], .nil⟩
    · exact ⟨[], by simp [Txn.calls], .nil⟩
  | cons c cs ih =>
    obtain ⟨hcompare, ⟨thens, hthens, hsuccess⟩, elses, helses, hfailure⟩ := ih (c.call t)
    rw [Txn.calls]
    rcases call_cases c t with ⟨compare, hc, hthen, helse, hreq⟩ |
      ⟨op, hop, hc, hthen, helse, hreq⟩ | ⟨op, hop, hc, hthen, helse, hreq⟩
    · -- `If`
      rw [hreq] at hcompare hthens helses
      constructor
      · simp [hcompare, hc]
      · exact ⟨thens, hthens, by simpa [hthen] using hsuccess⟩
      · exact ⟨elses, helses, by simpa [helse] using hfailure⟩
    · -- a `Then`
      rw [hreq] at hcompare hthens helses
      constructor
      · simp [hcompare, hc]
      · exact ⟨op :: thens, by simp [hthens], by simpa [hthen] using ⟨hop, hsuccess⟩⟩
      · exact ⟨elses, helses, by simpa [helse] using hfailure⟩
    · -- an `Else`
      rw [hreq] at hcompare hthens helses
      constructor
      · simp [hcompare, hc]
      · exact ⟨thens, hthens, by simpa [hthen] using hsuccess⟩
      · exact ⟨op :: elses, by simp [helses], by simpa [helse] using ⟨hop, hfailure⟩⟩

/-! ## Main result -/

theorem txnRequest_ext {req req' : TxnRequest} (hcompare : req.compare = req'.compare)
    (hsuccess : req.success = req'.success) (hfailure : req.failure = req'.failure) :
    req = req' := by
  obtain ⟨_, _, _⟩ := req
  obtain ⟨_, _, _⟩ := req'
  rw [TxnRequest.mk.injEq]
  exact ⟨hcompare, hsuccess, hfailure⟩

/-- A sequence of calls determines what it sends. -/
theorem sends_unique {cs : List TxnCall} {ops ops' : List RequestOp}
    (h : List.Forall₂ Sends cs ops) (h' : List.Forall₂ Sends cs ops') : ops = ops' := by
  induction h generalizing ops' with
  | nil =>
    cases h'
    rfl
  | cons hop _ ih =>
    cases h' with
    | cons hop' hops' => rw [hop.unique hop', ih hops']

/-- **The transaction builder is faithful.** The compare list is the
arguments of `If` in call order; the success and failure lists have one
operation for each `Then` and `Else` call, in call order, each the request
that `Client` would send for the same arguments. So sequences with the same
calls of each of the three kinds build the same request. -/
theorem txn_builder_faithful (cs : List TxnCall) :
    (Txn.build cs).getRequest.compare = cs.filterMap compare? ∧
    List.Forall₂ Sends (cs.filter isThen) (Txn.build cs).getRequest.success ∧
    List.Forall₂ Sends (cs.filter isElse) (Txn.build cs).getRequest.failure ∧
    ∀ ds : List TxnCall, cs.filterMap compare? = ds.filterMap compare? →
      cs.filter isThen = ds.filter isThen → cs.filter isElse = ds.filter isElse →
      (Txn.build cs).getRequest = (Txn.build ds).getRequest := by
  have hlists : ∀ cs, (Txn.build cs).getRequest.compare = cs.filterMap compare? ∧
      List.Forall₂ Sends (cs.filter isThen) (Txn.build cs).getRequest.success ∧
      List.Forall₂ Sends (cs.filter isElse) (Txn.build cs).getRequest.failure := by
    intro cs
    obtain ⟨hcompare, ⟨thens, hthens, hsuccess⟩, elses, helses, hfailure⟩ := adds_calls cs {}
    exact ⟨hcompare, hthens ▸ hsuccess, helses ▸ hfailure⟩
  obtain ⟨hcompare, hsuccess, hfailure⟩ := hlists cs
  refine ⟨hcompare, hsuccess, hfailure, ?_⟩
  intro ds hif hthen helse
  obtain ⟨hcompare', hsuccess', hfailure'⟩ := hlists ds
  rw [hthen] at hsuccess
  rw [helse] at hfailure
  rw [hif] at hcompare
  exact txnRequest_ext (hcompare.trans hcompare'.symm) (sends_unique hsuccess hsuccess')
    (sends_unique hfailure hfailure')

/-- Two orders of the same calls, one of them with a transaction of its own. -/
theorem txn_builder_faithful_interleaved :
    (Txn.build [.thenRange [0x61] {}, .if_ {}, .else_ [.if_ {}, .elsePut [0x62] [] {}]]).getRequest
      = (Txn.build [.else_ [.if_ {}, .elsePut [0x62] [] {}], .if_ {},
          .thenRange [0x61] {}]).getRequest :=
  (txn_builder_faithful _).2.2.2 _ rfl rfl rfl

end Etcdv3Client
