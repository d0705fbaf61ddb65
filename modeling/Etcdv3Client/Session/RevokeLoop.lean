import Mathlib.Data.ENat.Lattice
import Etcdv3Client.Session.System

/-!
# session.cc: TryRevoke and its counter

The worker's machine counts in integers. Here the function stands alone,
with its two `int`s as the 32-bit words they are and an endless supply of
replies: it is the worker's loop up to the overflow of `retry_times`, and
has no meaning from there. The counter is incremented before it is compared
by `<=`, so that only the largest budget, spent to its end, overflows it.
-/

namespace Etcdv3Client

open Transition

/-! ## int -/

/-- `++n`. The overflow of an `int` is undefined. -/
def incr (n : Int32) : Option Int32 :=
  if n = Int32.maxValue then none else some (n + 1)

theorem eq_maxValue_iff {n : Int32} : n = Int32.maxValue ↔ n.toInt = 2147483647 := by
  rw [← Int32.toInt_inj]
  exact Iff.rfl

theorem toInt_incr {n n' : Int32} (h0 : 0 ≤ n.toInt) (h : incr n = some n') :
    n'.toInt = n.toInt + 1 := by
  unfold incr at h
  split at h
  · cases h
  · rename_i hne
    cases h
    have hmax := mt eq_maxValue_iff.mpr hne
    have hlt := n.toInt_lt
    have hone : (1 : Int32).toInt = 1 := rfl
    rw [Int32.toInt_add, hone]
    exact Int.bmod_eq_of_le (by omega) (by omega)

/-! ## The function -/

section
variable {B : BackOffStrategy}

/-- Where `TryRevoke` is, with its locals `retry_times` and `backoff`. -/
inductive RevokePc (B : BackOffStrategy) where
  /-- `client_->LeaseRevoke(...)` -/
  | leaseRevoke (retryTimes : Int32) (b : B.State)
  /-- `sleep_for(backoff.Next())` -/
  | sleep (retryTimes : Int32) (d : ℚ) (b : B.State)
  | returned
  /-- `++retry_times` has overflowed -/
  | overflow

/-- `TryRevoke` under way: the session, `revoke_max_retry_times`, and the
requests sent, newest first. -/
structure RevokeLoop (B : BackOffStrategy) where
  session : Session
  maxRetryTimes : Int32
  pc : RevokePc B
  sent : List LeaseRevokeRequest := []

/-- "Revoked or lease not found both are ok". -/
abbrev RevokeOk (code : GrpcCode) : Prop := code = .ok ∨ code = .notFound

/-- `revoke_max_retry_times` after `if (!revoke_max_retry_times)`. -/
def revokeMax (n : Int32) : Int32 :=
  if n = 0 then Int32.ofInt revokeDefaultMaxRetryTimes else n

/-- `while (++retry_times <= revoke_max_retry_times)`. -/
def nextTry (maxRetryTimes retryTimes : Int32) (b : B.State) : RevokePc B :=
  match incr retryTimes with
  | none => .overflow
  | some n => if n ≤ maxRetryTimes then .leaseRevoke n b else .returned

namespace RevokeLoop

/-- Entry of `TryRevoke`. -/
def start (s : Session) (options : SessionOptions) : RevokeLoop B :=
  let m := revokeMax (Int32.ofInt options.revokeMaxRetryTimes)
  { session := s, maxRetryTimes := m,
    pc := nextTry m 0 (B.new options.retryMinWaitTime options.retryMaxWaitTime) }

/-- One step, where the `i`-th request, counted from zero, is answered by
`replies i`. -/
def step (replies : ℕ → GrpcCode) (s : RevokeLoop B) : RevokeLoop B :=
  match s.pc with
  | .leaseRevoke n b =>
      let sent := Client.leaseRevokeRequest s.session.lease :: s.sent
      if RevokeOk (replies s.sent.length) then { s with sent := sent, pc := .returned }
      else
        let p := B.next (B.resetWith false b)
        { s with sent := sent, pc := .sleep n p.1 p.2 }
  | .sleep n _ b => { s with pc := nextTry s.maxRetryTimes n b }
  | .returned => s
  | .overflow => s

/-- After `m` steps. -/
def run (replies : ℕ → GrpcCode) (s : Session) (options : SessionOptions) (m : ℕ) :
    RevokeLoop B :=
  (step replies)^[m] (start s options)

/-- The call is over, or has lost its meaning. -/
def Ended (s : RevokeLoop B) : Prop := s.pc = .returned ∨ s.pc = .overflow

end RevokeLoop

/-! ## The counter -/

theorem toInt_revokeMax (n : Int32) : (revokeMax n).toInt
    = if n.toInt = 0 then revokeDefaultMaxRetryTimes else n.toInt := by
  have hzero : n = 0 ↔ n.toInt = 0 := by
    rw [← Int32.toInt_inj]
    exact Iff.rfl
  unfold revokeMax
  by_cases h : n.toInt = 0
  · rw [if_pos h, if_pos (hzero.mpr h)]
    rfl
  · rw [if_neg h, if_neg (mt hzero.mp h)]

theorem revokeMax_nonneg {n : Int32} (h : 0 ≤ n.toInt) : 0 ≤ (revokeMax n).toInt := by
  rw [toInt_revokeMax]
  split
  · decide
  · exact h

/-- None of the first `j` replies ends the loop. -/
def Failed (replies : ℕ → GrpcCode) (j : ℕ) : Prop := ∀ i < j, ¬ RevokeOk (replies i)

theorem Failed.succ {replies : ℕ → GrpcCode} {j : ℕ} (h : Failed replies j)
    (hj : ¬ RevokeOk (replies j)) : Failed replies (j + 1) := by
  intro i hi
  by_cases heq : i = j
  · exact heq ▸ hj
  · exact h i (by omega)

/-- Where the loop is after `j` requests, with a budget of `n`. -/
def RevokePc.At (replies : ℕ → GrpcCode) (n : Int32) (j : ℕ) : RevokePc B → Prop
  | .leaseRevoke r _ => r.toInt = j + 1 ∧ r.toInt ≤ n.toInt ∧ Failed replies j
  | .sleep r _ _ => r.toInt = j ∧ r.toInt ≤ n.toInt ∧ Failed replies j
  | .returned => n ≠ Int32.maxValue ∧ n.toInt = j ∧ Failed replies j ∨
      ∃ i, j = i + 1 ∧ j ≤ n.toInt ∧ Failed replies i ∧ RevokeOk (replies i)
  | .overflow => n = Int32.maxValue ∧ n.toInt = j ∧ Failed replies j

/-- Every reply but the last was a failure. -/
theorem RevokePc.At.failed {replies : ℕ → GrpcCode} {n : Int32} {j : ℕ} {pc : RevokePc B}
    (h : pc.At replies n j) {i : ℕ} (hlt : i + 1 < j) : ¬ RevokeOk (replies i) := by
  cases pc with
  | returned =>
    rcases h with ⟨-, -, hf⟩ | ⟨k, hk, -, hf, -⟩
    · exact hf i (by omega)
    · exact hf i (by omega)
  | _ => exact h.2.2 i (by omega)

/-- The test of the `while` after `j` failed requests. -/
theorem at_nextTry {replies : ℕ → GrpcCode} {n r : Int32} {b : B.State} {j : ℕ}
    (hr : r.toInt = j) (hle : r.toInt ≤ n.toInt) (hf : Failed replies j) :
    (nextTry n r b).At replies n j := by
  have hn := n.toInt_lt
  unfold nextTry
  split
  · -- the counter is at the largest `int`, and so is the budget
    rename_i hnone
    have hmax : r = Int32.maxValue := by
      by_contra hne
      simp [incr, hne] at hnone
    have hrmax := eq_maxValue_iff.mp hmax
    exact ⟨eq_maxValue_iff.mpr (by omega), by omega, hf⟩
  · rename_i r' hsome
    have hr' := toInt_incr (by omega) hsome
    split
    · rename_i hle'
      exact ⟨by omega, Int32.le_iff_toInt_le.mp hle', hf⟩
    · rename_i hgt
      have hgt' := mt Int32.le_iff_toInt_le.mpr hgt
      have hlt := r'.toInt_lt
      have hne : n ≠ Int32.maxValue := fun hmax => by
        have := eq_maxValue_iff.mp hmax
        omega
      exact Or.inl ⟨hne, by omega, hf⟩

/-- The invariant of the call. -/
structure RevokeLoop.Inv (replies : ℕ → GrpcCode) (s₀ : Session) (n : Int32)
    (s : RevokeLoop B) : Prop where
  session : s.session = s₀
  max : s.maxRetryTimes = n
  ids : ∀ req ∈ s.sent, req.id = s₀.lease
  counter : s.pc.At replies n s.sent.length

namespace RevokeLoop

theorem inv_start (replies : ℕ → GrpcCode) (s : Session) {o : SessionOptions} {n : Int32}
    (hn : o.revokeMaxRetryTimes = n.toInt) (h0 : 0 ≤ n.toInt) :
    (start s o : RevokeLoop B).Inv replies s (revokeMax n) := by
  have hof : Int32.ofInt o.revokeMaxRetryTimes = n := by rw [hn, Int32.ofInt_toInt]
  have hzero : (0 : Int32).toInt = (0 : ℕ) := rfl
  have hle : (0 : Int32).toInt ≤ (revokeMax n).toInt := revokeMax_nonneg h0
  unfold start
  rw [hof]
  exact ⟨rfl, rfl, by simp, at_nextTry hzero hle fun i hi => absurd hi (Nat.not_lt_zero i)⟩

theorem inv_step {replies : ℕ → GrpcCode} {s₀ : Session} {n : Int32} {s : RevokeLoop B}
    (hi : s.Inv replies s₀ n) : (s.step replies).Inv replies s₀ n := by
  obtain ⟨session, m, pc, sent⟩ := s
  obtain ⟨hs, hm, hids, hat⟩ := hi
  dsimp only at hs hm hids hat
  subst hs hm
  have hids' : ∀ req ∈ Client.leaseRevokeRequest session.lease :: sent,
      req.id = session.lease := by
    intro req hreq
    rcases List.mem_cons.mp hreq with rfl | hmem
    · rfl
    · exact hids req hmem
  cases pc with
  | leaseRevoke r b =>
    obtain ⟨hr, hle, hf⟩ := hat
    by_cases hok : RevokeOk (replies sent.length)
    · have hat' : RevokePc.At (B := B) replies m (sent.length + 1) .returned :=
        Or.inr ⟨sent.length, rfl, by omega, hf, hok⟩
      simp only [step, if_pos hok]
      exact ⟨rfl, rfl, hids', hat'⟩
    · simp only [step, if_neg hok]
      exact ⟨rfl, rfl, hids', by simpa using hr, hle, hf.succ hok⟩
  | sleep r d b =>
    obtain ⟨hr, hle, hf⟩ := hat
    exact ⟨rfl, rfl, hids, at_nextTry hr hle hf⟩
  | returned => exact ⟨rfl, rfl, hids, hat⟩
  | overflow => exact ⟨rfl, rfl, hids, hat⟩

theorem inv_run (replies : ℕ → GrpcCode) (s : Session) {o : SessionOptions} {n : Int32}
    (hn : o.revokeMaxRetryTimes = n.toInt) (h0 : 0 ≤ n.toInt) (m : ℕ) :
    (run replies s o m : RevokeLoop B).Inv replies s (revokeMax n) :=
  Function.Iterate.rec (RevokeLoop.Inv replies s (revokeMax n)) (inv_start replies s hn h0)
    (fun _ => inv_step) m

/-- What is left to do: two steps for each request that the budget allows. -/
def left (s : RevokeLoop B) : ℕ :=
  match s.pc with
  | .leaseRevoke _ _ => 2 * (s.maxRetryTimes.toInt.toNat - s.sent.length) + 1
  | .sleep _ _ _ => 2 * (s.maxRetryTimes.toInt.toNat - s.sent.length) + 2
  | .returned | .overflow => 0

theorem left_nextTry (s : RevokeLoop B) (r : Int32) (b : B.State) :
    ({ s with pc := nextTry s.maxRetryTimes r b } : RevokeLoop B).left
      ≤ 2 * (s.maxRetryTimes.toInt.toNat - s.sent.length) + 1 := by
  unfold nextTry
  split
  · simp [left]
  · split <;> simp [left]

theorem left_step {replies : ℕ → GrpcCode} {s₀ : Session} {n : Int32} {s : RevokeLoop B}
    (hi : s.Inv replies s₀ n) (hne : ¬ s.Ended) : (s.step replies).left < s.left := by
  obtain ⟨session, m, pc, sent⟩ := s
  obtain ⟨-, hm, -, hat⟩ := hi
  dsimp only at hm hat
  subst hm
  cases pc with
  | leaseRevoke r b =>
    obtain ⟨hr, hle, -⟩ := hat
    by_cases hok : RevokeOk (replies sent.length)
    · simp [step, if_pos hok, left]
    · simp only [step, if_neg hok, left, List.length_cons]
      omega
  | sleep r d b => exact Nat.lt_succ_of_le (left_nextTry ⟨session, m, .sleep r d b, sent⟩ r b)
  | returned => exact absurd (Or.inl rfl) hne
  | overflow => exact absurd (Or.inr rfl) hne

/-- **The call ends**, one way or the other. -/
theorem exists_ended (replies : ℕ → GrpcCode) (s : Session) {o : SessionOptions} {n : Int32}
    (hn : o.revokeMaxRetryTimes = n.toInt) (h0 : 0 ≤ n.toInt) :
    ∃ m, (run replies s o m : RevokeLoop B).Ended :=
  exists_iterate_of_lt left (fun _ hi hne => ⟨inv_step hi, left_step hi hne⟩)
    (inv_start replies s hn h0)

end RevokeLoop

/-! ## The worker's loop, up to the overflow -/

/-- The counter of the worker's machine. -/
def RevokePc.toPc (maxRetryTimes : Int32) : RevokePc B → Option (Pc B)
  | .leaseRevoke n b => some (.leaseRevoke maxRetryTimes.toInt n.toInt b)
  | .sleep n d b => some (.revokeSleep maxRetryTimes.toInt n.toInt d b)
  | .returned => some .setClosed
  | .overflow => none

/-- Up to the overflow the test of the `while` is the worker's. -/
theorem toPc_nextTry {m n : Int32} {b : B.State} {pc : Pc B} (h0 : 0 ≤ n.toInt)
    (h : (nextTry m n b).toPc m = some pc) : nextRevoke m.toInt n.toInt b = pc := by
  unfold nextTry at h
  unfold nextRevoke
  split at h
  · cases h
  · rename_i n' hn
    rw [← toInt_incr h0 hn]
    split at h
    · rename_i hle
      cases h
      rw [if_pos (Int32.le_iff_toInt_le.mp hle)]
    · rename_i hgt
      cases h
      rw [if_neg (mt Int32.le_iff_toInt_le.mpr hgt)]

namespace RevokeLoop

/-- The call is entered where the worker enters it. -/
theorem toPc_start {s : Session} {o : SessionOptions} {n : Int32}
    (hn : o.revokeMaxRetryTimes = n.toInt) {pc : Pc B}
    (h : (start s o : RevokeLoop B).pc.toPc (start s o : RevokeLoop B).maxRetryTimes = some pc) :
    tryRevoke o = pc := by
  have hof : Int32.ofInt o.revokeMaxRetryTimes = n := by rw [hn, Int32.ofInt_toInt]
  have hbudget : revokeBudget o = (revokeMax n).toInt := by
    rw [toInt_revokeMax, revokeBudget, hn]
  have h0 : 0 ≤ (0 : Int32).toInt := le_refl (0 : Int)
  unfold start at h
  rw [hof] at h
  rw [tryRevoke, hbudget]
  exact toPc_nextTry h0 h

/-- The worker, its session and the requests it has sent, newest first. -/
abbrev Sender (B : BackOffStrategy) := List Request × Session × Worker B

/-- A step of the worker, whatever its call or test answers. -/
def WorkerMoves (x y : Sender B) : Prop :=
  (∃ a, WorkerStep x.2.1 x.2.2 a y.2.1 y.2.2) ∧
    y.1 = (x.2.2.pc.request x.2.1 x.2.2.options).toList ++ x.1

/-- The call seen as the worker, at the counter `pc`. -/
def toSender (s : RevokeLoop B) (o : SessionOptions) (pc : Pc B) : Sender B :=
  (s.sent.map Request.leaseRevoke, s.session, ⟨o, pc⟩)

/-- A step that does not overflow is a step of the worker. -/
theorem step_refines {replies : ℕ → GrpcCode} {s₀ : Session} {n : Int32} {s : RevokeLoop B}
    (hi : s.Inv replies s₀ n) (hne : ¬ s.Ended) (o : SessionOptions) {pc pc' : Pc B}
    (h : s.pc.toPc n = some pc) (h' : (s.step replies).pc.toPc n = some pc') :
    WorkerMoves (s.toSender o pc) ((s.step replies).toSender o pc') := by
  obtain ⟨session, m, p, sent⟩ := s
  obtain ⟨-, hm, -, hat⟩ := hi
  dsimp only at hm hat
  subst hm
  cases p with
  | leaseRevoke r b =>
    cases h
    by_cases hok : RevokeOk (replies sent.length)
    · simp only [step, if_pos hok] at h' ⊢
      cases h'
      exact ⟨⟨_, .revoked hok⟩, rfl⟩
    · simp only [step, if_neg hok] at h' ⊢
      cases h'
      exact ⟨⟨_, .revokeFailed hok⟩, rfl⟩
  | sleep r d b =>
    cases h
    have h0 : 0 ≤ r.toInt := by
      have hr := hat.1
      omega
    have hnext := toPc_nextTry h0 h'
    refine ⟨⟨.slept, workerNext_iff.mp ?_⟩, rfl⟩
    show workerNext session ⟨o, _⟩ .slept = some (session, ⟨o, pc'⟩)
    rw [← hnext]
    rfl
  | returned => exact absurd (Or.inl rfl) hne
  | overflow => exact absurd (Or.inr rfl) hne

/-- **The call is the worker's loop**, as long as its counter does not
overflow: from the entry of `TryRevoke` the worker comes to where the call
is, and sends what the call sends. -/
theorem run_refines (replies : ℕ → GrpcCode) (s : Session) {o : SessionOptions} {n : Int32}
    (hn : o.revokeMaxRetryTimes = n.toInt) (h0 : 0 ≤ n.toInt) (m : ℕ) :
    ∀ pc : Pc B, (run replies s o m : RevokeLoop B).pc.toPc (revokeMax n) = some pc →
      Relation.ReflTransGen WorkerMoves ([], s, ⟨o, tryRevoke o⟩)
        ((run replies s o m : RevokeLoop B).toSender o pc) := by
  induction m with
  | zero =>
    intro pc hpc
    have hmax := (inv_start (B := B) replies s hn h0).max
    rw [toPc_start hn (hmax.symm ▸ hpc)]
    exact .refl
  | succ m ih =>
    intro pc' hpc'
    have hi := inv_run (B := B) replies s hn h0 m
    have hsucc : (run replies s o (m + 1) : RevokeLoop B) = (run replies s o m).step replies :=
      Function.iterate_succ_apply' _ _ _
    rw [hsucc] at hpc' ⊢
    generalize hrun : (run replies s o m : RevokeLoop B) = r at ih hi hpc' ⊢
    by_cases hend : r.Ended
    · -- an ended call stays as it is
      have hstay : r.step replies = r := by
        rcases hend with hret | hover
        · simp [step, hret]
        · simp [step, hover]
      rw [hstay] at hpc' ⊢
      exact ih pc' hpc'
    · cases hpc : r.pc.toPc (revokeMax n) with
      | none =>
        refine absurd ?_ hend
        cases hp : r.pc with
        | overflow => exact Or.inr hp
        | _ => simp [hp, RevokePc.toPc] at hpc
      | some pc => exact (ih pc hpc).tail (step_refines hi hend o hpc hpc')

end RevokeLoop

/-! ## The retry budget -/

/-- The requests that a retry option allows. -/
def retryBudget (n : Int32) : ℕ := if n = 0 then 3 else n.toInt.toNat

/-- The position of the first OK or NOT_FOUND, counted from one. -/
noncomputable def firstOk (replies : ℕ → GrpcCode) : ℕ∞ :=
  ⨅ (i : ℕ) (_ : RevokeOk (replies i)), ((i + 1 : ℕ) : ℕ∞)

theorem toInt_revokeMax_eq {n : Int32} (h : 0 ≤ n.toInt) :
    (revokeMax n).toInt = retryBudget n := by
  unfold revokeMax retryBudget
  split
  · rfl
  · exact (Int.toNat_of_nonneg h).symm

theorem revokeMax_eq_maxValue {n : Int32} : revokeMax n = Int32.maxValue ↔ n = Int32.maxValue := by
  unfold revokeMax
  split
  · rename_i h
    subst h
    decide
  · exact Iff.rfl

theorem lt_firstOk {replies : ℕ → GrpcCode} {j : ℕ} (hf : Failed replies j) :
    ((j + 1 : ℕ) : ℕ∞) ≤ firstOk replies := by
  refine le_iInf₂ fun i hi => ?_
  have hji : j ≤ i := not_lt.mp fun hlt => hf i hlt hi
  exact_mod_cast Nat.succ_le_succ hji

theorem firstOk_eq {replies : ℕ → GrpcCode} {i : ℕ} (hf : Failed replies i)
    (hok : RevokeOk (replies i)) : firstOk replies = ((i + 1 : ℕ) : ℕ∞) :=
  le_antisymm (iInf₂_le i hok) (lt_firstOk hf)

/-- The call with `WithMaxRevokeRetry(n)`, after `m` steps. -/
def tryRevokeAfter (B : BackOffStrategy) (replies : ℕ → GrpcCode) (s : Session)
    (o : SessionOptions) (n : Int32) (m : ℕ) : RevokeLoop B :=
  RevokeLoop.run replies s (o.withMaxRevokeRetry n.toInt) m

/-- What `TryRevoke` should do with a retry option, whatever the replies. -/
structure HonoursBudget (B : BackOffStrategy) (replies : ℕ → GrpcCode) (s : Session)
    (o : SessionOptions) (n : Int32) : Prop where
  /-- it returns, having used the budget up to the first OK or NOT_FOUND -/
  returns : ∃ m, (tryRevokeAfter B replies s o n m).pc = .returned ∧
    ((tryRevokeAfter B replies s o n m).sent.length : ℕ∞)
      = min (retryBudget n : ℕ∞) (firstOk replies)
  /-- every request is for the session's lease -/
  lease : ∀ m, ∀ req ∈ (tryRevokeAfter B replies s o n m).sent, req.id = s.lease
  /-- an OK or NOT_FOUND is the last reply it asks for -/
  stops : ∀ m i, i + 1 < (tryRevokeAfter B replies s o n m).sent.length →
    ¬ RevokeOk (replies i)
  /-- its counter does not overflow -/
  counter : ∀ m, (tryRevokeAfter B replies s o n m).pc ≠ .overflow

namespace RevokeLoop

/-- Where the call has returned, its requests are the budget or end with
the first OK or NOT_FOUND. -/
theorem Inv.count {replies : ℕ → GrpcCode} {s₀ : Session} {n : Int32} {s : RevokeLoop B}
    (hi : s.Inv replies s₀ (revokeMax n)) (h0 : 0 ≤ n.toInt) (hret : s.pc = .returned) :
    (s.sent.length : ℕ∞) = min (retryBudget n : ℕ∞) (firstOk replies) := by
  have hat := hi.counter
  rw [hret] at hat
  have hbudget := toInt_revokeMax_eq h0
  rcases hat with ⟨-, hj, hf⟩ | ⟨i, hj, hle, hf, hok⟩
  · have hlen : s.sent.length = retryBudget n := by omega
    have hlt := lt_firstOk hf
    rw [hlen] at hlt ⊢
    refine (min_eq_left (le_trans ?_ hlt)).symm
    exact_mod_cast Nat.le_succ _
  · rw [firstOk_eq hf hok, hj]
    have hle' : i + 1 ≤ retryBudget n := by omega
    exact (min_eq_right (by exact_mod_cast hle')).symm

/-- The counter overflows with the largest budget, after as many failed
requests. -/
theorem Inv.overflow {replies : ℕ → GrpcCode} {s₀ : Session} {n : Int32} {s : RevokeLoop B}
    (hi : s.Inv replies s₀ (revokeMax n)) (hpc : s.pc = .overflow) :
    n = Int32.maxValue ∧ Failed replies 2147483647 := by
  have hat := hi.counter
  rw [hpc] at hat
  obtain ⟨hmax, hlen, hf⟩ := hat
  have hint := eq_maxValue_iff.mp hmax
  have hlen' : s.sent.length = 2147483647 := by omega
  exact ⟨revokeMax_eq_maxValue.mp hmax, hlen' ▸ hf⟩

end RevokeLoop

theorem inv_tryRevokeAfter (replies : ℕ → GrpcCode) (s : Session) (o : SessionOptions)
    {n : Int32} (h0 : 0 ≤ n.toInt) (m : ℕ) :
    (tryRevokeAfter B replies s o n m).Inv replies s (revokeMax n) :=
  RevokeLoop.inv_run replies s rfl h0 m

theorem tryRevokeAfter_ended (B : BackOffStrategy) (replies : ℕ → GrpcCode) (s : Session)
    (o : SessionOptions) {n : Int32} (h0 : 0 ≤ n.toInt) :
    ∃ m, (tryRevokeAfter B replies s o n m).Ended :=
  RevokeLoop.exists_ended replies s rfl h0

/-- With the largest budget, and none of as many replies an OK or NOT_FOUND,
the call can only end in the overflow. -/
theorem not_honoursBudget {replies : ℕ → GrpcCode} (s : Session) (o : SessionOptions)
    (hf : Failed replies 2147483647) :
    ¬ HonoursBudget B replies s o Int32.maxValue := by
  intro hb
  have h0 : 0 ≤ Int32.maxValue.toInt := by decide
  obtain ⟨m, hend⟩ := tryRevokeAfter_ended B replies s o h0
  have hi := inv_tryRevokeAfter (B := B) replies s o h0 m
  rcases hend with hret | hover
  · have hat := hi.counter
    rw [hret] at hat
    rcases hat with ⟨hne, -, -⟩ | ⟨i, hj, hle, -, hok⟩
    · exact hne (revokeMax_eq_maxValue.mpr rfl)
    · have hmax := eq_maxValue_iff.mp (revokeMax_eq_maxValue.mpr (rfl : Int32.maxValue = _))
      exact hf i (by omega) hok
  · exact hb.counter m hover

/-- **The retry budget.** For every `int` `n ≥ 0` as the retry option and
every sequence of replies, `TryRevoke` returns after as many requests as the
budget and the first OK or NOT_FOUND allow, all for the session's lease, and
does not overflow its counter, if and only if `n` is not the largest `int`
or one of the first 2147483647 replies is OK or NOT_FOUND. -/
theorem tryRevoke_budget_iff (replies : ℕ → GrpcCode) (s : Session) (o : SessionOptions)
    {n : Int32} (hn : 0 ≤ n) :
    HonoursBudget B replies s o n
      ↔ n ≠ Int32.maxValue ∨ ∃ i < 2147483647, RevokeOk (replies i) := by
  have h0 : 0 ≤ n.toInt := Int32.le_iff_toInt_le.mp hn
  constructor
  · intro hb
    by_contra hcond
    obtain ⟨hmax, hnone⟩ := not_or.mp hcond
    have hf : Failed replies 2147483647 := fun i hi hok => hnone ⟨i, hi, hok⟩
    have hmax' : n = Int32.maxValue := not_not.mp hmax
    subst hmax'
    exact not_honoursBudget s o hf hb
  · intro hcond
    have hi := inv_tryRevokeAfter (B := B) replies s o h0
    have hno : ∀ m, (tryRevokeAfter B replies s o n m).pc ≠ .overflow := by
      intro m hover
      obtain ⟨hmax, hf⟩ := (hi m).overflow hover
      rcases hcond with hne | ⟨i, hlt, hok⟩
      · exact hne hmax
      · exact hf i hlt hok
    obtain ⟨m, hend⟩ := tryRevokeAfter_ended B replies s o h0
    have hret := hend.resolve_right (hno m)
    exact ⟨⟨m, hret, (hi m).count h0 hret⟩, fun m => (hi m).ids,
      fun m i hlt => (hi m).counter.failed hlt, hno⟩

/-- The default budget, with NOT_FOUND as the second reply. -/
theorem tryRevoke_budget_default :
    HonoursBudget .constant (fun i => if i = 1 then .notFound else .unavailable)
      { lease := 7, leaseTtl := 60 } .new 0 :=
  (tryRevoke_budget_iff _ _ _ (by decide)).mpr (Or.inl (by decide))

/-- The largest `int` as the retry option, and no reply that ends the loop. -/
theorem tryRevoke_overflows :
    ¬ HonoursBudget .constant (fun _ => .unavailable) { lease := 7, leaseTtl := 60 } .new
        Int32.maxValue :=
  not_honoursBudget _ _ fun _ _ hok => by simp [RevokeOk] at hok

end

end Etcdv3Client
