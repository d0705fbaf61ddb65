import Mathlib.Tactic.Ring
import Etcdv3Client.Session.Pacing
import Etcdv3Client.Session.Revoke

/-!
# A close ends

`Close` joins the worker with `m_` held. The worker tests the close event
before each call, but sleeps without it, and `TryRevoke` does not look at
it at all. Still the steps it takes once the event is finished are bounded
by the revoke budget alone, whatever is answered, and so is the time it
sleeps; and a `Close` under way waits for nothing but the worker's call. All
of this is for a retry option below the largest `int`, so that the counter
of `TryRevoke` stays one.
-/

namespace Etcdv3Client

open Transition

section
variable {B : BackOffStrategy}

/-! ## What the worker pays -/

section
variable {α : Type*} [AddCommMonoid α]

/-- What the step costs, for a price of the worker's steps taken while the
close event is finished. -/
def closingCost (price : Worker B → α) (s : State B) : Label → α
  | .worker _ =>
      match s.thread with
      | .started w => if s.finished then price w else 0
      | _ => 0
  | _ => 0

/-- What a worker is given when it is started. -/
def startGrant (allowance : SessionOptions → α) (s : State B) : Label → α
  | .grant o => if startsWorker s (.grant o) then allowance o else 0
  | _ => 0

/-- What the worker has in hand: all of its allowance up to the close. -/
def inHand (left : Worker B → α) (allowance : SessionOptions → α) (s : State B) : α :=
  match s.thread with
  | .started w => if s.finished then left w else allowance w.options
  | _ => 0

theorem startOptions_of_thread_none {h : History (State B) Label} {s : State B} (hr : SRun h s)
    (ht : s.thread = .none) : startOptions h = none := by
  induction hr with
  | start => rfl
  | @next h s₀ s l hr hs ih =>
    cases step_iff.mp hs with
    | worker => cases ht
    | grantOk => cases ht
    | closeJoined => cases ht
    | @grantRefused o _ hno =>
      have hst : startsWorker s₀ (.grant o) = false := by
        rcases hno with hno | hno <;> simp [startsWorker, hno]
      rw [startOptions_frame hst]
      exact ih ht
    | _ => exact ih ht

/-- One worker is started, with the options of its `Grant`. -/
theorem total_startGrant (allowance : SessionOptions → α) {h : History (State B) Label}
    {s : State B} (hr : SRun h s) {o : SessionOptions} (ho : startOptions h = some o) :
    total (startGrant allowance) h = allowance o := by
  have hnone : ∀ {h : History (State B) Label}, startOptions h = none →
      total (startGrant allowance) h = 0 := by
    intro h
    induction h with
    | nil => exact fun _ => rfl
    | cons p h ih =>
      obtain ⟨s, l⟩ := p
      intro hno
      cases l with
      | grant o =>
        rw [startOptions] at hno
        split at hno
        · cases hno
        · rename_i hst
          rw [total_cons, startGrant, if_neg hst, ih hno, add_zero]
      | _ =>
        show 0 + total _ h = 0
        rw [ih hno, add_zero]
  induction hr with
  | start => cases ho
  | @next h s₀ s l hr hs ih =>
    cases l with
    | grant o' =>
      rw [startOptions] at ho
      split at ho
      · rename_i hst
        cases ho
        -- no worker was started before
        have hgranted : s₀.session.granted = false := by
          simp only [startsWorker, Bool.and_eq_true, Bool.not_eq_true'] at hst
          exact hst.2
        rw [total_cons, startGrant, if_pos hst,
          hnone (startOptions_of_thread_none hr ((inv_run hr).thread_none hgranted)), add_zero]
      · rename_i hst
        rw [total_cons, startGrant, if_neg hst, ih ho, zero_add]
    | _ =>
      show 0 + total _ h = _
      rw [ih ho, zero_add]

end

section
variable {α : Type*} [AddCommMonoid α] [PartialOrder α]

/-- The worker can pay the price from its allowance: `left` is what it still
needs once the close event is finished, at the places where `ok` holds. -/
structure Affords (price left : Worker B → α) (allowance : SessionOptions → α)
    (ok : Worker B → Prop) : Prop where
  start : ∀ o, left ⟨o, .loop⟩ ≤ allowance o
  within : ∀ w, ok w → left w ≤ allowance w.options
  pays : ∀ {s s' : Session} {w w' : Worker B} {a : Answer}, WorkerStep s w a s' w' →
    a.agrees true = true → ok w → ok w' → price w + left w' ≤ left w
  keeps : ∀ {s s' : Session} {w w' : Worker B} {a : Answer}, WorkerStep s w a s' w' →
    allowance w'.options = allowance w.options
  nonneg : ∀ w, ok w → 0 ≤ left w

/-- One step of the system. -/
theorem Affords.step {price left : Worker B → α} {allowance : SessionOptions → α}
    {ok : Worker B → Prop} (hA : Affords price left allowance ok) {s s' : State B} {l : Label}
    (hok : ∀ w, s.thread = .started w → ok w) (hok' : ∀ w, s'.thread = .started w → ok w)
    (hinv : Inv s) (hs : Etcdv3Client.step s l = some s') :
    closingCost price s l + inHand left allowance s'
      ≤ inHand left allowance s + startGrant allowance s l := by
  have hfin : s.finished = true → s'.finished = true := fun hf => finished_step hf hs
  -- what a worker has in hand can only be less once the event is finished
  have hframe : s'.thread = s.thread → inHand left allowance s' ≤ inHand left allowance s := by
    intro hth
    unfold inHand
    rw [hth]
    cases ht : s.thread with
    | started w =>
      cases hf : s.finished with
      | true => simp [hfin hf]
      | false =>
        cases hf' : s'.finished with
        | true => simpa using hA.within w (hok w ht)
        | false => simp
    | _ => exact le_rfl
  cases step_iff.mp hs with
  | ctxDone => simpa [closingCost, startGrant] using hframe rfl
  | close => simpa [closingCost, startGrant] using hframe rfl
  | closeFree => simpa [closingCost, startGrant] using hframe rfl
  | grantRefused _ hno =>
    rcases hno with hno | hno <;> simp [closingCost, startGrant, startsWorker, hno]
  | @grantOk o _ hc hg =>
    have hnone : s.thread = .none := hinv.thread_none hg
    have hst : startsWorker s (.grant o) = true := by simp [startsWorker, hc, hg]
    have hgrant : startGrant allowance s (.grant o) = allowance o := by
      rw [startGrant, if_pos hst]
    rw [hgrant]
    show 0 + inHand left allowance _ ≤ _
    rw [zero_add]
    simp only [inHand, hnone, zero_add]
    split
    · exact hA.start o
    · exact le_rfl
  | @closeJoined w _ ht _ =>
    have hall : 0 ≤ inHand left allowance s := by
      unfold inHand
      rw [ht]
      have h0 := hA.nonneg w (hok w ht)
      dsimp only
      split
      · exact h0
      · exact h0.trans (hA.within w (hok w ht))
    simpa [closingCost, startGrant, inHand] using hall
  | @worker w a r w' ht ha hw =>
    have hkeep := hA.keeps hw
    have hw' := hA.within w' (hok' w' rfl)
    have hgrant : startGrant allowance s (.worker a) = 0 := rfl
    rw [hgrant, add_zero]
    cases hf : s.finished with
    | true =>
      have hpay := hA.pays hw (hf ▸ ha) (hok w ht) (hok' w' rfl)
      have hf' := hfin hf
      simpa [closingCost, inHand, ht, hf, hf'] using hpay
    | false =>
      simp only [closingCost, inHand, ht, hf, Bool.false_eq_true, if_false, zero_add]
      split
      · rw [← hkeep]
        exact hw'
      · rw [hkeep]

/-- **What a close costs.** Where the worker can afford the price at all
places it comes to, its steps while the close event is finished cost no
more than its allowance. -/
theorem Affords.total_le [IsOrderedAddMonoid α] {price left : Worker B → α}
    {allowance : SessionOptions → α} {ok : Worker B → Prop} (hA : Affords price left allowance ok)
    {C : History (State B) Label → State B → Label → Prop}
    (hok : ∀ {h : History (State B) Label} {s : State B}, SRun h s → Along C h →
      ∀ w, s.thread = .started w → ok w)
    {h : History (State B) Label} {s : State B} (hr : SRun h s) (hc : Along C h)
    {o : SessionOptions} (ho : startOptions h = some o) :
    total (closingCost price) h + inHand left allowance s ≤ allowance o := by
  have hrun := hr.total_le (closingCost price) (startGrant allowance)
    (fun _ s => inHand left allowance s) 0 (C := C)
    (fun s hs => by
      obtain ⟨lease, leaseTtl, rfl⟩ := hs
      exact le_rfl)
    (fun hr' hc' hl hs => hA.step (hok hr' hc') (hok (hr'.next hs) ⟨hc', hl⟩) (inv_run hr') hs)
    hc
  rw [zero_add, total_startGrant allowance hr ho] at hrun
  exact hrun

end

/-! ## The number of steps -/

/-- `retry_times` counts from one, up to the budget. -/
def Worker.Counting (w : Worker B) : Prop :=
  match w.pc with
  | .leaseRevoke m n _ | .revokeSleep m n _ _ => m = revokeBudget w.options ∧ 1 ≤ n ∧ n ≤ m
  | _ => True

/-- The longest way to the end, from where the worker is. -/
def stepsLeft (w : Worker B) : ℕ :=
  let n := (revokeBudget w.options).toNat
  match w.pc with
  | .ended => 0
  | .setClosed => 1
  | .revokeSleep m i _ _ => 2 * (m - i).toNat + 2
  | .leaseRevoke m i _ => 2 * (m - i).toNat + 3
  | .loop => 2 * n + 2
  | .granted | .setExpired => 2 * n + 3
  | .grantLoop _ | .grantWait _ _ | .resetAlive => 2 * n + 4
  | .leaseGrant _ | .cancelStream | .keepAliveLoop _ => 2 * n + 5
  | .setAlive | .keepAliveWait _ _ | .keepAliveSleep _ _ => 2 * n + 6
  | .resetExpired | .openStream _ | .finishStream _ => 2 * n + 7
  | .read _ _ => 2 * n + 8
  | .write _ => 2 * n + 9

/-- The steps that a close leaves to a worker with these options. -/
def stepsAllowed (o : SessionOptions) : ℕ := 2 * (revokeBudget o).toNat + 9

theorem WorkerStep.same_budget {s s' : Session} {w w' : Worker B} {a : Answer}
    (hw : WorkerStep s w a s' w') :
    revokeBudget w'.options = revokeBudget w.options := by
  unfold revokeBudget
  rw [hw.options_revoke]

@[simp] theorem revokeBudget_setLease (id : Int) (o : SessionOptions) :
    revokeBudget (o.setLease id) = revokeBudget o := rfl

@[simp] theorem revokeBudget_setTtl (ttl : Int) (o : SessionOptions) :
    revokeBudget (o.setTtl ttl) = revokeBudget o := rfl

theorem WorkerStep.counting {s s' : Session} {w w' : Worker B} {a : Answer}
    (hw : WorkerStep s w a s' w') (hi : w.Counting) : w'.Counting := by
  cases hw with
  | loopClosed hle => exact ⟨rfl, le_rfl, hle⟩
  | revokeFailed => exact hi
  | revokeAgain hle =>
    obtain ⟨hm, hn, -⟩ := hi
    exact ⟨hm, by omega, hle⟩
  | _ => trivial

theorem affords_steps : Affords (fun _ : Worker B => 1) stepsLeft stepsAllowed
    Worker.Counting where
  start o := by
    show 2 * (revokeBudget o).toNat + 2 ≤ 2 * (revokeBudget o).toNat + 9
    omega
  within w hi := by
    obtain ⟨o, pc⟩ := w
    unfold stepsLeft stepsAllowed
    cases pc with
    | leaseRevoke m n b =>
      obtain ⟨hm, hn, hle⟩ := hi
      dsimp only at hm ⊢
      omega
    | revokeSleep m n d b =>
      obtain ⟨hm, hn, hle⟩ := hi
      dsimp only at hm ⊢
      omega
    | _ => dsimp only; omega
  pays hw ha _ _ := by
    cases hw with
    | @loopClosed o hle =>
      show 1 + (2 * (revokeBudget o - 1).toNat + 3) ≤ 2 * (revokeBudget o).toNat + 2
      omega
    | @revokeAgain o m n d b hle =>
      show 1 + (2 * (m - (n + 1)).toNat + 3) ≤ 2 * (m - n).toNat + 2
      omega
    | loopOpen => cases ha
    | grantLoopOpen => cases ha
    | grantWaitOver => cases ha
    | grantedOpen => cases ha
    | keepAliveLoopOpen => cases ha
    | keepAliveWaitOver => cases ha
    | _ =>
      simp only [stepsLeft, grantReturn, tryKeepAlive, nextKeepAlive, revokeBudget_setLease,
        revokeBudget_setTtl]
      omega
  keeps hw := by rw [stepsAllowed, stepsAllowed, hw.same_budget]
  nonneg _ _ := Nat.zero_le _

theorem counting_run {h : History (State B) Label} {s : State B} (hr : SRun h s) :
    ∀ w, s.thread = .started w → w.Counting := by
  refine Run.inv_state (P := fun s : State B => ∀ w, s.thread = .started w → w.Counting)
    (fun s hs w hw => absurd hw (hs.not_started w)) (fun hi hs w hw => ?_) hr
  cases step_iff.mp hs with
  | grantOk =>
    cases hw
    trivial
  | closeJoined => cases hw
  | worker ht _ hws =>
    cases hw
    exact hws.counting (hi _ ht)
  | _ => exact hi w hw

/-- The steps of the worker since the close event was finished. -/
def stepsSinceClosing (h : History (State B) Label) : ℕ := total (closingCost fun _ => 1) h

/-! ## A worker that has not ended can go on -/

/-- The answers that the call or test the worker is in can give. -/
def Pc.takes : Pc B → Answer → Bool
  | .loop, .finished _ | .grantLoop _, .finished _ | .granted, .finished _
  | .keepAliveLoop _, .finished _ => true
  | .grantWait _ _, .wait _ | .keepAliveWait _ _, .wait _ => true
  | .leaseGrant _, .leaseGrant _ => true
  | .openStream _, .stream => true
  | .write _, .write _ => true
  | .read _ _, .read _ => true
  | .cancelStream, .finish _ | .finishStream _, .finish _ => true
  | .keepAliveSleep _ _, .slept | .revokeSleep _ _ _ _, .slept => true
  | .leaseRevoke _ _ _, .leaseRevoke _ => true
  | .resetExpired, .flag | .setAlive, .flag | .resetAlive, .flag | .setExpired, .flag
  | .setClosed, .flag => true
  | _, _ => false

/-- The worker goes on with every one of them. -/
theorem workerNext_isSome {s : Session} {w : Worker B} {a : Answer}
    (h : w.pc.takes a = true) : (workerNext s w a).isSome = true := by
  obtain ⟨o, pc⟩ := w
  cases pc <;> cases a <;> cases h
  case loop.finished b => cases b <;> rfl
  case grantLoop.finished b => cases b <;> rfl
  case granted.finished b => cases b <;> rfl
  case keepAliveLoop.finished b => cases b <;> rfl
  case grantWait.wait b => cases b <;> rfl
  case keepAliveWait.wait b => cases b <;> rfl
  case leaseGrant.leaseGrant r => cases r <;> rfl
  case write.write b => cases b <;> rfl
  case read.read r => cases r <;> rfl
  case finishStream.finish code =>
    unfold workerNext
    dsimp only
    split <;> rfl
  case leaseRevoke.leaseRevoke code =>
    unfold workerNext
    dsimp only
    split <;> rfl
  all_goals rfl

theorem exists_takes {pc : Pc B} (h : pc.isEnded = false) (f : Bool) :
    ∃ a, pc.takes a = true ∧ a.agrees f = true := by
  cases pc with
  | loop => exact ⟨.finished f, rfl, beq_self_eq_true f⟩
  | grantLoop => exact ⟨.finished f, rfl, beq_self_eq_true f⟩
  | granted => exact ⟨.finished f, rfl, beq_self_eq_true f⟩
  | keepAliveLoop => exact ⟨.finished f, rfl, beq_self_eq_true f⟩
  | grantWait => exact ⟨.wait f, rfl, beq_self_eq_true f⟩
  | keepAliveWait => exact ⟨.wait f, rfl, beq_self_eq_true f⟩
  | leaseGrant => exact ⟨.leaseGrant (.error .unavailable), rfl, rfl⟩
  | openStream => exact ⟨.stream, rfl, rfl⟩
  | write => exact ⟨.write true, rfl, rfl⟩
  | read => exact ⟨.read none, rfl, rfl⟩
  | cancelStream => exact ⟨.finish .ok, rfl, rfl⟩
  | finishStream => exact ⟨.finish .ok, rfl, rfl⟩
  | keepAliveSleep => exact ⟨.slept, rfl, rfl⟩
  | revokeSleep => exact ⟨.slept, rfl, rfl⟩
  | leaseRevoke => exact ⟨.leaseRevoke .ok, rfl, rfl⟩
  | ended => cases h
  | _ => exact ⟨.flag, rfl, rfl⟩

theorem step_worker_isSome {s : State B} {w : Worker B} {a : Answer}
    (ht : s.thread = .started w) (htake : w.pc.takes a = true)
    (ha : a.agrees s.finished = true) : (step s (.worker a)).isSome = true := by
  simp only [step, ht, ha, if_true, Option.isSome_map]
  exact workerNext_isSome htake

/-- The next thing that can happen to a `Close` under way: it returns, or
the worker goes on with whatever its call answers. -/
def CanGoOn (s : State B) : Prop :=
  (step s .closeReturn).isSome = true ∨
    ∃ w, s.thread = .started w ∧ (∃ a, (step s (.worker a)).isSome = true) ∧
      ∀ a, w.pc.takes a = true → a.agrees true = true → (step s (.worker a)).isSome = true

theorem canGoOn {s : State B} (hi : Inv s) (hc : s.closing = true) : CanGoOn s := by
  have hfin : s.finished = true := by simp [State.finished, hi.closing hc]
  cases ht : s.thread with
  | none =>
    left
    simp [step, hc, ht]
  | joined =>
    left
    simp [step, hc, ht]
  | started w =>
    cases hend : w.pc.isEnded with
    | true =>
      left
      simp [step, hc, ht, hend]
    | false =>
      right
      obtain ⟨a, htake, ha⟩ := exists_takes hend s.finished
      refine ⟨w, ht, ⟨a, step_worker_isSome ht htake ha⟩, fun a htake ha => ?_⟩
      exact step_worker_isSome ht htake (hfin ▸ ha)

/-! ## Main result: Close returns -/

/-- `retry_times`, in `TryRevoke`. -/
def Pc.retryTimes : Pc B → Option Int
  | .leaseRevoke _ n _ | .revokeSleep _ n _ _ => some n
  | _ => none

/-- The counter is within the budget, and so is its successor within the
`int`s. -/
theorem retryTimes_lt {h : History (State B) Label} {s : State B} (hr : SRun h s)
    (hmax : ∀ o ∈ startOptions h, o.revokeMaxRetryTimes < 2147483647) {w : Worker B}
    (ht : s.thread = .started w) {n : Int} (hn : w.pc.retryTimes = some n) :
    n < 2147483647 := by
  obtain ⟨o, ho, hopt, -⟩ := (revokePhase_run hr).started w ht
  have hlt : w.options.revokeMaxRetryTimes < 2147483647 := hopt ▸ hmax o ho
  have hbudget : revokeBudget w.options < 2147483647 := by
    unfold revokeBudget revokeDefaultMaxRetryTimes
    split
    · decide
    · exact hlt
  have hcount := counting_run hr w ht
  obtain ⟨o', pc⟩ := w
  cases pc with
  | leaseRevoke m i b =>
    cases hn
    obtain ⟨hm, -, hle⟩ := hcount
    exact lt_of_le_of_lt (hle.trans_eq hm) hbudget
  | revokeSleep m i d b =>
    cases hn
    obtain ⟨hm, -, hle⟩ := hcount
    exact lt_of_le_of_lt (hle.trans_eq hm) hbudget
  | _ => cases hn

/-- **`Close` returns**, for a retry option below the largest `int`. In every
run the worker takes no more than nine steps and two for each revoke of its
budget once the close event is finished, whatever is answered, with
`++retry_times` an `int` at each; and as long as a `Close` is under way,
either it can return or the worker can take its next step. -/
theorem close_returns {h : History (State B) Label} {s : State B} (hr : SRun h s)
    (hmax : ∀ o ∈ startOptions h, o.revokeMaxRetryTimes < 2147483647) :
    (∀ o ∈ startOptions h, stepsSinceClosing h ≤ 2 * (revokeBudget o).toNat + 9) ∧
    (∀ w, s.thread = .started w → ∀ n ∈ w.pc.retryTimes, n < 2147483647) ∧
    (s.closing = true → CanGoOn s) := by
  refine ⟨fun o ho => ?_, fun w ht n hn => retryTimes_lt hr hmax ht hn, canGoOn (inv_run hr)⟩
  have htotal := affords_steps.total_le (C := fun _ _ _ => True)
    (fun hr' _ => counting_run hr') hr (Along.of_true h) ho
  exact (Nat.le_add_right _ _).trans htotal

/-- Options with one revoke to try. -/
def oneRevoke : SessionOptions := SessionOptions.new.withMaxRevokeRetry 1

/-- A `Close` while the first keep-alive request is written: the
request is lost, and so is the revoke. -/
def slowCloseScript : List Label :=
  announceScript oneRevoke { id := 7, ttl := 60 } ++ openScript ++
    [.close, .worker (.write true), .worker (.read none), .worker (.finish .unavailable),
      .worker .slept, .worker (.finished true), .worker .flag, .worker .flag,
      .worker (.finished true), .worker (.leaseRevoke .unavailable), .worker .slept, .worker .flag]

/-- It takes all eleven steps, and then the `Close` can return. -/
theorem close_returns_slow :
    (exec step [] (State.new 5 0 : State .constant) slowCloseScript).map
        (fun r => (startOptions r.1, stepsSinceClosing r.1, r.2.closing))
      = some (some oneRevoke, 11, true) ∧
    ∃ h s, exec step [] (State.new 5 0 : State .constant) slowCloseScript = some (h, s) ∧
      stepsSinceClosing h ≤ 2 * 1 + 9 ∧ CanGoOn s := by
  have hrun : (exec step [] (State.new 5 0 : State .constant) slowCloseScript).map
        (fun r => (startOptions r.1, stepsSinceClosing r.1, r.2.closing))
      = some (some oneRevoke, 11, true) := by
    decide +kernel
  obtain ⟨⟨h, s⟩, hexec, hobs⟩ := Option.map_eq_some_iff.mp hrun
  simp only [Prod.mk.injEq] at hobs
  obtain ⟨hopt, -, hclosing⟩ := hobs
  have hmax : ∀ o ∈ startOptions h, o.revokeMaxRetryTimes < 2147483647 := by
    intro o ho
    cases hopt.symm.trans ho
    decide
  obtain ⟨hsteps, -, hgo⟩ := close_returns (Run.exec (.start ⟨5, 0, rfl⟩) hexec) hmax
  exact ⟨hrun, h, s, hexec, hsteps _ hopt, hgo hclosing⟩

/-! ## The time a close sleeps -/

/-- The seconds the worker is about to sleep, whatever the close event
says. -/
def sleepTime (w : Worker B) : ℚ :=
  match w.pc with
  | .keepAliveSleep d _ | .revokeSleep _ _ d _ => max 0 d
  | _ => 0

/-- `retry_max_wait_time`, where it is a time. -/
def longestSleep (o : SessionOptions) : ℚ := max 0 (o.retryMaxWaitTime : ℚ)

/-- The most that the worker can still sleep. -/
def sleepLeft (w : Worker B) : ℚ :=
  let n : ℚ := ((revokeBudget w.options).toNat : ℚ)
  match w.pc with
  | .ended | .setClosed => 0
  | .revokeSleep m i d _ => ((m - i).toNat : ℚ) * longestSleep w.options + max 0 d
  | .leaseRevoke m i _ => ((m - i).toNat : ℚ) * longestSleep w.options + longestSleep w.options
  | .keepAliveSleep d _ => n * longestSleep w.options + max 0 d
  | .finishStream _ | .read _ _ | .write _ => n * longestSleep w.options + longestSleep w.options
  | _ => n * longestSleep w.options

/-- The seconds that a close may sleep. -/
def sleepAllowed (o : SessionOptions) : ℚ :=
  ((revokeBudget o).toNat : ℚ) * longestSleep o + longestSleep o

/-- The wait or sleep is no longer than the maximum. -/
def Worker.Resting (w : Worker B) : Prop :=
  ∀ d, w.pc.waitTime = some d → d ≤ w.options.retryMaxWaitTime

theorem longestSleep_nonneg (o : SessionOptions) : 0 ≤ longestSleep o := le_max_left _ _

theorem max_le_longestSleep {o : SessionOptions} {d : ℚ} (h : d ≤ o.retryMaxWaitTime) :
    max 0 d ≤ longestSleep o := max_le_max_left 0 h

/-- A sleep more is one more of the longest. -/
theorem toNat_mul_longestSleep {m n : Int} (h : n + 1 ≤ m) (o : SessionOptions) :
    ((m - (n + 1)).toNat : ℚ) * longestSleep o + longestSleep o
      = ((m - n).toNat : ℚ) * longestSleep o := by
  have hn : (m - n).toNat = (m - (n + 1)).toNat + 1 := by omega
  rw [hn]
  push_cast
  ring

@[simp] theorem longestSleep_setLease (id : Int) (o : SessionOptions) :
    longestSleep (o.setLease id) = longestSleep o := rfl

@[simp] theorem longestSleep_setTtl (ttl : Int) (o : SessionOptions) :
    longestSleep (o.setTtl ttl) = longestSleep o := rfl

theorem revokes_longestSleep_nonneg (n : ℕ) (o : SessionOptions) : 0 ≤ (n : ℚ) * longestSleep o :=
  mul_nonneg (Nat.cast_nonneg n) (longestSleep_nonneg o)

theorem sleepLeft_nonneg (w : Worker B) : 0 ≤ sleepLeft w := by
  obtain ⟨o, pc⟩ := w
  have h0 := longestSleep_nonneg o
  have hn := fun n => revokes_longestSleep_nonneg n o
  unfold sleepLeft
  cases pc with
  | ended => exact le_rfl
  | setClosed => exact le_rfl
  | leaseRevoke m n b => exact add_nonneg (hn _) h0
  | revokeSleep m n d b => exact add_nonneg (hn _) (le_max_left _ _)
  | keepAliveSleep d b => exact add_nonneg (hn _) (le_max_left _ _)
  | finishStream => exact add_nonneg (hn _) h0
  | read => exact add_nonneg (hn _) h0
  | write => exact add_nonneg (hn _) h0
  | _ => exact hn _

/-- One step: the sleep that begins was allowed for, and is paid when it is
over. -/
theorem WorkerStep.pays_sleep {s s' : Session} {w w' : Worker B} {a : Answer}
    (hw : WorkerStep s w a s' w') (ha : a.agrees true = true) (hi' : w'.Resting) :
    sleepTime w + sleepLeft w' ≤ sleepLeft w := by
  obtain ⟨o, pc⟩ := w
  have h0 := longestSleep_nonneg o
  have hn := fun n => revokes_longestSleep_nonneg n o
  have hbudget := hn (revokeBudget o).toNat
  cases hw with
  | loopOpen => cases ha
  | grantLoopOpen => cases ha
  | grantWaitOver => cases ha
  | grantedOpen => cases ha
  | keepAliveLoopOpen => cases ha
  | keepAliveWaitOver => cases ha
  | loopClosed hle =>
    show 0 + (((revokeBudget o - (0 + 1)).toNat : ℚ) * longestSleep o + longestSleep o)
      ≤ ((revokeBudget o).toNat : ℚ) * longestSleep o
    rw [toNat_mul_longestSleep hle, sub_zero, zero_add]
  | failed =>
    have hmax := max_le_longestSleep (hi' _ rfl)
    simp only [sleepTime, sleepLeft]
    linarith
  | revokeFailed =>
    have hmax := max_le_longestSleep (hi' _ rfl)
    simp only [sleepTime, sleepLeft]
    linarith
  | revokeAgain hle =>
    simp only [sleepTime, sleepLeft]
    rw [toNat_mul_longestSleep hle]
    exact (add_comm _ _).le
  | @revokeSpent _ m n =>
    have hmn := hn (m - n).toNat
    simp only [sleepTime, sleepLeft]
    linarith
  | @revoked _ m n =>
    have hmn := hn (m - n).toNat
    simp only [sleepTime, sleepLeft]
    linarith
  | _ =>
    simp only [sleepTime, sleepLeft, grantReturn, tryKeepAlive, nextKeepAlive,
      revokeBudget_setLease, revokeBudget_setTtl, longestSleep_setLease, longestSleep_setTtl]
    linarith

theorem affords_sleep : Affords (sleepTime : Worker B → ℚ) sleepLeft sleepAllowed
    fun w => w.Counting ∧ w.Resting where
  start o := by
    show ((revokeBudget o).toNat : ℚ) * longestSleep o ≤ _ + longestSleep o
    linarith [longestSleep_nonneg o]
  within w hi := by
    obtain ⟨o, pc⟩ := w
    obtain ⟨hcount, hrest⟩ := hi
    have h0 := longestSleep_nonneg o
    have hn : 0 ≤ ((revokeBudget o).toNat : ℚ) * longestSleep o :=
      mul_nonneg (Nat.cast_nonneg _) h0
    have hfew : ∀ {m n : Int}, m = revokeBudget o → 1 ≤ n →
        ((m - n).toNat : ℚ) * longestSleep o ≤ ((revokeBudget o).toNat : ℚ) * longestSleep o := by
      intro m n hm hn
      refine mul_le_mul_of_nonneg_right ?_ h0
      exact_mod_cast (by omega : (m - n).toNat ≤ (revokeBudget o).toNat)
    unfold sleepLeft sleepAllowed
    cases pc with
    | leaseRevoke m n b =>
      have := hfew hcount.1 hcount.2.1
      dsimp only
      linarith
    | revokeSleep m n d b =>
      have := hfew hcount.1 hcount.2.1
      have := max_le_longestSleep (hrest d rfl)
      dsimp only
      linarith
    | keepAliveSleep d b =>
      have := max_le_longestSleep (hrest d rfl)
      dsimp only
      linarith
    | _ => dsimp only; linarith
  pays hw ha _ hi' := hw.pays_sleep ha hi'.2
  keeps hw := by
    rw [sleepAllowed, sleepAllowed, hw.same_budget, longestSleep, longestSleep,
      hw.options_retry.2]
  nonneg w _ := sleepLeft_nonneg w

/-- The seconds the worker has slept since the close event was finished. -/
def sleptSinceClosing (h : History (State B) Label) : ℚ := total (closingCost sleepTime) h

/-- **A close sleeps a bounded time.** With the retry times in order and a
retry option below the largest `int`, the sleeps that the worker asks for
once the close event is finished sum to no more than the longest wait for
each revoke of the budget and one more, for the keep-alive that was failing. -/
theorem close_sleeps_le (hB : B.Bounded) {h : History (State B) Label} {s : State B}
    (hr : SRun h s) (ho : Along OrderedWaits h) :
    ∀ o ∈ startOptions h, o.revokeMaxRetryTimes < 2147483647 →
      sleptSinceClosing h ≤ ((revokeBudget o).toNat + 1) * max 0 (o.retryMaxWaitTime : ℚ) := by
  -- at the largest `int` the counter of the source overflows, and this one goes on
  intro o hopt _
  have htotal := affords_sleep.total_le (C := OrderedWaits)
    (fun hr' ho' w hw => ⟨counting_run hr' w hw, fun d hd => (waits_between hB hr' ho' hw hd).1⟩)
    hr ho hopt
  have hleft : 0 ≤ inHand sleepLeft sleepAllowed s := by
    unfold inHand
    cases s.thread with
    | started w =>
      dsimp only
      split
      · exact sleepLeft_nonneg w
      · exact add_nonneg (revokes_longestSleep_nonneg _ _) (longestSleep_nonneg _)
    | _ => exact le_rfl
  have hallowed : sleepAllowed o
      = ((revokeBudget o).toNat + 1) * max 0 (o.retryMaxWaitTime : ℚ) := by
    rw [sleepAllowed, longestSleep]
    ring
  rw [← hallowed]
  exact (le_add_of_nonneg_right hleft).trans htotal

/-- The `Close` above sleeps twice, as long as its backoff says. -/
theorem close_sleeps_le_slow :
    ∃ h s, exec step [] (State.new 5 0 : State .constant) slowCloseScript = some (h, s) ∧
      sleptSinceClosing h = 2 ∧
      sleptSinceClosing h ≤ ((revokeBudget oneRevoke).toNat + 1) *
        max 0 (oneRevoke.retryMaxWaitTime : ℚ) := by
  refine ⟨_, _, rfl, by decide +kernel, ?_⟩
  refine close_sleeps_le BackOffStrategy.bounded_constant (Run.exec (.start ⟨5, 0, rfl⟩)
    (rfl : exec step [] (State.new 5 0 : State .constant) slowCloseScript = some (_, _)))
    ?_ oneRevoke rfl (by decide)
  simp [Along, OrderedWaits, oneRevoke, SessionOptions.new, SessionOptions.withMaxRevokeRetry]

end

end Etcdv3Client
