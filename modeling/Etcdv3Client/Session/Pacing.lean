import Mathlib.Tactic.Linarith
import Etcdv3Client.Lib.Cost
import Etcdv3Client.Session.Interval
import Etcdv3Client.Session.Timed

/-!
# How often a session asks

Every wait and sleep of the worker is one that a backoff answered, built
with the retry times or with what the TTL of the grant leaves of them, and
lies between its bounds. For each of them the worker sends no more than two
requests, and two more at its ends. So all that a session sends in a run is
bounded by the time it has waited.
-/

namespace Etcdv3Client

open Transition

section
variable {B : BackOffStrategy}

/-! ## The waits lie between the bounds -/

/-- The bounds of the backoffs of `TryGrant` and `TryRevoke`. -/
def SessionOptions.Spaces (o : SessionOptions) (d : ℚ) : Prop :=
  (o.retryMinWaitTime : ℚ) ≤ d ∧ d ≤ o.retryMaxWaitTime

/-- The same, capped by the TTL of the grant. -/
def SessionOptions.SpacesWithin (o : SessionOptions) (ttl : Int) (d : ℚ) : Prop :=
  ((min o.retryMinWaitTime ttl : Int) : ℚ) ≤ d ∧ d ≤ (min o.retryMaxWaitTime ttl : Int)

/-- Where the backoff at each counter comes from, and what it answered. The
one of `TryKeepAlive` is `Paced`. -/
def Pc.Drawn (o : SessionOptions) (ls : List Label) : Pc B → Prop
  | .grantLoop b | .leaseGrant b | .leaseRevoke _ _ b =>
      B.Built o.retryMinWaitTime o.retryMaxWaitTime b
  | .grantWait d b | .revokeSleep _ _ d b =>
      o.Spaces d ∧ B.Built o.retryMinWaitTime o.retryMaxWaitTime b
  | .keepAliveWait d _ | .keepAliveSleep d _ => ∃ t, grantTtl ls = some t ∧ o.SpacesWithin t d
  | _ => True

theorem BackOffStrategy.Bounded.spaces (hB : B.Bounded) {o : SessionOptions} {b : B.State}
    (ho : o.retryMinWaitTime ≤ o.retryMaxWaitTime)
    (hb : B.Built o.retryMinWaitTime o.retryMaxWaitTime b) :
    o.Spaces (B.next b).1 ∧ B.Built o.retryMinWaitTime o.retryMaxWaitTime (B.next b).2 :=
  ⟨hB.between ho hb, hb.next⟩

theorem PacedBy.spaces (hB : B.Bounded) {o : SessionOptions} {ls ls' : List Label} {b b' : B.State}
    (hp : PacedBy o ls b) (ho : o.retryMinWaitTime ≤ o.retryMaxWaitTime)
    (hls : grantTtl ls' = grantTtl ls) (hb : ∀ lo hi, B.Built lo hi b → B.Built lo hi b') :
    ∃ t, grantTtl ls' = some t ∧ o.SpacesWithin t (B.next b').1 := by
  obtain ⟨t, ht, hbuilt⟩ := hp
  exact ⟨t, hls.trans ht, hB.between (min_le_min_right t ho) (hb _ _ hbuilt)⟩

theorem WorkerStep.drawn (hB : B.Bounded) {s s' : Session} {w w' : Worker B} {a : Answer}
    {fin : Bool} {ls : List Label} (hw : WorkerStep s w a s' w')
    (ho : w.options.retryMinWaitTime ≤ w.options.retryMaxWaitTime)
    (hp : w.pc.Paced w.options s.leaseTtl fin ls) (hi : w.pc.Drawn w.options ls) :
    w'.pc.Drawn w'.options (.worker a :: ls) := by
  cases hw with
  | loopClosed => exact .new
  | loopOpen => exact .new
  | grantLoopOpen => exact hi
  | grantError => exact hB.spaces ho (hi.resetWith false)
  | grantWaitOver => exact hi.2
  | opened => exact hp.paced.spaces hB ho rfl fun _ _ hb => hb
  | reply => exact PacedBy.spaces hB hp ho rfl fun _ _ hb => hb.reset
  | failed => exact hp.1.spaces hB ho rfl fun _ _ hb => hb.resetWith false
  | revokeFailed => exact hB.spaces ho (hi.resetWith false)
  | revokeAgain => exact hi.2
  | _ => trivial

theorem Pc.Drawn.mono {o : SessionOptions} {ls ls' : List Label} {pc : Pc B}
    (hi : pc.Drawn o ls) (hls : grantTtl ls' = grantTtl ls) : pc.Drawn o ls' := by
  unfold Drawn at hi ⊢
  rw [hls]
  exact hi

theorem drawn_run (hB : B.Bounded) {h : History (State B) Label} {s : State B} (hr : SRun h s)
    (ho : Along OrderedWaits h) :
    Paced h s ∧ ∀ w, s.thread = .started w → w.pc.Drawn w.options (labels h) := by
  refine Run.inv_along (C := OrderedWaits)
    (P := fun h s => Paced h s ∧ ∀ w, s.thread = .started w → w.pc.Drawn w.options (labels h))
    (fun s hs => ⟨paced_init hs, fun w hw => absurd hw (hs.not_started w)⟩) ?_ hr ho
  intro h s s' l hr' hi hl hs
  obtain ⟨hpaced, hdrawn⟩ := hi
  refine ⟨paced_step hB (inv_run hr') hpaced hl hs, fun w₁ hw₁ => ?_⟩
  rcases step_cases (inv_run hr') hs with ⟨a, w, r, w', rfl, ht, -, hw, rfl⟩ | ⟨hno, hframe⟩
  · cases hw₁
    exact hw.drawn hB (hpaced.ordered w ht) (hpaced.counter w ht) (hdrawn w ht)
  · rcases hframe.back w₁ hw₁ with ht | hloop
    · exact (hdrawn w₁ ht).mono (ttl_frame hno (labels h)).1
    · rw [hloop]
      trivial

/-- **Every wait lies between its bounds**: it is no longer than the
maximum, and no shorter than the minimum and the TTL of the grant. -/
theorem waits_between (hB : B.Bounded) {h : History (State B) Label} {s : State B}
    (hr : SRun h s) (ho : Along OrderedWaits h) {w : Worker B} (ht : s.thread = .started w)
    {d : ℚ} (hd : w.pc.waitTime = some d) :
    d ≤ w.options.retryMaxWaitTime ∧
      ∀ m : Int, m ≤ w.options.retryMinWaitTime → (∀ t, grantTtl (labels h) = some t → m ≤ t) →
        (m : ℚ) ≤ d := by
  have hi := (drawn_run hB hr ho).2 w ht
  obtain ⟨o, pc⟩ := w
  have hfree : o.Spaces d → d ≤ o.retryMaxWaitTime ∧
      ∀ m : Int, m ≤ o.retryMinWaitTime → (∀ t, grantTtl (labels h) = some t → m ≤ t) →
        (m : ℚ) ≤ d := by
    intro hs
    refine ⟨hs.2, fun m hm _ => le_trans ?_ hs.1⟩
    exact_mod_cast hm
  have hcapped : (∃ t, grantTtl (labels h) = some t ∧ o.SpacesWithin t d) →
      d ≤ o.retryMaxWaitTime ∧
      ∀ m : Int, m ≤ o.retryMinWaitTime → (∀ t, grantTtl (labels h) = some t → m ≤ t) →
        (m : ℚ) ≤ d := by
    intro hs
    obtain ⟨t, htl, hlo, hhi⟩ := hs
    refine ⟨hhi.trans ?_, fun m hm ht => le_trans ?_ hlo⟩
    · exact_mod_cast min_le_left _ _
    · exact_mod_cast le_min hm (ht t htl)
  cases pc <;> cases hd
  · exact hfree hi.1
  · exact hcapped hi
  · exact hcapped hi
  · exact hfree hi.1

/-! ## Two requests for each wait -/

/-- The requests that the worker may send before its next wait is over. -/
def Pc.dueBeforeWait (finished : Bool) : Pc B → ℕ
  | .ended | .setClosed | .revokeSleep _ _ _ _ => 0
  | .loop | .cancelStream | .resetAlive | .setExpired => if finished then 1 else 2
  | .grantLoop _ | .leaseGrant _ | .read _ _ | .finishStream _ => 2
  | .write _ => 3
  | _ => 1

/-- The step ends a wait or sleep that was not cut short. -/
def Answer.endsWait : Answer → Bool
  | .wait false | .slept => true
  | _ => false

theorem Pc.dueBeforeWait_mono {f f' : Bool} (hf : f = true → f' = true) (pc : Pc B) :
    pc.dueBeforeWait f' ≤ pc.dueBeforeWait f := by
  cases f with
  | true =>
    rw [hf rfl]
  | false =>
    cases f' with
    | false => exact le_rfl
    | true => cases pc <;> simp [dueBeforeWait]

/-- One step: a request is sent out of what is due, and a wait that is over
allows two more. -/
theorem WorkerStep.due_step {s s' : Session} {w w' : Worker B} {a : Answer} {f : Bool}
    (hw : WorkerStep s w a s' w') (ha : a.agrees f = true) :
    (w.pc.request s w.options).toList.length + w'.pc.dueBeforeWait f
      ≤ w.pc.dueBeforeWait f + 2 * a.endsWait.toNat := by
  have hopen : ∀ b, a = .finished b ∨ a = .wait b → f = b := by
    intro b hb
    rcases hb with rfl | rfl <;> exact (beq_iff_eq.mp ha).symm
  cases hw with
  | loopClosed => rw [hopen true (Or.inl rfl)]; exact le_rfl
  | loopClosedNoRevoke => exact Nat.zero_le _
  | loopOpen => rw [hopen false (Or.inl rfl)]; exact le_rfl
  | grantedClosed => rw [hopen true (Or.inl rfl)]; exact le_rfl
  | keepAliveLoopClosed => rw [hopen true (Or.inl rfl)]; exact le_rfl
  | keepAliveWaitClosed => rw [hopen true (Or.inr rfl)]; exact le_rfl
  | keepAliveSlept => exact Nat.le_add_right 1 2
  | lost => cases f <;> first | exact le_rfl | exact Nat.le_succ _
  | cancelled => cases f <;> exact le_rfl
  | resetAlive => cases f <;> exact le_rfl
  | setExpired => cases f <;> exact le_rfl
  | _ => first | exact le_rfl | exact Nat.le_succ _ | exact Nat.zero_le _

/-- The requests that the step sends. -/
def requestsOf (s : State B) : Label → ℕ
  | .worker _ => s.request.toList.length
  | _ => 0

/-- The step ends a wait. -/
def Label.endsWait : Label → Bool
  | .worker a => a.endsWait
  | _ => false

/-- The waits and sleeps that are over and were not cut short. -/
def waitsOver (h : History (State B) Label) : ℕ := h.countP fun p => p.2.endsWait

/-- The requests that may be sent before the next wait is over. -/
def State.dueBeforeWait (s : State B) : ℕ :=
  match s.thread with
  | .none => 2
  | .started w => w.pc.dueBeforeWait s.finished
  | .joined => 0

theorem due_step {s s' : State B} {l : Label} (hinv : Inv s) (hs : step s l = some s') :
    requestsOf s l + s'.dueBeforeWait ≤ s.dueBeforeWait + 2 * l.endsWait.toNat := by
  have hfin : s.finished = true → s'.finished = true := fun hf => finished_step hf hs
  have hframe : s'.thread = s.thread → s'.dueBeforeWait ≤ s.dueBeforeWait := by
    intro hth
    unfold State.dueBeforeWait
    rw [hth]
    cases s.thread with
    | started w => exact w.pc.dueBeforeWait_mono hfin
    | _ => exact le_rfl
  cases step_iff.mp hs with
  | @worker w a r w' ht ha hw =>
    have hstep := hw.due_step ha
    have hmono := w'.pc.dueBeforeWait_mono hfin
    simp only [requestsOf, State.request, State.dueBeforeWait, Label.endsWait, ht] at hmono ⊢
    omega
  | grantOk _ _ hg =>
    have hdue : s.dueBeforeWait = 2 := by rw [State.dueBeforeWait, hinv.thread_none hg]
    rw [hdue]
    show 0 + (if _ then 1 else 2) ≤ 2 + 0
    split <;> omega
  | closeJoined => exact Nat.zero_le _
  | ctxDone => simpa [requestsOf, Label.endsWait] using hframe rfl
  | grantRefused => simp [requestsOf, Label.endsWait]
  | close => simpa [requestsOf, Label.endsWait] using hframe rfl
  | closeFree => simpa [requestsOf, Label.endsWait] using hframe rfl

theorem total_requestsOf (h : History (State B) Label) :
    total requestsOf h = (sentRequests h).length := by
  induction h with
  | nil => rfl
  | cons p h ih =>
    obtain ⟨s, l⟩ := p
    rw [total_cons, ih]
    cases l with
    | worker a => exact (List.length_append).symm
    | _ => exact Nat.zero_add _

theorem total_waitsOver (h : History (State B) Label) :
    total (fun _ l => 2 * l.endsWait.toNat) h = 2 * waitsOver h := by
  induction h with
  | nil => rfl
  | cons p h ih =>
    obtain ⟨s, l⟩ := p
    rw [total_cons, ih, waitsOver, waitsOver, List.countP_cons]
    cases l.endsWait with
    | true =>
      simp only [Bool.toNat_true, if_true]
      omega
    | false =>
      simp only [Bool.toNat_false, Bool.false_eq_true, if_false]
      omega

/-- In every run the worker sends at most two requests, and two for each
wait that is over. -/
theorem requests_le {h : History (State B) Label} {s : State B} (hr : SRun h s) :
    (sentRequests h).length ≤ 2 + 2 * waitsOver h := by
  have htotal := hr.total_le requestsOf (fun _ l => 2 * l.endsWait.toNat)
    (fun _ s => s.dueBeforeWait) 2 (C := fun _ _ _ => True)
    (fun s hs => by
      obtain ⟨lease, leaseTtl, rfl⟩ := hs
      exact le_rfl)
    (fun hr' _ _ hs => due_step (inv_run hr') hs) (Along.of_true h)
  rw [total_requestsOf, total_waitsOver] at htotal
  omega

/-! ## The time that passes -/

/-- The time that the steps have taken. -/
def elapsed (h : TimedHistory B) : ℚ := total (fun _ p => p.2) h

/-- `Grant` is called with retry times in order, from `m` seconds on, and no
lease is granted for less. -/
def Unhurried (m : Int) (_ : History (State B) Label) (_ : State B) (l : Label) : Prop :=
  (∀ o, l = .grant o → m ≤ o.retryMinWaitTime ∧ o.retryMinWaitTime ≤ o.retryMaxWaitTime) ∧
    ∀ t, grantedTtl l = some t → m ≤ t

theorem Unhurried.grantTtl {m : Int} {h : History (State B) Label}
    (hc : Along (Unhurried m) h) : ∀ t, grantTtl (labels h) = some t → m ≤ t := by
  induction h with
  | nil => intro t ht; cases ht
  | cons p h ih =>
    obtain ⟨s, l⟩ := p
    intro t ht
    unfold Etcdv3Client.grantTtl at ht
    rw [labels, List.map_cons, List.findSome?_cons] at ht
    cases hl : grantedTtl l with
    | some t' =>
      rw [hl] at ht
      cases ht
      exact hc.2.2 t hl
    | none =>
      rw [hl] at ht
      exact ih hc.1 t ht

theorem Unhurried.minWait {m : Int} {h : History (State B) Label} {s : State B} (hr : SRun h s)
    (hc : Along (Unhurried m) h) : ∀ w, s.thread = .started w → m ≤ w.options.retryMinWaitTime := by
  refine Run.inv_along (C := Unhurried m)
    (P := fun _ s => ∀ w, s.thread = .started w → m ≤ w.options.retryMinWaitTime)
    (fun s hs w hw => absurd hw (hs.not_started w)) (fun _ hi hl hs w hw => ?_) hr hc
  cases step_iff.mp hs with
  | grantOk =>
    cases hw
    exact (hl.1 _ rfl).1
  | closeJoined => cases hw
  | worker ht _ hws =>
    cases hw
    rw [hws.options_retry.1]
    exact hi _ ht
  | _ => exact hi w hw

/-- A wait that is over took its time. -/
theorem endsWait_takes {s s' : State B} {l : Label} {d : ℚ} (hs : step s l = some s')
    (hl : l.endsWait = true) (hd : mayTake s d l = true) :
    ∃ w x, s.thread = .started w ∧ w.pc.waitTime = some x ∧ x ≤ d := by
  cases step_iff.mp hs with
  | @worker w a r w' ht _ hw =>
    have htime : ∃ x, w.pc.waitTime = some x := by
      cases hw <;> first | exact ⟨_, rfl⟩ | cases hl
    obtain ⟨x, hx⟩ := htime
    refine ⟨w, x, ht, hx, ?_⟩
    have hmem : x ∈ s.waitTime := by
      rw [State.waitTime, ht]
      exact hx
    cases hw <;> first | exact of_decide_eq_true hd x hmem | cases hl
  | _ => cases hl

theorem waits_take (hB : B.Bounded) {m : Int} {h : TimedHistory B} {s : State B}
    (hr : TimedRun h s) (hd : Along Consistent h) (hc : Along (Unhurried m) (untimed h)) :
    (waitsOver (untimed h) : ℚ) * m ≤ elapsed h := by
  induction hr with
  | start => simp [untimed, waitsOver, elapsed, total]
  | @next h s s' p hr hs ih =>
    obtain ⟨l, d⟩ := p
    have hold := ih hd.1 hc.1
    have hpos : 0 ≤ d := hd.2.1
    have hnew : ((l.endsWait.toNat : ℕ) : ℚ) * m ≤ d := by
      cases hl : l.endsWait with
      | false => simpa using hpos
      | true =>
        obtain ⟨w, x, ht, hx, hxd⟩ := endsWait_takes hs hl hd.2.2
        have hordered : Along OrderedWaits (untimed h) :=
          hc.1.imp fun _ _ _ hu o ho => (hu.1 o ho).2
        have hmx := (waits_between hB (TimedRun.untimed hr) hordered ht hx).2 m
          (Unhurried.minWait (TimedRun.untimed hr) hc.1 w ht) (Unhurried.grantTtl hc.1)
        simpa using hmx.trans hxd
    have hcons : waitsOver (untimed ((s, l, d) :: h))
        = waitsOver (untimed h) + l.endsWait.toNat := by
      show List.countP _ ((s, l) :: untimed h) = _
      rw [List.countP_cons]
      cases l.endsWait <;> simp [waitsOver]
    rw [hcons]
    show _ ≤ d + elapsed h
    push_cast
    linarith

/-! ## Main result -/

/-- **A session asks at a bounded rate.** Let the waits be at least `m`
seconds: `Grant` is called with retry times from `m` on, and no lease is
granted for less. Then, for consistent durations, all the requests that a
session has sent since its beginning are no more than two, and two for each
`m` seconds that have passed since. -/
theorem requests_paced (hB : B.Bounded) {m : Int} (hm : 0 < m) {h : TimedHistory B} {s : State B}
    (hr : TimedRun h s) (hd : Along Consistent h) (hc : Along (Unhurried m) (untimed h)) :
    ((sentRequests (untimed h)).length : ℚ) ≤ 2 + 2 * (elapsed h / m) := by
  have hm' : (0 : ℚ) < m := by exact_mod_cast hm
  have hsent : ((sentRequests (untimed h)).length : ℚ) ≤ 2 + 2 * (waitsOver (untimed h) : ℚ) := by
    exact_mod_cast requests_le (TimedRun.untimed hr)
  have htime : (waitsOver (untimed h) : ℚ) ≤ elapsed h / m :=
    (le_div_iff₀ hm').mpr (waits_take hB hr hd hc)
  linarith

/-- The attempt above that fails: two requests in two seconds. -/
theorem requests_paced_retried :
    ∃ h s, exec timedStep [] (State.new 5 0 : State .constant) (retryScript 60) = some (h, s) ∧
      (sentRequests (untimed h)).length = 2 ∧ elapsed h = 2 ∧
      ((sentRequests (untimed h)).length : ℚ) ≤ 2 + 2 * (elapsed h / (1 : Int)) := by
  refine ⟨_, _, rfl, rfl, by decide +kernel, ?_⟩
  refine requests_paced BackOffStrategy.bounded_constant (by decide) (Run.exec (.start ⟨5, 0, rfl⟩)
    (rfl : exec timedStep [] (State.new 5 0 : State .constant) (retryScript 60)
      = some (_, _))) ?_ ?_
  · decide +kernel
  · simp [untimed, Along, Unhurried, grantedTtl, SessionOptions.new]

end

end Etcdv3Client
