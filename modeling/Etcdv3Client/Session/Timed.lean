import Mathlib.Tactic.Linarith
import Mathlib.Tactic.Ring
import Etcdv3Client.Session.Interval

/-!
# The time since the last reply

The worker reads no clock: it learns of time only by the waits and sleeps
it asks for. Here each step also has a duration, given by the environment,
and the law is that no attempt to keep the lease alive begins later than
the TTL of the last reply after that reply, with `alive_` still set. Each
wait and sleep is capped by the TTL of the grant; but after the first one,
every attempt that fails adds two more.
-/

namespace Etcdv3Client

open Transition

section
variable {B : BackOffStrategy}

/-! ## Timed runs -/

/-- A step and the seconds until it is over. -/
def timedStep (s : State B) (p : Label × ℚ) : Option (State B) := step s p.1

abbrev TimedHistory (B : BackOffStrategy) := History (State B) (Label × ℚ)

abbrev TimedRun (h : TimedHistory B) (s : State B) : Prop := Run timedStep Init h s

/-- The argument of `close_event->Wait` or `sleep_for`. -/
def Pc.waitTime : Pc B → Option ℚ
  | .grantWait d _ | .keepAliveWait d _ | .keepAliveSleep d _ | .revokeSleep _ _ d _ => some d
  | _ => none

def State.waitTime (s : State B) : Option ℚ :=
  match s.thread with
  | .started w => w.pc.waitTime
  | _ => none

/-- The durations a step can have: a wait that runs out and a sleep take at
least their argument, the worker's other calls any time; its tests and
flags take none, and the steps of the others happen within its own. -/
def mayTake (s : State B) (d : ℚ) : Label → Bool
  | .worker (.wait false) | .worker .slept => decide (∀ x ∈ s.waitTime, x ≤ d)
  | .worker (.finished _) | .worker .flag => decide (d = 0)
  | .worker _ => true
  | _ => decide (d = 0)

def Consistent (_ : TimedHistory B) (s : State B) (p : Label × ℚ) : Prop :=
  0 ≤ p.2 ∧ mayTake s p.2 p.1 = true

instance (h : TimedHistory B) (s : State B) (p : Label × ℚ) : Decidable (Consistent h s p) :=
  inferInstanceAs (Decidable (0 ≤ p.2 ∧ mayTake s p.2 p.1 = true))

/-- The history without its durations. -/
def untimed (h : TimedHistory B) : History (State B) Label := h.map fun p => (p.1, p.2.1)

theorem TimedRun.untimed {h : TimedHistory B} {s : State B} (hr : TimedRun h s) :
    SRun (untimed h) s := by
  induction hr with
  | start hs => exact .start hs
  | next _ hs ih => exact Run.next ih hs

/-- The labels of a timed history. -/
abbrev timedLabels (h : TimedHistory B) : List Label := labels (untimed h)

/-- The time since the last `LeaseGrant` or `LeaseKeepAlive` reply. -/
def sinceReply : TimedHistory B → ℚ
  | [] => 0
  | (_, l, d) :: h => if (replyTtl l).isSome then 0 else sinceReply h + d

/-! ## Where the time goes -/

/-- The wait or sleep that ends with the step. -/
def pause (s : State B) : Label → ℚ
  | .worker (.wait _) | .worker .slept => s.waitTime.getD 0
  | _ => 0

/-- What the steps since the last reply took beyond the waits and sleeps
asked for: a call all of its time, a wait or sleep what it is late. -/
def overrun : TimedHistory B → ℚ
  | [] => 0
  | (s, l, d) :: h => if (replyTtl l).isSome then 0 else overrun h + (d - pause s l)

/-- The backoff of `TryKeepAlive`, and the sum of its answers since the last
reply: it is built from the retry times and the TTL of the grant, and asked
once for every new stream, every reply and every stream that failed. -/
def keepAliveBackoff (o : SessionOptions) : List Label → Option (B.State × ℚ)
  | [] => none
  | .worker (.leaseGrant (.ok rsp)) :: _ =>
      some (B.new (min o.retryMinWaitTime rsp.ttl) (min o.retryMaxWaitTime rsp.ttl), 0)
  | .worker .stream :: ls =>
      (keepAliveBackoff o ls).map fun p => ((B.next p.1).2, p.2 + (B.next p.1).1)
  | .worker (.read (some _)) :: ls =>
      (keepAliveBackoff o ls).map fun p => ((B.next (B.reset p.1)).2, (B.next (B.reset p.1)).1)
  | .worker (.finish _) :: ls =>
      (keepAliveBackoff o ls).map fun p =>
        ((B.next (B.resetWith false p.1)).2, p.2 + (B.next (B.resetWith false p.1)).1)
  | _ :: ls => keepAliveBackoff o ls

/-- The attempts that failed since the last reply. -/
def failuresSinceReply : List Label → ℕ
  | [] => 0
  | l :: ls =>
      if (replyTtl l).isSome then 0 else failuresSinceReply ls + (attemptFails l).toNat

/-- The most that the backoff may have answered since the reply: its capped
minimum, and its capped maximum twice for every failure. -/
def answersBound (o : SessionOptions) (ls : List Label) (ttl : Int) : ℚ :=
  (min o.retryMinWaitTime ttl : Int)
    + 2 * failuresSinceReply ls * (min o.retryMaxWaitTime ttl : Int)

/-! ## Attempts in time -/

/-- The calls that begin an attempt: opening a stream, writing a request. -/
def Pc.attempting : Pc B → Bool
  | .openStream _ | .write _ => true
  | _ => false

def State.attempting (s : State B) : Bool :=
  match s.thread with
  | .started w => w.pc.attempting
  | _ => false

/-- An attempt about to begin with `alive_` set begins within the positive
TTL of the last reply. -/
def AttemptsInTime (h : TimedHistory B) (s : State B) : Prop :=
  s.attempting = true → s.session.alive = true →
    ∀ t ∈ lastTtl (timedLabels h), 0 < t → sinceReply h ≤ t

/-- The options of a worker that goes on to an attempt by the step: by the
loop test that finds the close event unfinished, or the wait that runs out. -/
def leadsToAttempt (s : State B) (l : Label) : Option SessionOptions :=
  match s.thread, l with
  | .started ⟨o, .keepAliveLoop _⟩, .worker (.finished false) => some o
  | .started ⟨o, .keepAliveWait _ _⟩, .worker (.wait false) => some o
  | _, _ => none

/-- At such a step, what the calls took and the waits were late fits into
what the answers of the backoff leave of the TTL. -/
def TimeLeft (h : TimedHistory B) (s : State B) (p : Label × ℚ) : Prop :=
  ∀ o ∈ leadsToAttempt s p.1, ∀ q ∈ keepAliveBackoff (B := B) o (timedLabels h),
    ∀ t ∈ lastTtl (timedLabels h), 0 < t → overrun ((s, p) :: h) ≤ t - q.2

instance (h : TimedHistory B) (s : State B) (p : Label × ℚ) : Decidable (TimeLeft h s p) :=
  inferInstanceAs (Decidable (∀ o ∈ leadsToAttempt s p.1,
    ∀ q ∈ keepAliveBackoff (B := B) o (timedLabels h),
      ∀ t ∈ lastTtl (timedLabels h), 0 < t → overrun ((s, p) :: h) ≤ t - q.2))

/-- The same for all that the backoff may answer, with no wait below zero. -/
def FewFailures (h : TimedHistory B) (s : State B) (p : Label × ℚ) : Prop :=
  ∀ o ∈ leadsToAttempt s p.1, ∀ t₀ ∈ grantTtl (timedLabels h), ∀ t ∈ lastTtl (timedLabels h),
    0 < t → 0 ≤ min o.retryMinWaitTime t₀ ∧
      overrun ((s, p) :: h) ≤ t - answersBound o (timedLabels h) t₀

theorem inv_timedRun {h : TimedHistory B} {s : State B} (hr : TimedRun h s) : Inv s :=
  hr.inv_state (fun _ => inv_init) fun hi hs => inv_step hi hs

/-- A worker step comes to an attempt only from these two. -/
theorem WorkerStep.leads {st : State B} {s s' : Session} {w w' : Worker B} {a : Answer}
    (ht : st.thread = .started w) (hw : WorkerStep s w a s' w') :
    (leadsToAttempt st (.worker a)).isSome = w'.pc.attempting := by
  unfold leadsToAttempt
  rw [ht]
  cases hw <;> rfl

theorem attempting_keepingAlive {pc : Pc B} (h : pc.attempting = true) :
    pc.keepingAlive = true := by
  cases pc <;> first | rfl | exact Bool.noConfusion h

theorem leadsToAttempt_inv {s : State B} {l : Label} {o : SessionOptions}
    (h : leadsToAttempt s l = some o) :
    (∃ b, s.thread = .started ⟨o, .keepAliveLoop b⟩ ∧ l = .worker (.finished false)) ∨
      ∃ d b, s.thread = .started ⟨o, .keepAliveWait d b⟩ ∧ l = .worker (.wait false) := by
  unfold leadsToAttempt at h
  split at h
  · rename_i b ht
    cases h
    exact Or.inl ⟨b, ht, rfl⟩
  · rename_i d b ht
    cases h
    exact Or.inr ⟨d, b, ht, rfl⟩
  · cases h

theorem leadsToAttempt_frame {s : State B} {l : Label} (hl : ∀ a, l ≠ .worker a) :
    leadsToAttempt s l = none := by
  cases l with
  | worker a => exact absurd rfl (hl a)
  | _ => simp [leadsToAttempt]

/-! ## The backoff, and the time since the reply -/

/-- The worker's backoff is the one of the replies and failures, and its
answers but for the one that is awaited, with what came on top, make up the
time. -/
def Pc.Clocked (o : SessionOptions) (leaseTtl : Int) (finished : Bool) (ls : List Label)
    (since late : ℚ) : Pc B → Prop
  | .granted => finished = true ∨ since = late ∧ keepAliveBackoff (B := B) o ls =
      some (B.new (min o.retryMinWaitTime leaseTtl) (min o.retryMaxWaitTime leaseTtl), 0)
  | .resetExpired | .setAlive => since = late ∧ keepAliveBackoff (B := B) o ls =
      some (B.new (min o.retryMinWaitTime leaseTtl) (min o.retryMaxWaitTime leaseTtl), 0)
  | .keepAliveLoop b | .openStream b | .write b | .read _ b | .finishStream b =>
      ∃ sum, keepAliveBackoff o ls = some (b, sum) ∧ since = late + sum
  | .keepAliveWait d b | .keepAliveSleep d b =>
      ∃ sum, keepAliveBackoff o ls = some (b, sum) ∧ since + d = late + sum
  | _ => True

def Clocked (h : TimedHistory B) (s : State B) : Prop :=
  ∀ w, s.thread = .started w →
    w.pc.Clocked w.options s.session.leaseTtl s.finished (timedLabels h) (sinceReply h) (overrun h)

/-- A step that is no reply takes what it was to wait from the time that the
answers make up. -/
theorem clock_cons {h : TimedHistory B} {s : State B} {l : Label} {x sum : ℚ} (d : ℚ)
    (hl : replyTtl l = none) (hx : pause s l = x) (hi : sinceReply h + x = overrun h + sum) :
    sinceReply ((s, l, d) :: h) = overrun ((s, l, d) :: h) + sum := by
  have hsince : sinceReply ((s, l, d) :: h) = sinceReply h + d := by simp [sinceReply, hl]
  have hover : overrun ((s, l, d) :: h) = overrun h + (d - x) := by simp [overrun, hl, hx]
  rw [hsince, hover]
  linarith

/-- A call waits for nothing that was asked for. -/
theorem clock_call {h : TimedHistory B} {s : State B} {l : Label} {sum : ℚ} (d : ℚ)
    (hl : replyTtl l = none) (hx : pause s l = 0) (hi : sinceReply h = overrun h + sum) :
    sinceReply ((s, l, d) :: h) = overrun ((s, l, d) :: h) + sum :=
  clock_cons d hl hx ((add_zero _).trans hi)

/-- The worker's step: every answer is added where it is asked for, and the
wait or sleep it is for is taken off when it is over. -/
theorem WorkerStep.clocked {h : TimedHistory B} {st : State B} {s' : Session} {w w' : Worker B}
    {a : Answer} {fin fin' : Bool} (d : ℚ) (hw : WorkerStep st.session w a s' w')
    (ht : st.thread = .started w) (hag : a.agrees fin = true) (hfin : fin = true → fin' = true)
    (hi : w.pc.Clocked w.options st.session.leaseTtl fin (timedLabels h) (sinceReply h)
      (overrun h)) :
    w'.pc.Clocked w'.options s'.leaseTtl fin' (.worker a :: timedLabels h)
      (sinceReply ((st, .worker a, d) :: h)) (overrun ((st, .worker a, d) :: h)) := by
  cases hw with
  | grantOk => exact Or.inr ⟨rfl, rfl⟩
  | grantLoopClosed => exact Or.inl (hfin (by simpa [Answer.agrees] using hag))
  | grantWaitClosed => exact Or.inl (hfin (by simpa [Answer.agrees] using hag))
  | grantedOpen =>
    have hopen : fin = false := by simpa [Answer.agrees] using hag
    obtain ⟨hsame, hback⟩ := hi.resolve_left (by simp [hopen])
    exact ⟨by simp [sinceReply, overrun, replyTtl, pause, hsame], hback⟩
  | resetExpired => exact ⟨by simp [sinceReply, overrun, replyTtl, pause, hi.1], hi.2⟩
  | setAlive =>
    exact ⟨0, hi.2, by simp [sinceReply, overrun, replyTtl, pause, hi.1]⟩
  | keepAliveLoopOpen =>
    obtain ⟨sum, hback, hsince⟩ := hi
    exact ⟨sum, hback, clock_call d rfl rfl hsince⟩
  | opened =>
    obtain ⟨sum, hback, hsince⟩ := hi
    refine ⟨_, by simp only [keepAliveBackoff, hback]; rfl, ?_⟩
    rw [clock_call d rfl rfl hsince, add_assoc]
  | keepAliveWaitOver =>
    obtain ⟨sum, hback, hsince⟩ := hi
    refine ⟨sum, hback, clock_cons d rfl ?_ hsince⟩
    simp [pause, State.waitTime, ht, Pc.waitTime]
  | written =>
    obtain ⟨sum, hback, hsince⟩ := hi
    exact ⟨sum, hback, clock_call d rfl rfl hsince⟩
  | writeFailed =>
    obtain ⟨sum, hback, hsince⟩ := hi
    exact ⟨sum, hback, clock_call d rfl rfl hsince⟩
  | reply =>
    obtain ⟨sum, hback, hsince⟩ := hi
    refine ⟨_, by simp only [keepAliveBackoff, hback]; rfl, ?_⟩
    simp [sinceReply, overrun, replyTtl]
  | readFailed =>
    obtain ⟨sum, hback, hsince⟩ := hi
    exact ⟨sum, hback, clock_call d rfl rfl hsince⟩
  | failed =>
    obtain ⟨sum, hback, hsince⟩ := hi
    refine ⟨_, by simp only [keepAliveBackoff, hback]; rfl, ?_⟩
    rw [clock_call d rfl rfl hsince, add_assoc]
  | keepAliveSlept =>
    obtain ⟨sum, hback, hsince⟩ := hi
    refine ⟨sum, hback, clock_cons d rfl ?_ hsince⟩
    simp [pause, State.waitTime, ht, Pc.waitTime]
  | _ => trivial

/-- The steps of the callers and of the context take their time from both
sides. -/
theorem Pc.Clocked.frame {o : SessionOptions} {leaseTtl : Int} {f f' : Bool} {ls ls' : List Label}
    {since late d : ℚ} {pc : Pc B} (hp : pc.Clocked o leaseTtl f ls since late)
    (hf : f = true → f' = true) (hls : keepAliveBackoff (B := B) o ls' = keepAliveBackoff o ls) :
    pc.Clocked o leaseTtl f' ls' (since + d) (late + d) := by
  unfold Clocked at hp ⊢
  rw [hls]
  cases pc <;> grind

/-- The time that passes in such a step is no one's wait. -/
theorem clock_frame {l : Label} (hl : ∀ a, l ≠ .worker a) (h : TimedHistory B) (s : State B)
    (d : ℚ) (o : SessionOptions) :
    sinceReply ((s, l, d) :: h) = sinceReply h + d ∧
      overrun ((s, l, d) :: h) = overrun h + d ∧
      keepAliveBackoff (B := B) o (l :: timedLabels h) = keepAliveBackoff o (timedLabels h) := by
  cases l with
  | worker a => exact absurd rfl (hl a)
  | _ => simp [sinceReply, overrun, replyTtl, pause, keepAliveBackoff]

theorem clocked_step {h : TimedHistory B} {s s' : State B} {l : Label} {d : ℚ} (hinv : Inv s)
    (hi : Clocked h s) (hs : step s l = some s') : Clocked ((s, l, d) :: h) s' := by
  intro w₁ hw₁
  have hfin : s.finished = true → s'.finished = true := fun hf => finished_step hf hs
  rcases step_cases hinv hs with ⟨a, w, r, w', rfl, ht, ha, hw, rfl⟩ | ⟨hl, hframe⟩
  · cases hw₁
    exact hw.clocked d ht ha hfin (hi w ht)
  · rw [leaseTtl_frame hl hs]
    rcases hframe.back w₁ hw₁ with ht | hloop
    · obtain ⟨hsince, hover, hback⟩ := clock_frame hl h s d w₁.options
      rw [hsince, hover]
      exact (hi w₁ ht).frame hfin hback
    · rw [hloop]
      trivial

/-! ## The answers against the failures -/

theorem failedSinceReply_iff (ls : List Label) :
    failedSinceReply ls = true ↔ failuresSinceReply ls ≠ 0 := by
  induction ls with
  | nil => simp [failedSinceReply, failuresSinceReply]
  | cons l ls ih =>
    simp only [failedSinceReply, failuresSinceReply]
    cases (replyTtl l).isSome with
    | true => simp
    | false => cases hl : attemptFails l <;> simp [ih]

/-- A failure makes room for two answers. -/
theorem answersBound_failed {o : SessionOptions} {l : Label} {ls : List Label} {ttl : Int}
    {sum : ℚ} (hl : replyTtl l = none) (hf : attemptFails l = true)
    (hsum : sum ≤ answersBound o ls ttl) :
    sum + 2 * (min o.retryMaxWaitTime ttl : Int) ≤ answersBound o (l :: ls) ttl := by
  have hone : answersBound o (l :: ls) ttl
      = answersBound o ls ttl + 2 * (min o.retryMaxWaitTime ttl : Int) := by
    simp only [answersBound, failuresSinceReply, hl, hf]
    simp
    ring
  rw [hone]
  linarith

/-- The answers so far are within it, and leave room for those that are asked
for before the next failure. -/
def Pc.Asked (o : SessionOptions) (ls : List Label) (ttl : Int) (sum : ℚ) : Pc B → Prop
  | .keepAliveLoop _ | .openStream _ | .keepAliveSleep _ _ =>
      sum + waitBound o ls ttl ≤ answersBound o ls ttl
  | .keepAliveWait _ _ | .write _ | .read _ _ => sum ≤ answersBound o ls ttl
  | .finishStream _ =>
      sum + 2 * (min o.retryMaxWaitTime ttl : Int) ≤ answersBound o ls ttl
  | _ => True

def Asked (h : TimedHistory B) (s : State B) : Prop :=
  ∀ w, s.thread = .started w → ∀ t₀, grantTtl (timedLabels h) = some t₀ →
    ∀ q, keepAliveBackoff (B := B) w.options (timedLabels h) = some q →
      w.pc.Asked w.options (timedLabels h) t₀ q.2

/-- The worker's step: a failure makes room for two answers, the one for the
sleep and the one for the wait on the next stream. -/
theorem WorkerStep.asked (hB : B.Bounded) {s s' : Session} {w w' : Worker B} {a : Answer}
    {fin : Bool} {ls : List Label} {since late : ℚ} (hw : WorkerStep s w a s' w')
    (ho : w.options.retryMinWaitTime ≤ w.options.retryMaxWaitTime)
    (hp : w.pc.Paced w.options s.leaseTtl fin ls)
    (hc : w.pc.Clocked w.options s.leaseTtl fin ls since late)
    (hi : ∀ t₀, grantTtl ls = some t₀ → ∀ q, keepAliveBackoff (B := B) w.options ls = some q →
      w.pc.Asked w.options ls t₀ q.2) :
    ∀ t₀, grantTtl (.worker a :: ls) = some t₀ →
      ∀ q, keepAliveBackoff (B := B) w'.options (.worker a :: ls) = some q →
        w'.pc.Asked w'.options (.worker a :: ls) t₀ q.2 := by
  intro t₀ hg q hq
  have hle : min w.options.retryMinWaitTime t₀ ≤ min w.options.retryMaxWaitTime t₀ :=
    min_le_min_right t₀ ho
  cases hw with
  | setAlive =>
    cases hc.2.symm.trans hq
    have hfail : failuresSinceReply ls = 0 := by
      by_contra hne
      exact absurd (hp.2.symm.trans ((failedSinceReply_iff ls).mpr hne)) (by decide)
    have hno : failedSinceReply (.worker .flag :: ls) = false := hp.2
    have hzero : failuresSinceReply (.worker .flag :: ls) = 0 := hfail
    simp [Pc.Asked, tryKeepAlive, waitBound, answersBound, hno, hzero]
  | keepAliveLoopOpen => exact hi t₀ hg q hq
  | @opened o b =>
    obtain ⟨sum, hback, -⟩ := hc
    simp only [keepAliveBackoff, hback, Option.map_some, Option.some.injEq] at hq
    subst hq
    have hsum : sum + waitBound o ls t₀ ≤ answersBound o ls t₀ := hi t₀ hg _ hback
    have hpaced : PacedFromMin o ls b := hp
    have hnext := (hpaced.next_le hB ho hg).1
    show sum + (B.next b).1 ≤ answersBound o ls t₀
    linarith
  | keepAliveWaitOver => exact hi t₀ hg q hq
  | written => exact hi t₀ hg q hq
  | writeFailed => exact answersBound_failed rfl rfl (hi t₀ hg q hq)
  | @reply o req b rsp =>
    obtain ⟨sum, hback, -⟩ := hc
    simp only [keepAliveBackoff, hback, Option.map_some, Option.some.injEq] at hq
    subst hq
    obtain ⟨t, ht, hbuilt⟩ := hp
    cases hg.symm.trans ht
    show (B.next (B.reset b)).1 ≤ answersBound o _ t₀
    rw [hB.afterReset hle hbuilt]
    simp [answersBound, failuresSinceReply, replyTtl]
  | readFailed => exact answersBound_failed rfl rfl (hi t₀ hg q hq)
  | @failed o b code =>
    obtain ⟨sum, hback, -⟩ := hc
    simp only [keepAliveBackoff, hback, Option.map_some, Option.some.injEq] at hq
    subst hq
    have hsum : sum + 2 * (min o.retryMaxWaitTime t₀ : Int) ≤ answersBound o ls t₀ :=
      hi t₀ hg _ hback
    obtain ⟨⟨t, ht, hbuilt⟩, hfailed⟩ := hp
    cases hg.symm.trans ht
    have hnext := (hB.between hle (hbuilt.resetWith false)).2
    have hfailed' : failedSinceReply (.worker (.finish code) :: ls) = true := hfailed
    show sum + (B.next (B.resetWith false b)).1 + waitBound o _ t₀ ≤ answersBound o ls t₀
    rw [waitBound, hfailed']
    simp only [if_true]
    linarith
  | keepAliveSlept => exact hi t₀ hg q hq
  | _ => trivial

theorem asked_step (hB : B.Bounded) {h : TimedHistory B} {s s' : State B} {l : Label} {d : ℚ}
    (hinv : Inv s) (hp : Paced (untimed h) s) (hc : Clocked h s) (hi : Asked h s)
    (hs : step s l = some s') : Asked ((s, l, d) :: h) s' := by
  intro w₁ hw₁
  rcases step_cases hinv hs with ⟨a, w, r, w', rfl, ht, -, hw, rfl⟩ | ⟨hl, hframe⟩
  · cases hw₁
    exact hw.asked hB (hp.ordered w ht) (hp.counter w ht) (hc w ht) (hi w ht)
  · rcases hframe.back w₁ hw₁ with ht | hloop
    · cases l with
      | worker a => exact absurd rfl (hl a)
      | _ => exact hi w₁ ht
    · intro _ _ _ _
      rw [hloop]
      trivial

/-! ## One step -/

/-- A worker that goes on to an attempt has its backoff, and the time since
the reply is what the backoff answered and what came on top. -/
theorem clocked_of_leads {h : TimedHistory B} {s : State B} {l : Label} {d : ℚ}
    (hi : Clocked h s) {o : SessionOptions} (hlead : leadsToAttempt s l = some o) :
    ∃ q, keepAliveBackoff (B := B) o (timedLabels h) = some q ∧
      sinceReply ((s, l, d) :: h) = overrun ((s, l, d) :: h) + q.2 ∧
      lastTtl (timedLabels ((s, l, d) :: h)) = lastTtl (timedLabels h) := by
  rcases leadsToAttempt_inv hlead with ⟨b, ht, rfl⟩ | ⟨x, b, ht, rfl⟩
  · obtain ⟨sum, hback, hsince⟩ := hi _ ht
    exact ⟨_, hback, clock_call d rfl rfl hsince, rfl⟩
  · obtain ⟨sum, hback, hsince⟩ := hi _ ht
    refine ⟨_, hback, clock_cons d rfl ?_ hsince, rfl⟩
    simp [pause, State.waitTime, ht, Pc.waitTime]

/-- One step: an attempt begins in time exactly where the step that leads
to it leaves the time. -/
theorem attemptsInTime_step {h : TimedHistory B} {s s' : State B} {l : Label} {d : ℚ}
    (hinv : Inv s) (hinv' : Inv s') (hi : Clocked h s) (hp : AttemptsInTime h s)
    (hd : Consistent h s (l, d)) (hs : step s l = some s') :
    AttemptsInTime ((s, l, d) :: h) s' ↔ TimeLeft h s (l, d) := by
  rcases step_cases hinv hs with ⟨a, w, r, w', rfl, ht, ha, hw, rfl⟩ | ⟨hl, hframe⟩
  · have hleads := hw.leads ht
    cases hlead : leadsToAttempt s (.worker a) with
    | some o =>
      obtain ⟨q, hback, hsince, hlast⟩ := clocked_of_leads hi hlead
      have hat : w'.pc.attempting = true := by rw [← hleads, hlead]; rfl
      have halive : r.alive = true := hinv'.alive.trans (attempting_keepingAlive hat)
      unfold AttemptsInTime TimeLeft
      rw [hsince, hlast]
      constructor
      · intro hA o' ho' q' hq' t htl hpos
        cases hlead.symm.trans ho'
        cases hback.symm.trans hq'
        exact le_sub_iff_add_le.mpr (hA hat halive t htl hpos)
      · intro hL _ _ t htl hpos
        exact le_sub_iff_add_le.mp (hL o hlead q hback t htl hpos)
    | none =>
      have hno : w'.pc.attempting = false := by rw [← hleads, hlead]; rfl
      refine iff_of_true (fun hat => ?_) (fun o ho => ?_)
      · exact absurd (hno.symm.trans hat) (by decide)
      · exact absurd (hlead.symm.trans ho) (by simp)
  · have hnone : replyTtl l = none ∧ d = 0 := by
      cases l with
      | worker a => exact absurd rfl (hl a)
      | _ => exact ⟨rfl, of_decide_eq_true hd.2⟩
    refine iff_of_true (fun hat halive => ?_) (fun o ho => ?_)
    · have hsame : sinceReply ((s, l, d) :: h) = sinceReply h := by
        simp [sinceReply, hnone.1, hnone.2]
      rw [hsame, show lastTtl (timedLabels ((s, l, d) :: h)) = lastTtl (timedLabels h) from
        (ttl_frame hl _).2.1]
      refine hp ?_ (hframe.alive ▸ halive)
      unfold State.attempting at hat ⊢
      cases ht : s'.thread with
      | started w =>
        rw [ht] at hat
        rcases hframe.back w ht with ht' | hloop
        · rw [ht']
          exact hat
        · have hno : w.pc.attempting = true := hat
          rw [hloop] at hno
          cases hno
      | none => simp [ht] at hat
      | joined => simp [ht] at hat
    · exact absurd ((leadsToAttempt_frame hl).symm.trans ho) (by simp)

theorem le_waitBound {o : SessionOptions} (ho : o.retryMinWaitTime ≤ o.retryMaxWaitTime)
    (ls : List Label) (ttl : Int) : min o.retryMinWaitTime ttl ≤ waitBound o ls ttl := by
  unfold waitBound
  split
  · exact min_le_min_right ttl ho
  · exact le_rfl

/-- What the backoff may answer is at least what it has answered. -/
theorem timeLeft_of_fewFailures {h : TimedHistory B} {s : State B} {l : Label} {d : ℚ}
    (hp : Paced (untimed h) s) (hi : Asked h s) (hc : FewFailures h s (l, d)) :
    TimeLeft h s (l, d) := by
  intro o ho q hq t ht hpos
  rcases leadsToAttempt_inv ho with ⟨b, hth, -⟩ | ⟨x, b, hth, -⟩
  · obtain ⟨t₀, hg, -⟩ := hp.counter _ hth
    obtain ⟨hnonneg, hover⟩ := hc o ho t₀ hg t ht hpos
    have hsum : q.2 + waitBound o (timedLabels h) t₀ ≤ answersBound o (timedLabels h) t₀ :=
      hi _ hth t₀ hg q hq
    have hwait : (0 : ℚ) ≤ waitBound o (timedLabels h) t₀ := by
      exact_mod_cast hnonneg.trans (le_waitBound (hp.ordered _ hth) (timedLabels h) t₀)
    linarith
  · obtain ⟨t₀, hg, -⟩ := hp.counter _ hth
    obtain ⟨-, hover⟩ := hc o ho t₀ hg t ht hpos
    have hsum : q.2 ≤ answersBound o (timedLabels h) t₀ := hi _ hth t₀ hg q hq
    linarith

theorem along_untimed {C : History (State B) Label → State B → Label → Prop} :
    ∀ {h : TimedHistory B}, Along C (untimed h) →
      Along (fun h s p => C (untimed h) s p.1) h
  | [], _ => trivial
  | _ :: _, hc => ⟨along_untimed hc.1, hc.2⟩

/-- **No attempt after the TTL.** For consistent durations: every attempt
begun with `alive_` set begins within the TTL of the last reply, if and only
if at each step that leads to an attempt the calls since that reply, and what
the waits were late, took no longer than the answers of the backoff since
then leave of the TTL. Each answer is capped by the TTL of the grant: with
the retry times in order it is enough that the capped minimum, and the capped
maximum twice for every attempt that failed, leave that time. -/
theorem attempts_in_time_iff {h : TimedHistory B} {s : State B} (hr : TimedRun h s)
    (hd : Along Consistent h) :
    (Throughout AttemptsInTime h s ↔ Along TimeLeft h) ∧
    (B.Bounded → Along OrderedWaits (untimed h) → Along FewFailures h →
      Throughout AttemptsInTime h s) := by
  have hstart : ∀ s : State B, Init s → AttemptsInTime [] s := by
    intro s hs hat
    obtain ⟨lease, leaseTtl, rfl⟩ := hs
    simp [State.attempting, State.new] at hat
  have hnone : ∀ s : State B, Init s → ∀ w, s.thread ≠ .started w := fun s hs => hs.not_started
  constructor
  · exact Run.throughout_iff (J := Clocked)
      (fun s hs => ⟨hstart s hs, fun w hw => absurd hw (hnone s hs w)⟩)
      (fun hr' hi _ _ hs => clocked_step (inv_timedRun hr') hi hs)
      (fun hr' hi hp hd hs => attemptsInTime_step (inv_timedRun hr') (inv_timedRun (hr'.next hs))
        hi hp hd hs) hr hd
  · intro hB ho hc
    refine Run.throughout_along (J := fun h s => Clocked h s ∧ Paced (untimed h) s ∧ Asked h s)
      (fun s hs => ⟨hstart s hs, fun w hw => absurd hw (hnone s hs w), paced_init hs,
        fun w hw => absurd hw (hnone s hs w)⟩) ?_ hr ((hd.and (along_untimed ho)).and hc)
    intro h s s' p hr' hi hp hC hs
    obtain ⟨l, d⟩ := p
    obtain ⟨hclock, hpaced, hasked⟩ := hi
    obtain ⟨⟨hdur, hord⟩, hfew⟩ := hC
    have hinv := inv_timedRun hr'
    refine ⟨(attemptsInTime_step hinv (inv_timedRun (hr'.next hs)) hclock hp hdur hs).mpr
      (timeLeft_of_fewFailures hpaced hasked hfew), clocked_step hinv hclock hs,
      paced_step hB hinv hpaced hord hs, asked_step hB hinv hpaced hclock hasked hs⟩

/-- A lease granted with a TTL of `ttl`, a first attempt that fails, and the
test that leads to the second: every wait and sleep takes its argument, and
the calls take no time. -/
def retryScript (ttl : Int) : List (Label × ℚ) :=
  (announceScript .new { id := 7, ttl := ttl }).map (fun l => (l, 0)) ++
    [(.worker (.finished false), 0), (.worker .stream, 0), (.worker (.wait false), 1),
      (.worker (.write false), 0), (.worker (.finish .unavailable), 0), (.worker .slept, 1),
      (.worker (.finished false), 0)]

/-- With 60 seconds the second attempt is in time. -/
theorem attempts_in_time_retried :
    ∃ h s, exec timedStep [] (State.new 5 0 : State .constant) (retryScript 60) = some (h, s) ∧
      s.attempting = true ∧ sinceReply h = 2 ∧ Throughout AttemptsInTime h s := by
  refine ⟨_, _, rfl, rfl, by decide +kernel, ?_⟩
  refine ((attempts_in_time_iff (Run.exec (.start ⟨5, 0, rfl⟩)
    (rfl : exec timedStep [] (State.new 5 0 : State .constant) (retryScript 60)
      = some (_, _))) ?_).1).mpr ?_
  · decide +kernel
  · decide +kernel

/-- With one second it begins after two, and `alive_` is set. -/
theorem attempts_after_ttl :
    ∃ h s, exec timedStep [] (State.new 5 0 : State .constant) (retryScript 1) = some (h, s) ∧
      Along Consistent h ∧ lastTtl (timedLabels h) = some 1 ∧ sinceReply h = 2 ∧
      ¬ AttemptsInTime h s := by
  refine ⟨_, _, rfl, by decide +kernel, rfl, by decide +kernel, fun hA => ?_⟩
  exact absurd (hA rfl rfl 1 rfl (by decide)) (by decide +kernel)

end

end Etcdv3Client
