import Mathlib.Algebra.Order.Ring.Cast
import Mathlib.Algebra.Order.Ring.Rat
import Etcdv3Client.Session.HeldLease

/-!
# The wait between keep-alive requests

`TryKeepAlive` waits as its backoff says, which is built once, from the
retry times and the TTL of the grant; the TTL that counts is the one in the
last reply. `GetKeepAliveIntervalByTTL` would go by the TTL, and is not
called.
-/

namespace Etcdv3Client

open Transition

/-! ## What is assumed of the backoff -/

/-- The states of a strategy built with the bounds `lo` and `hi`. -/
inductive BackOffStrategy.Built (B : BackOffStrategy) (lo hi : Int) : B.State → Prop where
  | new : Built B lo hi (B.new lo hi)
  | reset {b} : Built B lo hi b → Built B lo hi (B.reset b)
  | resetWith {b} (flag : Bool) : Built B lo hi b → Built B lo hi (B.resetWith flag b)
  | next {b} : Built B lo hi b → Built B lo hi (B.next b).2

/-- The first `Next()` after construction and after `Reset()` returns the
minimum, and every one a value between the bounds. -/
structure BackOffStrategy.Bounded (B : BackOffStrategy) : Prop where
  first : ∀ {lo hi : Int}, lo ≤ hi → (B.next (B.new lo hi)).1 = lo
  afterReset : ∀ {lo hi : Int} {b : B.State}, lo ≤ hi → B.Built lo hi b →
    (B.next (B.reset b)).1 = lo
  between : ∀ {lo hi : Int} {b : B.State}, lo ≤ hi → B.Built lo hi b →
    (lo : ℚ) ≤ (B.next b).1 ∧ (B.next b).1 ≤ hi

theorem BackOffStrategy.next_constant {lo hi : Int} {b : BackOffStrategy.constant.State}
    (h : BackOffStrategy.constant.Built lo hi b) :
    (BackOffStrategy.constant.next b).1 = (lo : ℚ) := by
  induction h with
  | new => rfl
  | reset _ ih => exact ih
  | resetWith _ _ ih => exact ih
  | next _ ih => exact ih

theorem BackOffStrategy.bounded_constant : BackOffStrategy.constant.Bounded where
  first _ := rfl
  afterReset _ hb := next_constant hb.reset
  between hle hb := by
    rw [next_constant hb]
    exact ⟨le_rfl, by exact_mod_cast hle⟩

/-! ## The interval that is not used -/

/-- `GetKeepAliveIntervalByTTL`. -/
def getKeepAliveIntervalByTTL (ttl : Int) : Int :=
  let intervalSecs := ttl.tdiv 2
  if intervalSecs ≤ 0 then 1 else intervalSecs

/-- It is shorter than every TTL above one second. -/
theorem getKeepAliveIntervalByTTL_lt {ttl : Int} (h : 1 < ttl) :
    0 < getKeepAliveIntervalByTTL ttl ∧ getKeepAliveIntervalByTTL ttl < ttl := by
  unfold getKeepAliveIntervalByTTL
  rw [Int.tdiv_eq_ediv_of_nonneg (by omega)]
  dsimp only
  split <;> omega

section
variable {B : BackOffStrategy}

/-! ## What the replies and the failures say -/

/-- The TTL in a successful `LeaseGrant` reply. -/
def grantedTtl : Label → Option Int
  | .worker (.leaseGrant (.ok rsp)) => some rsp.ttl
  | _ => none

/-- The TTL of the last grant. -/
def grantTtl (ls : List Label) : Option Int := ls.findSome? grantedTtl

/-- A keep-alive request could not be written, or its reply not be read. -/
def attemptFails : Label → Bool
  | .worker (.write false) | .worker (.read none) => true
  | _ => false

/-- An attempt failed since the last reply. -/
def failedSinceReply : List Label → Bool
  | [] => false
  | l :: ls => if (replyTtl l).isSome then false else attemptFails l || failedSinceReply ls

/-- The steps of the callers and of the context are no replies. -/
theorem ttl_frame {l : Label} (hl : ∀ a, l ≠ .worker a) (ls : List Label) :
    grantTtl (l :: ls) = grantTtl ls ∧ lastTtl (l :: ls) = lastTtl ls ∧
      failedSinceReply (l :: ls) = failedSinceReply ls := by
  cases l with
  | worker a => exact absurd rfl (hl a)
  | _ => exact ⟨rfl, rfl, rfl⟩

/-! ## The law and its condition -/

/-- `Grant` is called with a minimum no greater than the maximum. -/
def OrderedWaits (_ : History (State B) Label) (_ : State B) (l : Label) : Prop :=
  ∀ o, l = .grant o → o.retryMinWaitTime ≤ o.retryMaxWaitTime

/-- Every keep-alive request that is written is answered. -/
def NoFailedAttempt (_ : History (State B) Label) (_ : State B) (l : Label) : Prop :=
  attemptFails l = false

/-- A wait for the next keep-alive request is shorter than the TTL in the
last reply. -/
def WaitsWithinTtl (h : History (State B) Label) (s : State B) : Prop :=
  ∀ o d b, s.thread = .started ⟨o, .keepAliveWait d b⟩ →
    ∃ t, lastTtl (labels h) = some t ∧ d < t

/-- The options of a worker that comes to such a wait by the step. -/
def State.entersWait (s : State B) : Label → Option SessionOptions
  | .worker .stream =>
      match s.thread with
      | .started ⟨o, .openStream _⟩ => some o
      | _ => none
  | .worker (.read (some _)) =>
      match s.thread with
      | .started ⟨o, .read _ _⟩ => some o
      | _ => none
  | _ => none

/-- The longest that the backoff may answer: its minimum after a reply, its
maximum once an attempt has failed, both capped by the TTL of the grant. -/
def waitBound (o : SessionOptions) (ls : List Label) (ttl : Int) : Int :=
  min (if failedSinceReply ls then o.retryMaxWaitTime else o.retryMinWaitTime) ttl

/-- A step that comes to the wait comes to one that is bounded below the TTL
in the last reply. -/
def BoundBelowTtl (h : History (State B) Label) (s : State B) (l : Label) : Prop :=
  ∀ o ∈ s.entersWait l, ∀ t₀ ∈ grantTtl (l :: labels h), ∀ t ∈ lastTtl (l :: labels h),
    waitBound o (l :: labels h) t₀ < t

instance (h : History (State B) Label) (s : State B) (l : Label) :
    Decidable (BoundBelowTtl h s l) :=
  inferInstanceAs (Decidable (∀ o ∈ s.entersWait l, ∀ t₀ ∈ grantTtl (l :: labels h),
    ∀ t ∈ lastTtl (l :: labels h), waitBound o (l :: labels h) t₀ < t))

/-! ## The backoff along a run -/

/-- The backoff was built from the retry times and the TTL of the grant. -/
def PacedBy (o : SessionOptions) (ls : List Label) (b : B.State) : Prop :=
  ∃ t₀, grantTtl ls = some t₀ ∧
    B.Built (min o.retryMinWaitTime t₀) (min o.retryMaxWaitTime t₀) b

/-- The same, and where no attempt failed its next answer is the minimum. -/
def PacedFromMin (o : SessionOptions) (ls : List Label) (b : B.State) : Prop :=
  ∃ t₀, grantTtl ls = some t₀ ∧
    B.Built (min o.retryMinWaitTime t₀) (min o.retryMaxWaitTime t₀) b ∧
    (failedSinceReply ls = false → (B.next b).1 = (min o.retryMinWaitTime t₀ : Int))

/-- The TTL is the grant's, and no attempt failed since the last reply. -/
def JustGranted (leaseTtl : Int) (ls : List Label) : Prop :=
  grantTtl ls = some leaseTtl ∧ failedSinceReply ls = false

/-- What the replies and failures were when the worker is at a counter. -/
def Pc.Paced (o : SessionOptions) (leaseTtl : Int) (finished : Bool) (ls : List Label) :
    Pc B → Prop
  | .granted => finished = true ∨ JustGranted leaseTtl ls
  | .resetExpired | .setAlive => JustGranted leaseTtl ls
  | .keepAliveLoop b | .openStream b => PacedFromMin o ls b
  | .keepAliveWait _ b | .write b | .read _ b => PacedBy o ls b
  | .finishStream b | .keepAliveSleep _ b => PacedBy o ls b ∧ failedSinceReply ls = true
  | _ => True

theorem PacedFromMin.paced {o : SessionOptions} {ls : List Label} {b : B.State}
    (h : PacedFromMin o ls b) : PacedBy o ls b := by
  obtain ⟨t₀, ht₀, hb, -⟩ := h
  exact ⟨t₀, ht₀, hb⟩

theorem PacedBy.map {o : SessionOptions} {ls ls' : List Label} {b b' : B.State}
    (h : PacedBy o ls b) (hls : grantTtl ls' = grantTtl ls)
    (hb : ∀ lo hi, B.Built lo hi b → B.Built lo hi b') : PacedBy o ls' b' := by
  obtain ⟨t₀, ht₀, hbuilt⟩ := h
  exact ⟨t₀, hls.trans ht₀, hb _ _ hbuilt⟩

theorem PacedBy.fromMin {o : SessionOptions} {ls : List Label} {b : B.State}
    (h : PacedBy o ls b) (hf : failedSinceReply ls = true) : PacedFromMin o ls b := by
  obtain ⟨t₀, ht₀, hbuilt⟩ := h
  exact ⟨t₀, ht₀, hbuilt, fun hno => absurd (hf.symm.trans hno) (by decide)⟩

/-- The next answer is within the bound of the wait. -/
theorem PacedFromMin.next_le (hB : B.Bounded) {o : SessionOptions} {ls : List Label} {b : B.State}
    (h : PacedFromMin o ls b) (ho : o.retryMinWaitTime ≤ o.retryMaxWaitTime) {t₀ : Int}
    (hg : grantTtl ls = some t₀) :
    (B.next b).1 ≤ waitBound o ls t₀ ∧
      (failedSinceReply ls = false → (B.next b).1 = waitBound o ls t₀) := by
  obtain ⟨t, ht, hbuilt, hmin⟩ := h
  cases hg.symm.trans ht
  unfold waitBound
  cases hf : failedSinceReply ls with
  | false => exact ⟨(hmin hf).le, fun _ => hmin hf⟩
  | true => exact ⟨(hB.between (min_le_min_right t₀ ho) hbuilt).2, fun hno => by cases hno⟩

/-- The worker's step: the backoff is built where `TryKeepAlive` is entered,
and not replaced there. -/
theorem WorkerStep.paced (hB : B.Bounded) {s s' : Session} {w w' : Worker B} {a : Answer}
    {fin fin' : Bool} {ls : List Label} (hw : WorkerStep s w a s' w')
    (hag : a.agrees fin = true) (hfin : fin = true → fin' = true)
    (ho : w.options.retryMinWaitTime ≤ w.options.retryMaxWaitTime)
    (hi : w.pc.Paced w.options s.leaseTtl fin ls) :
    w'.pc.Paced w'.options s'.leaseTtl fin' (.worker a :: ls) := by
  cases hw with
  | grantOk => exact Or.inr ⟨rfl, rfl⟩
  | grantLoopClosed => exact Or.inl (hfin (by simpa [Answer.agrees] using hag))
  | grantWaitClosed => exact Or.inl (hfin (by simpa [Answer.agrees] using hag))
  | grantedOpen =>
    have hopen : fin = false := by simpa [Answer.agrees] using hag
    exact hi.resolve_left (by simp [hopen])
  | resetExpired => exact hi
  | @setAlive o =>
    have hle : min o.retryMinWaitTime s.leaseTtl ≤ min o.retryMaxWaitTime s.leaseTtl :=
      min_le_min_right _ ho
    exact ⟨s.leaseTtl, hi.1, .new, fun _ => hB.first hle⟩
  | keepAliveLoopOpen => exact hi
  | opened => exact hi.paced.map rfl fun _ _ hb => hb.next
  | keepAliveWaitOver => exact hi
  | written => exact hi
  | writeFailed => exact ⟨hi, rfl⟩
  | reply => exact PacedBy.map hi rfl fun _ _ hb => hb.reset.next
  | readFailed => exact ⟨hi, rfl⟩
  | failed => exact ⟨hi.1.map rfl fun _ _ hb => (hb.resetWith false).next, hi.2⟩
  | keepAliveSlept => exact hi.1.fromMin hi.2
  | _ => trivial

theorem Pc.Paced.mono {o : SessionOptions} {leaseTtl : Int} {f f' : Bool} {ls ls' : List Label}
    {pc : Pc B} (hp : pc.Paced o leaseTtl f ls) (hf : f = true → f' = true)
    (hg : grantTtl ls' = grantTtl ls) (hfail : failedSinceReply ls' = failedSinceReply ls) :
    pc.Paced o leaseTtl f' ls' := by
  unfold Paced PacedFromMin PacedBy JustGranted at hp ⊢
  rw [hg, hfail]
  cases pc <;> first | exact hp.imp hf id | exact hp

theorem leaseTtl_frame {s s' : State B} {l : Label} (hl : ∀ a, l ≠ .worker a)
    (hs : step s l = some s') : s'.session.leaseTtl = s.session.leaseTtl := by
  cases step_iff.mp hs with
  | worker => exact absurd rfl (hl _)
  | _ => rfl

theorem WorkerStep.options_retry {s s' : Session} {w w' : Worker B} {a : Answer}
    (hw : WorkerStep s w a s' w') :
    w'.options.retryMinWaitTime = w.options.retryMinWaitTime ∧
      w'.options.retryMaxWaitTime = w.options.retryMaxWaitTime := by
  cases hw <;> exact ⟨rfl, rfl⟩

/-- The invariant of the runs whose `Grant` calls have ordered waits. -/
structure Paced (h : History (State B) Label) (s : State B) : Prop where
  ordered : ∀ w, s.thread = .started w →
    w.options.retryMinWaitTime ≤ w.options.retryMaxWaitTime
  counter : ∀ w, s.thread = .started w →
    w.pc.Paced w.options s.session.leaseTtl s.finished (labels h)

theorem paced_init {s : State B} (hs : Init s) : Paced [] s :=
  ⟨fun w hw => absurd hw (hs.not_started w), fun w hw => absurd hw (hs.not_started w)⟩

theorem ordered_step {h : History (State B) Label} {s s' : State B} {l : Label}
    (hi : ∀ w, s.thread = .started w → w.options.retryMinWaitTime ≤ w.options.retryMaxWaitTime)
    (ho : OrderedWaits h s l) (hs : step s l = some s') :
    ∀ w, s'.thread = .started w → w.options.retryMinWaitTime ≤ w.options.retryMaxWaitTime := by
  intro w hw
  cases step_iff.mp hs with
  | grantOk =>
    cases hw
    exact ho _ rfl
  | closeJoined => cases hw
  | worker ht _ hws =>
    cases hw
    obtain ⟨hmin, hmax⟩ := hws.options_retry
    rw [hmin, hmax]
    exact hi _ ht
  | _ => exact hi w hw

theorem paced_step (hB : B.Bounded) {h : History (State B) Label} {s s' : State B} {l : Label}
    (hinv : Inv s) (hi : Paced h s) (ho : OrderedWaits h s l) (hs : step s l = some s') :
    Paced ((s, l) :: h) s' := by
  refine ⟨ordered_step hi.ordered ho hs, fun w₁ hw₁ => ?_⟩
  have hfin : s.finished = true → s'.finished = true := fun hf => finished_step hf hs
  rcases step_cases hinv hs with ⟨a, w, r, w', rfl, ht, ha, hw, rfl⟩ | ⟨hl, hframe⟩
  · cases hw₁
    exact hw.paced hB ha hfin (hi.ordered w ht) (hi.counter w ht)
  · obtain ⟨hg, -, hfail⟩ := ttl_frame hl (labels h)
    rw [leaseTtl_frame hl hs]
    rcases hframe.back w₁ hw₁ with ht | hloop
    · exact (hi.counter w₁ ht).mono hfin hg hfail
    · rw [hloop]
      trivial

/-! ## One step -/

/-- The two steps that come to the wait, and what the backoff answers
there. -/
theorem enters_wait (hB : B.Bounded) {h : History (State B) Label} {s s' : State B} {l : Label}
    (hr : SRun h s) (hi : Paced h s) (hs : step s l = some s') {o : SessionOptions}
    (he : s.entersWait l = some o) :
    ∃ d b t₀ t, s'.thread = .started ⟨o, .keepAliveWait d b⟩ ∧
      grantTtl (l :: labels h) = some t₀ ∧ lastTtl (l :: labels h) = some t ∧
      d ≤ waitBound o (l :: labels h) t₀ ∧
      (failedSinceReply (l :: labels h) = false → d = waitBound o (l :: labels h) t₀) := by
  rcases step_cases (inv_run hr) hs with ⟨a, w, r, w', rfl, ht, -, hw, rfl⟩ | ⟨hl, -⟩
  · have hle : ∀ t₀, min w.options.retryMinWaitTime t₀ ≤ min w.options.retryMaxWaitTime t₀ :=
      fun t₀ => min_le_min_right _ (hi.ordered w ht)
    cases hw with
    | @opened o' b =>
      simp only [State.entersWait, ht, Option.some.injEq] at he
      subst he
      have hpaced : PacedFromMin o' (labels h) b := hi.counter _ ht
      obtain ⟨t₀, hg, -⟩ := hpaced.paced
      obtain ⟨t, hlast⟩ := lastTtl_of_granted (anyGrant_of_keepingAlive hr ht rfl)
      obtain ⟨hnext, hexact⟩ := hpaced.next_le hB (hi.ordered _ ht) hg
      exact ⟨_, _, t₀, t, rfl, hg, hlast, hnext, hexact⟩
    | @reply o' req b rsp =>
      simp only [State.entersWait, ht, Option.some.injEq] at he
      subst he
      obtain ⟨t₀, hg, hbuilt⟩ := hi.counter _ ht
      have hval := hB.afterReset (hle t₀) hbuilt
      exact ⟨_, _, t₀, rsp.ttl, rfl, hg, rfl, hval.le, fun _ => hval⟩
    | _ => cases he
  · cases l with
    | worker a => exact absurd rfl (hl a)
    | _ => cases he

/-- A worker at the wait has come to it by the step, or was there. -/
theorem at_wait {s s' : State B} {l : Label} (hinv : Inv s) (hs : step s l = some s')
    {o : SessionOptions} {d : ℚ} {b : B.State}
    (ht' : s'.thread = .started ⟨o, .keepAliveWait d b⟩) :
    s.entersWait l = some o ∨
      (∀ a, l ≠ .worker a) ∧ s.thread = .started ⟨o, .keepAliveWait d b⟩ := by
  rcases step_cases hinv hs with ⟨a, w, r, w', rfl, ht, -, hw, rfl⟩ | ⟨hl, hframe⟩
  · left
    cases (Thread.started.inj ht' : w' = _)
    cases hw with
    | opened => simp [State.entersWait, ht]
    | reply => simp [State.entersWait, ht]
  · rcases hframe.back _ ht' with ht | hloop
    · exact Or.inr ⟨hl, ht⟩
    · cases hloop

theorem waitsWithinTtl_step (hB : B.Bounded) {h : History (State B) Label} {s s' : State B}
    {l : Label} (hr : SRun h s) (hi : Paced h s) (hp : WaitsWithinTtl h s)
    (hc : BoundBelowTtl h s l) (hs : step s l = some s') : WaitsWithinTtl ((s, l) :: h) s' := by
  intro o d b ht'
  rcases at_wait (inv_run hr) hs ht' with he | ⟨hl, ht⟩
  · obtain ⟨d', b', t₀, t, hth, hg, hlast, hle, -⟩ := enters_wait hB hr hi hs he
    cases ht'.symm.trans hth
    have hlt := hc o he t₀ hg t hlast
    exact ⟨t, hlast, lt_of_le_of_lt hle (by exact_mod_cast hlt)⟩
  · obtain ⟨t, hlast, hlt⟩ := hp o d b ht
    exact ⟨t, (ttl_frame hl (labels h)).2.1.trans hlast, hlt⟩

/-- Where no attempt failed the wait is the bound. -/
theorem boundBelowTtl_of_waits (hB : B.Bounded) {h : History (State B) Label} {s s' : State B}
    {l : Label} (hr : SRun h s) (hi : Paced h s) (hf : failedSinceReply (l :: labels h) = false)
    (hs : step s l = some s') (hp : WaitsWithinTtl ((s, l) :: h) s') : BoundBelowTtl h s l := by
  intro o he t₀ hg t hlast
  obtain ⟨d, b, t₀', t', hth, hg', hlast', -, heq⟩ := enters_wait hB hr hi hs he
  cases hg.symm.trans hg'
  obtain ⟨t'', hlast'', hlt⟩ := hp o d b hth
  cases hlast.symm.trans hlast''
  rw [heq hf] at hlt
  exact_mod_cast hlt

/-! ## Main result -/

/-- **Keep-alive before the lease runs out.** Let the backoff keep its
bounds, and `Grant` be called with ordered retry times. Every wait for a
keep-alive request is shorter than the TTL in the last reply where, at each
step that comes to such a wait, the lesser of the minimum retry time and the
grant's TTL is below that TTL, with the maximum in place of the minimum
after a failed attempt. Where every request is answered this is exact. -/
theorem keepAlive_waits_iff (hB : B.Bounded) {h : History (State B) Label} {s : State B}
    (hr : SRun h s) (ho : Along OrderedWaits h) :
    (Along BoundBelowTtl h → Throughout WaitsWithinTtl h s) ∧
    (Along NoFailedAttempt h →
      (Throughout WaitsWithinTtl h s ↔ Along BoundBelowTtl h)) := by
  have hstart : ∀ s : State B, Init s → WaitsWithinTtl [] s :=
    fun s hs o d b ht => absurd ht (hs.not_started _)
  constructor
  · intro hc
    refine Run.throughout_along (J := Paced) (fun s hs => ⟨hstart s hs, paced_init hs⟩)
      (fun hr' hi hp hcl hs => ⟨waitsWithinTtl_step hB hr' hi hp hcl.2 hs,
        paced_step hB (inv_run hr') hi hcl.1 hs⟩) hr (ho.and hc)
  · intro hno
    refine Run.throughout_iff
      (J := fun h s => Paced h s ∧ failedSinceReply (labels h) = false)
      (fun s hs => ⟨hstart s hs, paced_init hs, rfl⟩) ?_ ?_ hr (ho.and hno)
    · intro h s s' l hr' hi hd _ hs
      refine ⟨paced_step hB (inv_run hr') hi.1 hd.1 hs, ?_⟩
      have hl : attemptFails l = false := hd.2
      simp [failedSinceReply, hl, hi.2]
    · intro h s s' l hr' hi hp hd hs
      have hl : attemptFails l = false := hd.2
      have hf : failedSinceReply (l :: labels h) = false := by
        simp [failedSinceReply, hl, hi.2]
      exact ⟨boundBelowTtl_of_waits hB hr' hi.1 hf hs,
        fun hc => waitsWithinTtl_step hB hr' hi.1 hp hc hs⟩

/-- A lease of 60 seconds and one keep-alive reply with a TTL of `ttl`, up
to the next wait. -/
def intervalScript (options : SessionOptions) (ttl : Int) : List Label :=
  announceScript options { id := 7, ttl := 60 } ++ openScript ++
    [.worker (.write true), .worker (.read (some { id := 7, ttl := ttl }))]

/-- With the default retry times and a TTL of 5 the wait is one second. -/
theorem keepAlive_waits_default :
    ∃ h s, exec step [] (State.new 5 0 : State .constant) (intervalScript .new 5) = some (h, s) ∧
      lastTtl (labels h) = some 5 ∧ Throughout WaitsWithinTtl h s := by
  refine ⟨_, _, rfl, rfl, ?_⟩
  refine ((keepAlive_waits_iff BackOffStrategy.bounded_constant (Run.exec (.start ⟨5, 0, rfl⟩)
    (rfl : exec step [] (State.new 5 0 : State .constant) (intervalScript .new 5)
      = some (_, _))) ?_).2 ?_).mpr ?_
  · simp [Along, OrderedWaits, SessionOptions.new]
  · simp [Along, NoFailedAttempt, attemptFails]
  · decide

/-- With a minimum of 10 seconds the next request is sent 10 seconds after a
reply that gave the lease 5; `GetKeepAliveIntervalByTTL` would wait less. -/
theorem keepAlive_waits_too_long :
    BackOffStrategy.constant.Bounded ∧
    ∃ h s, exec step [] (State.new 5 0 : State .constant)
        (intervalScript (SessionOptions.withRetryWaitTime 10 60 .new) 5) = some (h, s) ∧
      Along OrderedWaits h ∧ Along NoFailedAttempt h ∧ lastTtl (labels h) = some 5 ∧
      getKeepAliveIntervalByTTL 5 < 5 ∧ ¬ WaitsWithinTtl h s := by
  refine ⟨BackOffStrategy.bounded_constant, _, _, rfl, ?_, ?_, rfl,
    (getKeepAliveIntervalByTTL_lt (by decide)).2, fun hw => ?_⟩
  · simp [Along, OrderedWaits, SessionOptions.withRetryWaitTime]
  · simp [Along, NoFailedAttempt, attemptFails]
  · obtain ⟨t, hlast, hlt⟩ := hw _ _ _ rfl
    have h5 : (5 : Int) = t := Option.some.inj hlast
    subst h5
    exact absurd hlt (by decide +kernel)

end

end Etcdv3Client
