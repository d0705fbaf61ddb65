import Etcdv3Client.Session.Identity

/-!
# The members that nothing sets

`lease_` and `revoke_max_retry_times_` of a declared `SessionOptions`,
`lease_` and `lease_ttl_` of a `Session`: no constructor and no initializer
sets them. Two runs on the same calls, replies and moments of closing, from
any two contents of these four, go in step: while none of the four is read
before it is set, each step of one is possible in the other, and the states
after it differ in what is still unset.
-/

namespace Etcdv3Client

open Transition

/-! ## Builder calls on a declared variable -/

/-- A builder call of `SessionOptions`. -/
inductive OptionCall where
  | withTTL (ttl : Int)
  | withLease (id : Int)
  | withMaxRevokeRetry (times : Int)
  | withRetryWaitTime (min max : Int)
  /-- `WithGetGRPCClientContextFunc`, whose member is not modelled -/
  | withGetGRPCClientContextFunc
deriving DecidableEq, Repr

namespace OptionCall

def apply (o : SessionOptions) : OptionCall → SessionOptions
  | .withTTL ttl => o.withTTL ttl
  | .withLease id => o.withLease id
  | .withMaxRevokeRetry times => o.withMaxRevokeRetry times
  | .withRetryWaitTime min max => o.withRetryWaitTime min max
  | .withGetGRPCClientContextFunc => o

/-- A chain of calls. -/
def applyAll (o : SessionOptions) (calls : List OptionCall) : SessionOptions :=
  calls.foldl apply o

def setsLease : OptionCall → Bool
  | .withLease _ => true
  | _ => false

def setsRevoke : OptionCall → Bool
  | .withMaxRevokeRetry _ => true
  | _ => false

end OptionCall

/-- What the memory held. -/
structure Unset where
  optionsLease : Int := 0
  revokeMaxRetryTimes : Int := 0
  lease : Int := 0
  leaseTtl : Int := 0

/-- Two options with the same waiting times, whose numbers of retries are
the same where they were set. -/
structure RetryTwin (u : Unset) (revoke : Bool) (o o' : SessionOptions) : Prop where
  minWait : o'.retryMinWaitTime = o.retryMinWaitTime
  maxWait : o'.retryMaxWaitTime = o.retryMaxWaitTime
  revoke_set : revoke = true → o'.revokeMaxRetryTimes = o.revokeMaxRetryTimes
  revoke_unset : revoke = false → o'.revokeMaxRetryTimes = u.revokeMaxRetryTimes

/-- Two options that differ in the unset members only, and in those not set
since. -/
structure OptionsTwin (u : Unset) (lease revoke : Bool) (o o' : SessionOptions) : Prop
    extends RetryTwin u revoke o o' where
  ttl : o'.ttl = o.ttl
  lease_set : lease = true → o'.lease = o.lease
  lease_unset : lease = false → o'.lease = u.optionsLease

/-- One builder call sets its member in both. -/
theorem OptionsTwin.apply {u : Unset} {lease revoke : Bool} {o o' : SessionOptions}
    (ht : OptionsTwin u lease revoke o o') (c : OptionCall) :
    OptionsTwin u (lease || c.setsLease) (revoke || c.setsRevoke) (c.apply o) (c.apply o') := by
  obtain ⟨⟨hmin, hmax, hrs, hru⟩, httl, hls, hlu⟩ := ht
  cases c <;> refine ⟨⟨?_, ?_, ?_, ?_⟩, ?_, ?_, ?_⟩ <;>
    simp_all [OptionCall.apply, OptionCall.setsLease, OptionCall.setsRevoke,
      SessionOptions.withTTL, SessionOptions.withLease, SessionOptions.withMaxRevokeRetry,
      SessionOptions.withRetryWaitTime]

theorem OptionsTwin.applyAll {u : Unset} {lease revoke : Bool} {o o' : SessionOptions}
    (ht : OptionsTwin u lease revoke o o') (calls : List OptionCall) :
    OptionsTwin u (lease || calls.any OptionCall.setsLease)
      (revoke || calls.any OptionCall.setsRevoke)
      (OptionCall.applyAll o calls) (OptionCall.applyAll o' calls) := by
  induction calls generalizing lease revoke o o' with
  | nil => simpa [OptionCall.applyAll] using ht
  | cons c calls ih =>
    have hnext := ih (ht.apply c)
    rw [Bool.or_assoc, Bool.or_assoc] at hnext
    simpa only [List.any_cons, OptionCall.applyAll, List.foldl_cons] using hnext

section
variable {B : BackOffStrategy}

/-! ## Runs from given contents -/

/-- A `Grant` with a declared variable after a chain of builder calls, or
any other step. -/
inductive Ask where
  | grantDeclared (calls : List OptionCall)
  | step (l : Label)

def Ask.label (u : Unset) : Ask → Label
  | .grantDeclared calls =>
      .grant (OptionCall.applyAll (SessionOptions.declared u.optionsLease u.revokeMaxRetryTimes)
        calls)
  | .step l => l

def askStep (u : Unset) (s : State B) (a : Ask) : Option (State B) := step s (a.label u)

def State.unset (u : Unset) : State B := State.new u.lease u.leaseTtl

abbrev UnsetRun (u : Unset) (h : History (State B) Ask) (s : State B) : Prop :=
  Run (askStep u) (fun s => s = State.unset u) h s

/-- The history with the options as they were. -/
def relabel (u : Unset) (h : History (State B) Ask) : History (State B) Label :=
  h.map fun p => (p.1, p.2.label u)

theorem UnsetRun.relabel {u : Unset} {h : History (State B) Ask} {s : State B}
    (hr : UnsetRun u h s) : SRun (relabel u h) s := by
  induction hr with
  | start hs => exact .start ⟨u.lease, u.leaseTtl, hs⟩
  | next hr hs ih => exact ih.next hs

/-- All requests of a run, newest first, with the one about to be sent. -/
def sentUnset (u : Unset) (h : History (State B) Ask) (s : State B) : List Request :=
  s.request.toList ++ sentRequests (relabel u h)

/-- The run on the same calls and answers from any other contents sends the
same requests. -/
def SameRequests (u : Unset) (h : History (State B) Ask) (s : State B) : Prop :=
  ∀ u', ∃ h' s', replay (askStep u') (State.unset u') h = some (h', s') ∧
    sentUnset u' h' s' = sentUnset u h s

/-! ## What is set -/

/-- Some `LeaseGrant` succeeded. -/
def grantedBefore (h : History (State B) Ask) : Bool := anyGrant (relabel {} h)

/-- The `Grant` that started the worker. -/
def startAsk : History (State B) Ask → Option Ask
  | [] => none
  | (s, a) :: h => if startsWorker s (a.label {}) then some a else startAsk h

/-- Its options set the lease. -/
def leaseGiven (h : History (State B) Ask) : Bool :=
  match startAsk h with
  | some (.grantDeclared calls) => calls.any OptionCall.setsLease
  | _ => true

/-- Its options set the number of revoke retries. -/
def revokeGiven (h : History (State B) Ask) : Bool :=
  match startAsk h with
  | some (.grantDeclared calls) => calls.any OptionCall.setsRevoke
  | _ => true

/-- The worker asks for a lease with an id that was given or granted, and
turns to `TryRevoke` with a number of retries that was given, and with a
lease granted or no request to send. -/
def readsSet (h : History (State B) Ask) (s : State B) (a : Ask) : Bool :=
  match s.thread, a with
  | .started ⟨_, .grantLoop _⟩, .step (.worker (.finished false)) =>
      leaseGiven h || grantedBefore h
  | .started ⟨o, .loop⟩, .step (.worker (.finished true)) =>
      revokeGiven h && (decide (o.revokeMaxRetryTimes < 0) || grantedBefore h)
  | _, _ => true

def ReadsSet (h : History (State B) Ask) (s : State B) (a : Ask) : Prop := readsSet h s a = true

instance (h : History (State B) Ask) (s : State B) (a : Ask) : Decidable (ReadsSet h s a) :=
  inferInstanceAs (Decidable (readsSet h s a = true))

theorem readsSet_iff {h : History (State B) Ask} {s : State B} {a : Ask} :
    ReadsSet h s a ↔
      (∀ o b, s.thread = .started ⟨o, .grantLoop b⟩ → a = .step (.worker (.finished false)) →
        leaseGiven h = true ∨ grantedBefore h = true) ∧
      (∀ o, s.thread = .started ⟨o, .loop⟩ → a = .step (.worker (.finished true)) →
        revokeGiven h = true ∧ (o.revokeMaxRetryTimes < 0 ∨ grantedBefore h = true)) := by
  constructor
  · intro hr
    refine ⟨fun o b ht ha => ?_, fun o ht ha => ?_⟩
    · subst ha
      simpa [ReadsSet, readsSet, ht] using hr
    · subst ha
      simpa [ReadsSet, readsSet, ht] using hr
  · intro ⟨hgrant, hrevoke⟩
    unfold ReadsSet readsSet
    split
    · rename_i ht
      simpa using hgrant _ _ ht rfl
    · rename_i ht
      simpa using hrevoke _ ht rfl
    · rfl

/-! ## The other run -/

/-- What was set so far. -/
structure Known where
  granted : Bool
  lease : Bool
  revoke : Bool

def known (h : History (State B) Ask) : Known :=
  ⟨grantedBefore h, leaseGiven h, revokeGiven h⟩

structure SessionTwin (u : Unset) (got : Bool) (s s' : Session) : Prop where
  granted : s'.granted = s.granted
  closed : s'.closed = s.closed
  alive : s'.alive = s.alive
  expired : s'.expired = s.expired
  lease_set : got = true → s'.lease = s.lease ∧ s'.leaseTtl = s.leaseTtl
  lease_unset : got = false → s'.lease = u.lease

structure WorkerTwin (u : Unset) (k : Known) (finished : Bool) (w w' : Worker B) : Prop where
  pc : w'.pc = w.pc
  retry : RetryTwin u k.revoke w.options w'.options
  asks : w.pc.mayGrant finished = true →
    OptionsTwin u (k.lease || k.granted) k.revoke w.options w'.options

inductive ThreadTwin (u : Unset) (k : Known) (finished : Bool) : Thread B → Thread B → Prop where
  | none : ThreadTwin u k finished .none .none
  | started {w w'} : WorkerTwin u k finished w w' →
      ThreadTwin u k finished (.started w) (.started w')
  | joined : ThreadTwin u k finished .joined .joined

/-- The other run's state, from the contents `u`. -/
structure Twin (u : Unset) (k : Known) (s s' : State B) : Prop where
  session : SessionTwin u k.granted s.session s'.session
  thread : ThreadTwin u k s.finished s.thread s'.thread
  ctxDone : s'.ctxDone = s.ctxDone
  closing : s'.closing = s.closing

theorem SessionTwin.eq {u : Unset} {s s' : Session} (h : SessionTwin u true s s') : s' = s := by
  obtain ⟨hg, hc, ha, he, hset, -⟩ := h
  obtain ⟨hl, ht⟩ := hset rfl
  cases s
  cases s'
  simp_all

/-- The same step without a successful `LeaseGrant` in the other run. -/
theorem WorkerStep.twin {u : Unset} {k : Known} {fin fin' : Bool} {s s' r : Session}
    {w w' w₁ : Worker B} {a : Answer} (hw : WorkerStep s w a r w₁)
    (hs : SessionTwin u k.granted s s') (ht : WorkerTwin u k fin w w')
    (ha : a.agrees fin = true) (hfin : fin = true → fin' = true)
    (hno : grantSucceeds (.worker a) = false)
    (hkeep : w.pc.keepingAlive = true ∨ w.pc = .setAlive → k.granted = true)
    (hrev : w.pc = .loop → a = .finished true → k.revoke = true) :
    ∃ r' w₁', WorkerStep s' w' a r' w₁' ∧ SessionTwin u k.granted r r' ∧
      WorkerTwin u k fin' w₁ w₁' := by
  obtain ⟨o, pc⟩ := w
  obtain ⟨o', pc'⟩ := w'
  obtain ⟨hpc, hretry, hasks⟩ := ht
  dsimp only at hpc hretry hasks hkeep hrev
  subst hpc
  have hbudget : k.revoke = true → revokeBudget o' = revokeBudget o := by
    intro hk
    unfold revokeBudget
    rw [hretry.revoke_set hk]
  have hnew : B.new o'.retryMinWaitTime o'.retryMaxWaitTime
      = B.new o.retryMinWaitTime o.retryMaxWaitTime := by
    rw [hretry.minWait, hretry.maxWait]
  have hsame : k.granted = true → s' = s := fun hk => (hk ▸ hs : SessionTwin u true s s').eq
  cases hw with
  | loopClosed hle =>
    have hk := hbudget (hrev rfl rfl)
    rw [← hk] at hle
    refine ⟨_, _, .loopClosed hle, hs, ?_, hretry, fun hm => by cases hm⟩
    dsimp only
    rw [hk, hnew]
  | loopClosedNoRevoke hgt =>
    rw [← hbudget (hrev rfl rfl)] at hgt
    exact ⟨_, _, .loopClosedNoRevoke hgt, hs, rfl, hretry, fun hm => by cases hm⟩
  | loopOpen =>
    have hopen : fin = false := by simpa [Answer.agrees] using ha
    refine ⟨_, _, .loopOpen, hs, ?_, hretry, fun _ => hasks (by simp [Pc.mayGrant, hopen])⟩
    exact congrArg Pc.grantLoop hnew
  | grantLoopClosed =>
    have hclosed : fin = true := by simpa [Answer.agrees] using ha
    refine ⟨_, _, .grantLoopClosed, hs, rfl, ⟨hretry.1, hretry.2, hretry.3, hretry.4⟩, fun hm => ?_⟩
    simp [grantReturn, Pc.mayGrant, hfin hclosed] at hm
  | grantWaitClosed =>
    have hclosed : fin = true := by simpa [Answer.agrees] using ha
    refine ⟨_, _, .grantWaitClosed, hs, rfl, ⟨hretry.1, hretry.2, hretry.3, hretry.4⟩, fun hm => ?_⟩
    simp [grantReturn, Pc.mayGrant, hfin hclosed] at hm
  | grantedClosed =>
    have hclosed : fin = true := by simpa [Answer.agrees] using ha
    refine ⟨_, _, .grantedClosed, hs, rfl, hretry, fun hm => ?_⟩
    simp [Pc.mayGrant, hfin hclosed] at hm
  | grantedOpen =>
    have hopen : fin = false := by simpa [Answer.agrees] using ha
    exact ⟨_, _, .grantedOpen, hs, rfl, hretry, fun _ => hasks (by simp [Pc.mayGrant, hopen])⟩
  | resetExpired =>
    exact ⟨_, _, .resetExpired, ⟨hs.1, hs.2, hs.3, rfl, hs.5, hs.6⟩, rfl, hretry,
      fun _ => hasks rfl⟩
  | setAlive =>
    have heq := hsame (hkeep (Or.inr rfl))
    subst heq
    refine ⟨_, _, .setAlive, ⟨hs.1, hs.2, rfl, hs.4, hs.5, hs.6⟩, ?_, hretry, fun _ => hasks rfl⟩
    simp only [tryKeepAlive, hretry.minWait, hretry.maxWait]
  | written =>
    have heq := hsame (hkeep (Or.inl rfl))
    subst heq
    exact ⟨_, _, .written, hs, rfl, hretry, fun _ => hasks rfl⟩
  | reply =>
    have heq := hsame (hkeep (Or.inl rfl))
    subst heq
    refine ⟨_, _, .reply, ⟨rfl, rfl, rfl, rfl, fun _ => ⟨rfl, rfl⟩, fun hk => ?_⟩, rfl, hretry,
      fun _ => hasks rfl⟩
    rw [hkeep (Or.inl rfl)] at hk
    cases hk
  | resetAlive =>
    exact ⟨_, _, .resetAlive, ⟨hs.1, hs.2, rfl, hs.4, hs.5, hs.6⟩, rfl, hretry,
      fun _ => hasks rfl⟩
  | setExpired =>
    exact ⟨_, _, .setExpired, ⟨hs.1, hs.2, hs.3, rfl, hs.5, hs.6⟩, rfl, hretry,
      fun _ => hasks rfl⟩
  | setClosed =>
    exact ⟨_, _, .setClosed, ⟨hs.1, rfl, hs.3, hs.4, hs.5, hs.6⟩, rfl, hretry,
      fun hm => by cases hm⟩
  | failed hcode => exact ⟨_, _, .failed hcode, hs, rfl, hretry, fun _ => hasks rfl⟩
  | revoked hcode => exact ⟨_, _, .revoked hcode, hs, rfl, hretry, fun hm => by cases hm⟩
  | revokeFailed hcode =>
    exact ⟨_, _, .revokeFailed hcode, hs, rfl, hretry, fun hm => by cases hm⟩
  | revokeAgain hle => exact ⟨_, _, .revokeAgain hle, hs, rfl, hretry, fun hm => by cases hm⟩
  | revokeSpent hgt => exact ⟨_, _, .revokeSpent hgt, hs, rfl, hretry, fun hm => by cases hm⟩
  | grantOk => cases hno
  -- the other steps leave the session and the options
  | _ =>
    refine ⟨_, ⟨o', _⟩, ?_, hs, ⟨rfl, hretry, fun _ => hasks rfl⟩⟩
    constructor

/-- A successful `LeaseGrant` sets the lease in both. -/
theorem WorkerStep.twin_grant {u : Unset} {k : Known} {fin fin' : Bool} {s s' r : Session}
    {w w' w₁ : Worker B} {a : Answer} (hw : WorkerStep s w a r w₁)
    (hs : SessionTwin u k.granted s s') (ht : WorkerTwin u k fin w w')
    (hg : grantSucceeds (.worker a) = true) :
    ∃ r' w₁', WorkerStep s' w' a r' w₁' ∧ SessionTwin u true r r' ∧
      WorkerTwin u { k with granted := true } fin' w₁ w₁' := by
  obtain ⟨o, pc⟩ := w
  obtain ⟨o', pc'⟩ := w'
  obtain ⟨hpc, ⟨hmin, hmax, hset, hunset⟩, -⟩ := ht
  dsimp only at hpc hmin hmax hset hunset
  subst hpc
  cases hw with
  | grantOk =>
    refine ⟨_, _, .grantOk, ⟨hs.1, hs.2, hs.3, hs.4, fun _ => ⟨rfl, rfl⟩, nofun⟩,
      rfl, ⟨hmin, hmax, hset, hunset⟩, fun _ => ⟨⟨hmin, hmax, hset, hunset⟩, rfl, fun _ => rfl,
        fun hk => ?_⟩⟩
    simp at hk
  | _ => cases hg

/-! ## One step of both -/

theorem ThreadTwin.mono {u : Unset} {k : Known} {f f' : Bool} {t t' : Thread B}
    (h : ThreadTwin u k f t t') (hf : f = true → f' = true) : ThreadTwin u k f' t t' := by
  cases h with
  | none => exact .none
  | started hw => exact .started ⟨hw.pc, hw.retry, fun hm => hw.asks (mayGrant_mono hf hm)⟩
  | joined => exact .joined

theorem anyGrant_relabel (u : Unset) (h : History (State B) Ask) :
    anyGrant (relabel u h) = grantedBefore h := by
  unfold grantedBefore
  induction h with
  | nil => rfl
  | cons p h ih =>
    obtain ⟨s, a⟩ := p
    have hsame : grantSucceeds (a.label u) = grantSucceeds (a.label {}) := by
      cases a <;> rfl
    show (grantSucceeds (a.label u) || anyGrant (relabel u h)) = _
    rw [hsame, ih]
    rfl

theorem startsWorker_label (u : Unset) (s : State B) (a : Ask) :
    startsWorker s (a.label u) = startsWorker s (a.label {}) := by
  cases a <;> rfl

/-- Nothing is set by a step that neither starts the worker nor is a
successful `LeaseGrant`. -/
theorem known_frame {u : Unset} {h : History (State B) Ask} {s : State B} {a : Ask}
    (hg : grantSucceeds (a.label u) = false) (hs : startsWorker s (a.label u) = false) :
    known ((s, a) :: h) = known h := by
  have hg' : grantedBefore ((s, a) :: h) = grantedBefore h := by
    rw [← anyGrant_relabel u, ← anyGrant_relabel u h]
    show (grantSucceeds (a.label u) || anyGrant (relabel u h)) = _
    rw [hg]
    rfl
  have hs' : startAsk ((s, a) :: h) = startAsk h := by
    rw [startAsk, ← startsWorker_label u, hs, if_neg (by simp)]
  simp [known, leaseGiven, revokeGiven, hg', hs']

/-- The options a `Grant` starts its worker with, in both runs. -/
theorem optionsTwin_start (u u' : Unset) (h : History (State B) Ask) {s : State B} {a : Ask}
    {o : SessionOptions} (hl : a.label u = .grant o) (hs : startsWorker s (a.label u) = true) :
    ∃ o', a.label u' = .grant o' ∧
      OptionsTwin u' (leaseGiven ((s, a) :: h)) (revokeGiven ((s, a) :: h)) o o' := by
  have hstart : startAsk ((s, a) :: h) = some a := by
    rw [startAsk, ← startsWorker_label u, hs, if_pos rfl]
  cases a with
  | grantDeclared calls =>
    cases hl
    refine ⟨_, rfl, ?_⟩
    have hbase : OptionsTwin u' false false
        (SessionOptions.declared u.optionsLease u.revokeMaxRetryTimes)
        (SessionOptions.declared u'.optionsLease u'.revokeMaxRetryTimes) :=
      ⟨⟨rfl, rfl, nofun, fun _ => rfl⟩, rfl, nofun, fun _ => rfl⟩
    simpa [leaseGiven, revokeGiven, hstart] using hbase.applyAll calls
  | step l =>
    refine ⟨o, hl, ?_⟩
    simp only [leaseGiven, revokeGiven, hstart]
    exact ⟨⟨rfl, rfl, fun _ => rfl, nofun⟩, rfl, fun _ => rfl, nofun⟩

theorem ask_of_label {u : Unset} {a : Ask} {l : Label} (hl : a.label u = l)
    (hno : ∀ o, l ≠ .grant o) : a = .step l := by
  cases a with
  | grantDeclared calls => exact absurd hl.symm (hno _)
  | step l' => rw [← hl]; rfl

theorem grant_of_label {u : Unset} {a : Ask} {o : SessionOptions} (u' : Unset)
    (hl : a.label u = .grant o) : ∃ o', a.label u' = .grant o' := by
  cases a with
  | grantDeclared calls => exact ⟨_, rfl⟩
  | step l => exact ⟨o, hl⟩

theorem Twin.finished {u : Unset} {k : Known} {s s' : State B} (ht : Twin u k s s') :
    s'.finished = s.finished := by
  rw [State.finished, ht.ctxDone, ht.session.closed]
  rfl

/-- The counters that read the lease come after a grant. -/
theorem granted_of_announcing {u : Unset} {h : History (State B) Ask} {s : State B}
    {w : Worker B} (hr : UnsetRun u h s) (ht : s.thread = .started w)
    (hpc : w.pc.keepingAlive = true ∨ w.pc = .setAlive) : (known h).granted = true := by
  show grantedBefore h = true
  rw [← anyGrant_relabel u]
  rcases hpc with hk | hset
  · exact anyGrant_of_keepingAlive hr.relabel ht hk
  · have hann := announced_run hr.relabel
    have hp := hann.pc w ht
    rw [hset] at hp
    exact hann.any hp.1

/-- The step of the worker in both runs. -/
theorem Twin.worker {u u' : Unset} {h : History (State B) Ask} {s s' : State B} {r : Session}
    {w w₁ : Worker B} {a : Answer} (hr : UnsetRun u h s) (htw : Twin u' (known h) s s')
    (ht : s.thread = .started w) (ha : a.agrees s.finished = true)
    (hw : WorkerStep s.session w a r w₁) (hc : ReadsSet h s (.step (.worker a)))
    (hs : step s (.worker a) = some { s with session := r, thread := .started w₁ }) :
    ∃ s₁', step s' (.worker a) = some s₁' ∧
      Twin u' (known ((s, .step (.worker a)) :: h)) { s with session := r, thread := .started w₁ }
        s₁' := by
  have hfin : s.finished = true →
      ({ s with session := r, thread := .started w₁ } : State B).finished = true :=
    fun hf => finished_step hf hs
  have hthread := htw.thread
  rw [ht] at hthread
  generalize ht' : s'.thread = t' at hthread
  cases hthread with
  | @started _ w' hworker =>
    cases hg : grantSucceeds (.worker a) with
    | false =>
      have hknown : known ((s, .step (.worker a)) :: h) = known h := known_frame (u := u) hg rfl
      obtain ⟨r', w₁', hw', hsess, hwork⟩ := hw.twin htw.session hworker ha hfin hg
        (granted_of_announcing hr ht) (fun hpc hl => by
          obtain ⟨o, pc⟩ := w
          cases hpc
          exact ((readsSet_iff.mp hc).2 o ht (by rw [hl])).1)
      refine ⟨_, step_iff.mpr (.worker ht' (htw.finished ▸ ha) hw'), ?_⟩
      rw [hknown]
      exact ⟨hsess, .started hwork, htw.ctxDone, htw.closing⟩
    | true =>
      have hknown : known ((s, .step (.worker a)) :: h) = { known h with granted := true } := by
        have hgr : grantedBefore ((s, .step (.worker a)) :: h) = true := by
          show (grantSucceeds (.worker a) || anyGrant (relabel {} h)) = true
          rw [hg]
          rfl
        simp [known, leaseGiven, revokeGiven, hgr, startAsk, Ask.label, startsWorker]
      obtain ⟨r', w₁', hw', hsess, hwork⟩ := hw.twin_grant htw.session hworker hg
      refine ⟨_, step_iff.mpr (.worker ht' (htw.finished ▸ ha) hw'), ?_⟩
      rw [hknown]
      exact ⟨hsess, .started hwork, htw.ctxDone, htw.closing⟩

/-- A step that starts no worker and grants nothing, with the same label in
both runs. -/
theorem Twin.other {u u' : Unset} {h : History (State B) Ask} {s s₁ s₁' : State B} {l : Label}
    (hg : grantSucceeds l = false) (hst : startsWorker s l = false)
    (htw : Twin u' (known h) s₁ s₁') : Twin u' (known ((s, .step l) :: h)) s₁ s₁' := by
  rw [known_frame (u := u) (a := .step l) hg hst]
  exact htw

/-- **The same step in the other run.** -/
theorem twin_step {u u' : Unset} {h : History (State B) Ask} {s s' s₁ : State B} {a : Ask}
    (hr : UnsetRun u h s) (htw : Twin u' (known h) s s') (hc : ReadsSet h s a)
    (hs : askStep u s a = some s₁) :
    ∃ s₁', askStep u' s' a = some s₁' ∧ Twin u' (known ((s, a) :: h)) s₁ s₁' := by
  have hinv := inv_run hr.relabel
  have hstep := step_iff.mp hs
  unfold askStep at hs ⊢
  generalize hl : a.label u = l at hstep hs
  cases hstep with
  | ctxDone =>
    cases ask_of_label hl (by simp)
    refine ⟨_, step_iff.mpr .ctxDone, Twin.other (u := u) rfl rfl ?_⟩
    exact ⟨htw.session, htw.thread.mono fun _ => rfl, rfl, htw.closing⟩
  | @grantRefused o hcl hno =>
    obtain ⟨o', hl'⟩ := grant_of_label u' hl
    rw [hl']
    have hst : startsWorker s (a.label u) = false := by
      rw [hl]
      rcases hno with hc | hg
      · simp [startsWorker, hc]
      · simp [startsWorker, hg]
    refine ⟨s', step_iff.mpr (.grantRefused (htw.closing ▸ hcl) ?_), ?_⟩
    · rw [htw.session.closed, htw.session.granted]
      exact hno
    · rw [known_frame (by rw [hl]; rfl) hst]
      exact htw
  | @grantOk o hcl hc hg =>
    have hst : startsWorker s (a.label u) = true := by simp [hl, startsWorker, hc, hg]
    obtain ⟨o', hl', hopt⟩ := optionsTwin_start u u' h hl hst
    have hnone := hinv.thread_none hg
    have hno : grantedBefore h = false := by
      rw [← anyGrant_relabel u]
      exact anyGrant_of_thread_none hr.relabel hnone
    have hno' : grantedBefore ((s, a) :: h) = false := by
      rw [← anyGrant_relabel u, ← hno, ← anyGrant_relabel u h]
      show (grantSucceeds (a.label u) || anyGrant (relabel u h)) = _
      rw [hl]
      rfl
    rw [hl']
    refine ⟨_, step_iff.mpr (.grantOk (htw.closing ▸ hcl) (htw.session.closed.trans hc)
      (htw.session.granted.trans hg)), ?_, .started ⟨rfl, hopt.toRetryTwin, fun _ => ?_⟩,
      htw.ctxDone, htw.closing⟩
    · have hsess := htw.session
      simp only [known, hno'] at hsess ⊢
      rw [hno] at hsess
      exact ⟨rfl, hsess.closed, hsess.alive, hsess.expired, hsess.lease_set, hsess.lease_unset⟩
    · simpa [known, hno'] using hopt
  | close hcl =>
    cases ask_of_label hl (by simp)
    refine ⟨_, step_iff.mpr (.close (htw.closing ▸ hcl)), Twin.other (u := u) rfl rfl ?_⟩
    have hsess := htw.session
    exact ⟨⟨hsess.granted, rfl, hsess.alive, hsess.expired, hsess.lease_set, hsess.lease_unset⟩,
      htw.thread.mono fun _ => by simp [State.finished], htw.ctxDone, rfl⟩
  | @closeJoined w hcl ht he =>
    cases ask_of_label hl (by simp)
    have hthread := htw.thread
    rw [ht] at hthread
    generalize ht' : s'.thread = t' at hthread
    cases hthread with
    | started hw =>
      refine ⟨_, step_iff.mpr (.closeJoined (htw.closing ▸ hcl) ht' (by rw [hw.pc]; exact he)),
        Twin.other (u := u) rfl rfl ⟨htw.session, .joined, htw.ctxDone, rfl⟩⟩
  | closeFree hcl hn =>
    cases ask_of_label hl (by simp)
    have hn' : ∀ w, s'.thread ≠ .started w := by
      intro w' hw'
      have hthread := htw.thread
      rw [hw'] at hthread
      generalize ht : s.thread = t at hthread
      cases hthread with
      | @started w _ _ => exact hn w ht
    exact ⟨_, step_iff.mpr (.closeFree (htw.closing ▸ hcl) hn'),
      Twin.other (u := u) rfl rfl ⟨htw.session, htw.thread, htw.ctxDone, rfl⟩⟩
  | worker ht ha hw =>
    cases ask_of_label hl (by simp)
    exact htw.worker hr ht ha hw hc hs

end

end Etcdv3Client
