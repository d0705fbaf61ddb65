import Etcdv3Client.Session.Flags

/-!
# What the events say, and the life of a session

The two histories that the flags do not show: whether a `LeaseGrant`
succeeded since `expired_` was last set, and how often `alive_` was set
since the last success. The worker reaches `alive_->Set()` only with a
grant that no earlier announcement has used. With them, what an observer of
the two events may conclude, and what the callers of `Grant` and `Close`
may rely on.
-/

namespace Etcdv3Client

open Transition

section
variable {B : BackOffStrategy}

/-! ## The history of the announcements -/

/-- A successful `LeaseGrant` reply. -/
def grantSucceeds : Label → Bool
  | .worker (.leaseGrant (.ok _)) => true
  | _ => false

/-- The step is `alive_->Set()`. -/
def setsAlive (s : State B) (l : Label) : Bool :=
  match s.thread, l with
  | .started ⟨_, .setAlive⟩, .worker .flag => true
  | _, _ => false

/-- The step is `expired_->Set()`. -/
def setsExpired (s : State B) (l : Label) : Bool :=
  match s.thread, l with
  | .started ⟨_, .setExpired⟩, .worker .flag => true
  | _, _ => false

/-- Some `LeaseGrant` succeeded. -/
def anyGrant : History (State B) Label → Bool
  | [] => false
  | (_, l) :: h => grantSucceeds l || anyGrant h

/-- Some `LeaseGrant` succeeded since `expired_` was last set, by the
constructor or by the worker. -/
def grantedSinceExpired : History (State B) Label → Bool
  | [] => false
  | (s, l) :: h =>
      if grantSucceeds l then true
      else if setsExpired s l then false
      else grantedSinceExpired h

/-- How often `alive_` was set since the last successful `LeaseGrant`. -/
def aliveSetsSinceGrant : History (State B) Label → Nat
  | [] => 0
  | (s, l) :: h =>
      if grantSucceeds l then 0
      else if setsAlive s l then aliveSetsSinceGrant h + 1
      else aliveSetsSinceGrant h

/-- A grant that has not been announced yet. -/
def Fresh (h : History (State B) Label) : Prop :=
  grantedSinceExpired h = true ∧ aliveSetsSinceGrant h = 0

/-- What the history has when the worker is at a counter. Where `TryGrant`
returned without a success the close event is finished. -/
def Pc.Announceable (h : History (State B) Label) (finished : Bool) : Pc B → Prop
  | .granted => finished = true ∨ Fresh h
  | .resetExpired => Fresh h
  | .setAlive => Fresh h
  | pc => pc.keepingAlive = true → grantedSinceExpired h = true

/-- A step that is not one of the three changes none of this. -/
theorem history_frame {h : History (State B) Label} {s : State B} {l : Label}
    (hg : grantSucceeds l = false) (ha : setsAlive s l = false) (he : setsExpired s l = false) :
    anyGrant ((s, l) :: h) = anyGrant h ∧
      grantedSinceExpired ((s, l) :: h) = grantedSinceExpired h ∧
      aliveSetsSinceGrant ((s, l) :: h) = aliveSetsSinceGrant h := by
  simp [anyGrant, grantedSinceExpired, aliveSetsSinceGrant, hg, ha, he]

theorem Pc.Announceable.mono {h h' : History (State B) Label} {f f' : Bool} {pc : Pc B}
    (hp : pc.Announceable h f) (hf : f = true → f' = true)
    (hg : grantedSinceExpired h' = grantedSinceExpired h)
    (ha : aliveSetsSinceGrant h' = aliveSetsSinceGrant h) : pc.Announceable h' f' := by
  unfold Announceable at hp ⊢
  unfold Fresh at hp ⊢
  rw [hg, ha]
  cases pc <;> first | exact hp.imp hf id | exact hp

/-- Inside `TryKeepAlive` no grant is received and `expired_` is not set. -/
theorem WorkerStep.keepAlive_frame {h : History (State B) Label} {st : State B}
    {s s' : Session} {w w' : Worker B} {a : Answer} (hw : WorkerStep s w a s' w')
    (ht : st.thread = .started w) (hk : w.pc.keepingAlive = true) :
    grantedSinceExpired ((st, .worker a) :: h) = grantedSinceExpired h := by
  cases hw <;> first
    | exact Bool.noConfusion hk
    | simp [grantedSinceExpired, grantSucceeds, setsExpired, ht]

/-- `TryKeepAlive` is entered from `alive_->Set()` only. -/
theorem WorkerStep.enters_keepAlive {s s' : Session} {w w' : Worker B} {a : Answer}
    (hw : WorkerStep s w a s' w') (hk : w'.pc.keepingAlive = true) :
    w.pc.keepingAlive = true ∨ w.pc = .setAlive := by
  unfold Pc.keepingAlive at hk ⊢
  rcases hw.stage with hsame | hnext
  · exact Or.inl (hsame ▸ hk)
  · rw [hnext] at hk
    obtain ⟨o, pc⟩ := w
    cases pc <;> first | exact Or.inr rfl | exact Bool.noConfusion hk

/-- The worker's step: it comes to `expired_->Reset()` only with a fresh
grant, and uses it up at `alive_->Set()`. -/
theorem WorkerStep.announceable {h : History (State B) Label} {st : State B} {f' : Bool}
    {s s' : Session} {w w' : Worker B} {a : Answer} (hw : WorkerStep s w a s' w')
    (ht : st.thread = .started w) (hag : a.agrees st.finished = true)
    (hf : st.finished = true → f' = true) (hp : w.pc.Announceable h st.finished) :
    w'.pc.Announceable ((st, .worker a) :: h) f' := by
  -- the counters of `TryKeepAlive` need the grant only
  have hkeep : w'.pc.keepingAlive = true →
      grantedSinceExpired ((st, .worker a) :: h) = true := by
    intro hk
    rcases hw.enters_keepAlive hk with hk' | hset
    · rw [hw.keepAlive_frame ht hk']
      obtain ⟨o, pc⟩ := w
      cases pc <;> first | exact hp rfl | exact Bool.noConfusion hk'
    · obtain ⟨o, pc⟩ := w
      subst hset
      cases hw
      simpa [grantedSinceExpired, grantSucceeds, setsExpired, ht] using hp.1
  cases hw with
  | grantOk => exact Or.inr ⟨rfl, rfl⟩
  | grantLoopClosed => exact Or.inl (hf (by simpa [Answer.agrees] using hag))
  | grantWaitClosed => exact Or.inl (hf (by simpa [Answer.agrees] using hag))
  | grantedOpen =>
    have hopen : st.finished = false := by simpa [Answer.agrees] using hag
    have hfresh : Fresh h := by simpa [Pc.Announceable, hopen] using hp
    simpa [Pc.Announceable, Fresh, grantedSinceExpired, aliveSetsSinceGrant, grantSucceeds,
      setsAlive, setsExpired, ht] using hfresh
  | resetExpired =>
    simpa [Pc.Announceable, Fresh, grantedSinceExpired, aliveSetsSinceGrant, grantSucceeds,
      setsAlive, setsExpired, ht] using hp
  | _ => exact hkeep

/-- What the history of a reachable state has. -/
structure Announced (h : History (State B) Label) (s : State B) : Prop where
  pc : ∀ w, s.thread = .started w → w.pc.Announceable h s.finished
  once : aliveSetsSinceGrant h ≤ (anyGrant h).toNat
  any : grantedSinceExpired h = true → anyGrant h = true

theorem announced_init {s : State B} (h : Init s) : Announced [] s := by
  obtain ⟨lease, leaseTtl, rfl⟩ := h
  exact ⟨by simp [State.new], by simp [aliveSetsSinceGrant], by simp [grantedSinceExpired]⟩

theorem announced_step {h : History (State B) Label} {s s' : State B} {l : Label}
    (hinv : Inv s) (hi : Announced h s) (hs : step s l = some s') :
    Announced ((s, l) :: h) s' := by
  have hfin : s.finished = true → s'.finished = true := fun hf => finished_step hf hs
  rcases step_cases hinv hs with ⟨a, w, r, w', rfl, ht, ha, hw, rfl⟩ | ⟨hl, hframe⟩
  · refine ⟨?_, ?_, ?_⟩
    · intro w₁ hw₁
      cases hw₁
      exact hw.announceable ht ha hfin (hi.pc w ht)
    · -- `alive_->Set()` is reached with the grant not yet announced
      by_cases hset : setsAlive s (.worker a) = true
      · obtain ⟨o, pc⟩ := w
        have hfresh : Fresh h := by
          cases pc <;> simp [setsAlive, ht] at hset
          exact hi.pc _ ht
        have hany := hi.any hfresh.1
        cases hg : grantSucceeds (.worker a) <;>
          simp [aliveSetsSinceGrant, anyGrant, hset, hfresh.2, hany, hg]
      · have honce := hi.once
        cases hg : grantSucceeds (.worker a) <;>
          simp [aliveSetsSinceGrant, anyGrant, hset, hg]
        exact honce
    · intro hg
      simp only [grantedSinceExpired] at hg
      split at hg
      · rename_i hs'
        simp [anyGrant, hs']
      · split at hg
        · cases hg
        · simp [anyGrant, hi.any hg]
  · obtain ⟨h1, h2, h3⟩ : anyGrant ((s, l) :: h) = anyGrant h ∧
        grantedSinceExpired ((s, l) :: h) = grantedSinceExpired h ∧
        aliveSetsSinceGrant ((s, l) :: h) = aliveSetsSinceGrant h := by
      cases l with
      | worker a => exact absurd rfl (hl a)
      | _ => exact history_frame rfl (by simp [setsAlive]) (by simp [setsExpired])
    refine ⟨fun w hw => ?_, by rw [h1, h3]; exact hi.once, by rw [h1, h2]; exact hi.any⟩
    rcases hframe.back w hw with hw₀ | hloop
    · exact (hi.pc w hw₀).mono hfin h2 h3
    · rw [hloop]
      exact fun hk => Bool.noConfusion hk

theorem announced_run {h : History (State B) Label} {s : State B} (hr : SRun h s) :
    Announced h s :=
  hr.inv (fun _ => announced_init) fun hr' hi hs => announced_step (inv_run hr') hi hs

/-! ## The callers -/

/-- Some `Close` has returned. -/
def closeReturned : History (State B) Label → Bool
  | [] => false
  | (_, .closeReturn) :: _ => true
  | _ :: h => closeReturned h

/-- How many `Grant` calls returned OK. -/
def grantOks : History (State B) Label → Nat
  | [] => 0
  | (s, .grant _) :: h => (grantStatus s.session).isOk.toNat + grantOks h
  | _ :: h => grantOks h

/-- The step is the assignment of a new `std::thread` in `Grant`. -/
def startsWorker (s : State B) : Label → Bool
  | .grant _ => !s.session.closed && !s.session.granted
  | _ => false

def workersStarted : History (State B) Label → Nat
  | [] => 0
  | (s, l) :: h => (startsWorker s l).toNat + workersStarted h

def Thread.joinable : Thread B → Bool
  | .started _ => true
  | _ => false

/-- A worker found after a step of the others was there before, or was
started by that step. -/
theorem started_cases {s s' : State B} {l : Label} {w : Worker B} (hi : Inv s)
    (hs : step s l = some s') (hl : ∀ a, l ≠ .worker a) (hw : s'.thread = .started w) :
    s.thread = .started w ∨
      (s.thread = .none ∧ startsWorker s l = true ∧ ∃ o, l = .grant o ∧ w = ⟨o, .loop⟩) := by
  cases step_iff.mp hs with
  | worker => exact absurd rfl (hl _)
  | @grantOk o hcl hc hg =>
    cases hw
    exact Or.inr ⟨hi.thread_none hg, by simp [startsWorker, hc, hg], o, rfl, rfl⟩
  | closeJoined => cases hw
  | _ => exact Or.inl hw

/-- Before a worker is started nothing is granted. -/
theorem anyGrant_of_thread_none {h : History (State B) Label} {s : State B} (hr : SRun h s)
    (ht : s.thread = .none) : anyGrant h = false := by
  induction hr with
  | start => rfl
  | @next h s₀ s l hr hs ih =>
    cases step_iff.mp hs with
    | worker => cases ht
    | grantOk => cases ht
    | closeJoined => cases ht
    | _ => simpa [anyGrant, grantSucceeds] using ih ht

theorem grantStatus_isOk (s : Session) :
    (grantStatus s).isOk = (!s.closed && !s.granted) := by
  unfold grantStatus
  cases s.closed <;> cases s.granted <;> rfl

/-- A `Grant` that does not return OK changes nothing. -/
theorem grant_refused {s : State B} (o : SessionOptions)
    (h : (grantStatus s.session).isOk = false) : grant s o = s := by
  rw [grantStatus_isOk] at h
  unfold grant
  cases hc : s.session.closed <;> cases hg : s.session.granted <;> simp_all

/-- The calls that have succeeded and returned, against the state. -/
structure Called (h : History (State B) Label) (s : State B) : Prop where
  oks : grantOks h = s.session.granted.toNat
  starts : workersStarted h = s.session.granted.toNat
  closed : closeReturned h = true → s.session.closed = true ∧ s.thread.joinable = false

theorem called_init {s : State B} (h : Init s) : Called [] s := by
  obtain ⟨lease, leaseTtl, rfl⟩ := h
  exact ⟨rfl, rfl, by simp [closeReturned]⟩

theorem called_step {h : History (State B) Label} {s s' : State B} {l : Label}
    (hinv : Inv s) (hi : Called h s) (hs : step s l = some s') :
    Called ((s, l) :: h) s' := by
  cases step_iff.mp hs with
  | ctxDone => exact ⟨hi.oks, by simp [workersStarted, startsWorker, hi.starts], hi.closed⟩
  | @grantRefused o hcl hrefused =>
    have hno : (grantStatus s.session).isOk = false := by
      rw [grantStatus_isOk]
      rcases hrefused with hr | hr <;> simp [hr]
    have hst : startsWorker s (.grant o) = false := by
      rcases hrefused with hr | hr <;> simp [startsWorker, hr]
    exact ⟨by simp [grantOks, hno, hi.oks], by simp [workersStarted, hst, hi.starts], hi.closed⟩
  | grantOk hcl hc hg =>
    have hok : (grantStatus s.session).isOk = true := by simp [grantStatus_isOk, hc, hg]
    refine ⟨by simp [grantOks, hok, hi.oks, hg],
      by simp [workersStarted, startsWorker, hc, hg, hi.starts], fun hret => ?_⟩
    -- after a `Close` returned the session is closed, so that `Grant` was refused
    exact absurd (hi.closed hret).1 (by simp [hc])
  | close =>
    exact ⟨hi.oks, by simp [workersStarted, startsWorker, hi.starts],
      fun hret => ⟨rfl, (hi.closed hret).2⟩⟩
  | closeJoined hcl ht he =>
    exact ⟨hi.oks, by simp [workersStarted, startsWorker, hi.starts],
      fun _ => ⟨hinv.closing hcl, rfl⟩⟩
  | closeFree hcl hn =>
    refine ⟨hi.oks, by simp [workersStarted, startsWorker, hi.starts],
      fun _ => ⟨hinv.closing hcl, ?_⟩⟩
    show s.thread.joinable = false
    cases ht : s.thread with
    | none => rfl
    | started w => exact absurd ht (hn w)
    | joined => rfl
  | worker ht ha hw =>
    obtain ⟨hgr, hclosed, -⟩ := hw.closed
    refine ⟨by simp [grantOks, hi.oks, hgr], by simp [workersStarted, startsWorker, hi.starts, hgr],
      fun hret => ?_⟩
    exact absurd (hi.closed hret).2 (by simp [ht, Thread.joinable])

theorem called_run {h : History (State B) Label} {s : State B} (hr : SRun h s) :
    Called h s :=
  hr.inv (fun _ => called_init) fun hr' hi hs => called_step (inv_run hr') hi hs

/-! ## Main results -/

/-- Once a `Close` has returned no worker runs, and both events are as the
constructor made them. -/
theorem events_of_not_joinable {s : State B} (hi : Inv s) (hj : s.thread.joinable = false) :
    s.session.alive = false ∧ s.session.expired = true := by
  rw [hi.alive, hi.expired]
  cases ht : s.thread with
  | none => exact ⟨rfl, rfl⟩
  | started w => simp [ht, Thread.joinable] at hj
  | joined => exact ⟨rfl, rfl⟩

/-- **The two events tell one story.** In every reachable state they are
not both set; `alive_` is set only while the worker keeps alive a lease
granted since `expired_` was last set, and at most once for each grant;
before a worker starts, after it has ended and after any `Close` has
returned, `alive_` is unset and `expired_` is set. -/
theorem events_consistent {h : History (State B) Label} {s : State B} (hr : SRun h s) :
    ¬ (s.session.alive = true ∧ s.session.expired = true) ∧
    (s.session.alive = true →
      s.thread.keepingAlive = true ∧ grantedSinceExpired h = true) ∧
    aliveSetsSinceGrant h ≤ (anyGrant h).toNat ∧
    (s.thread.wasStarted = false ∨ s.thread.hasEnded = true →
      s.session.alive = false ∧ s.session.expired = true) ∧
    (closeReturned h = true → s.session.alive = false ∧ s.session.expired = true) := by
  have hi := inv_run hr
  have hann := announced_run hr
  refine ⟨?_, ?_, hann.once, ?_, ?_⟩
  · rw [hi.alive, hi.expired]
    exact s.thread.stage.not_both
  · intro ha
    rw [hi.alive] at ha
    refine ⟨ha, ?_⟩
    cases ht : s.thread with
    | none => simp [ht, Thread.stage, Stage.aliveSet] at ha
    | joined => simp [ht, Thread.stage, Stage.aliveSet] at ha
    | started w =>
      have hp := hann.pc w ht
      obtain ⟨o, pc⟩ := w
      rw [ht] at ha
      cases pc <;> first | exact hp rfl | exact Bool.noConfusion ha
  · intro hth
    have hno : s.thread.stage = .expired := by
      cases ht : s.thread with
      | none => rfl
      | joined => rfl
      | started w =>
        rw [ht] at hth
        exact stage_of_ended (hth.resolve_left (by simp [Thread.wasStarted]))
    rw [hi.alive, hi.expired, hno]
    exact ⟨rfl, rfl⟩
  · intro hret
    exact events_of_not_joinable hi ((called_run hr).closed hret).2

/-- A session announced after its grant. -/
theorem events_consistent_announced :
    ∃ h s, exec step [] (State.new 5 0 : State .constant)
        (announceScript .new { id := 7, ttl := 60 }) = some (h, s) ∧
      s.session.alive = true ∧
      ¬ (s.session.alive = true ∧ s.session.expired = true) ∧
      grantedSinceExpired h = true ∧ aliveSetsSinceGrant h ≤ (anyGrant h).toNat := by
  refine ⟨_, _, rfl, rfl, ?_⟩
  obtain ⟨h1, h2, h3, -, -⟩ := events_consistent (Run.exec (.start ⟨5, 0, rfl⟩)
    (rfl : exec step [] (State.new 5 0 : State .constant)
      (announceScript .new { id := 7, ttl := 60 }) = some (_, _)))
  exact ⟨h1, (h2 rfl).2, h3⟩

/-- **The life of a session.** At most one `Grant` returns OK and at most
one worker is started, by a `Grant`; a `Grant` evaluated on a closed session
or after a successful one fails and changes nothing; `closed_` stays set;
and once any `Close` has returned, the session is closed and has no worker. -/
theorem session_lifecycle {h : History (State B) Label} {s : State B} (hr : SRun h s) :
    grantOks h ≤ 1 ∧
    workersStarted h ≤ 1 ∧
    (∀ l s', step s l = some s' → s.thread.joinable = false → s'.thread.joinable = true →
      startsWorker s l = true) ∧
    (∀ o, s.session.closed = true ∨ 0 < grantOks h →
      (grantStatus s.session).isOk = false ∧ grant s o = s) ∧
    (∀ l s', s.session.closed = true → step s l = some s' → s'.session.closed = true) ∧
    (closeReturned h = true → s.session.closed = true ∧ s.thread.joinable = false) := by
  have hc := called_run hr
  refine ⟨?_, ?_, ?_, ?_, fun l s' => closed_step, hc.closed⟩
  · rw [hc.oks]
    exact Bool.toNat_le _
  · rw [hc.starts]
    exact Bool.toNat_le _
  · intro l s' hs hj hj'
    cases step_iff.mp hs with
    | grantOk _ hcl hg => simp [startsWorker, hcl, hg]
    | worker ht => simp [ht, Thread.joinable] at hj
    | closeJoined => simp [Thread.joinable] at hj'
    | _ => exact absurd (hj.symm.trans hj') (by simp)
  · intro o hor
    have hno : (grantStatus s.session).isOk = false := by
      rw [grantStatus_isOk]
      rcases hor with hcl | hpos
      · simp [hcl]
      · have hg : s.session.granted = true := by
          cases hgr : s.session.granted with
          | true => rfl
          | false => simp [hc.oks, hgr] at hpos
        simp [hg]
    exact ⟨hno, grant_refused o hno⟩

/-- A session closed while its worker asks for a lease, and granted again. -/
theorem session_lifecycle_closed :
    ∃ h s, exec step [] (State.new 5 0 : State .constant)
        [.grant .new, .worker (.finished false), .worker (.finished false), .close] = some (h, s) ∧
      grantOks h = 1 ∧ s.session.closed = true ∧ s.thread.joinable = true ∧
      (grantStatus s.session).isOk = false ∧ grant s .new = s ∧ grantOks h ≤ 1 := by
  refine ⟨_, _, rfl, rfl, rfl, rfl, ?_⟩
  obtain ⟨h1, -, -, h4, -, -⟩ := session_lifecycle (Run.exec (.start ⟨5, 0, rfl⟩)
    (rfl : exec step [] (State.new 5 0 : State .constant)
      [.grant .new, .worker (.finished false), .worker (.finished false), .close]
        = some (_, _)))
  exact ⟨(h4 .new (Or.inl rfl)).1, (h4 .new (Or.inl rfl)).2, h1⟩

end

end Etcdv3Client
