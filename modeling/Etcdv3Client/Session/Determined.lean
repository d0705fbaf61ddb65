import Etcdv3Client.Session.Unset

/-!
# What a session sends is determined

The run from other contents is a twin of the given one as long as no unset
member is read, so both send the same requests; where one is read, there
are contents with which the next request is another.
-/

namespace Etcdv3Client

open Transition

section
variable {B : BackOffStrategy}

/-! ## The same requests -/

/-- The requests that depend on an unset member are not reached. -/
def Settled (k : Known) (s : State B) : Prop :=
  ∀ w, s.thread = .started w →
    (∀ b, w.pc = .leaseGrant b → (k.lease || k.granted) = true) ∧
    (w.pc.revoking = true → k.granted = true)

/-- Then both runs are about to send the same. -/
theorem Twin.request {u u' : Unset} {h : History (State B) Ask} {s s' : State B}
    (hr : UnsetRun u h s) (htw : Twin u' (known h) s s') (hset : Settled (known h) s) :
    s'.request = s.request := by
  have hthread := htw.thread
  unfold State.request
  generalize ht : s.thread = t at hthread
  generalize ht' : s'.thread = t' at hthread
  cases hthread with
  | none => rfl
  | joined => rfl
  | @started w w' hw =>
    obtain ⟨hgrant, hrevoke⟩ := hset w ht
    have hkeep := granted_of_announcing hr ht
    have hsame : (known h).granted = true → s'.session = s.session := fun hk =>
      (hk ▸ htw.session : SessionTwin u' true s.session s'.session).eq
    obtain ⟨o, pc⟩ := w
    obtain ⟨o', pc'⟩ := w'
    obtain ⟨hpc, hretry, hasks⟩ := hw
    dsimp only at hpc hasks hgrant hrevoke hkeep
    subst hpc
    cases pc' with
    | leaseGrant b =>
      have hopt := hasks rfl
      simp only [Pc.request, hopt.ttl, hopt.lease_set (hgrant b rfl)]
    | write b => simp only [Pc.request, hsame (hkeep (Or.inl rfl))]
    | leaseRevoke m n b => simp only [Pc.request, hsame (hrevoke rfl)]
    | _ => rfl

theorem settled_step {u : Unset} {h : History (State B) Ask} {s s₁ : State B} {a : Ask}
    (hr : UnsetRun u h s) (hi : Settled (known h) s) (hc : ReadsSet h s a)
    (hs : askStep u s a = some s₁) : Settled (known ((s, a) :: h)) s₁ := by
  have hinv := inv_run hr.relabel
  have hcases := step_cases hinv hs
  have hstarted := fun w => started_cases (w := w) hinv hs
  unfold askStep at hs
  intro w hw
  rcases hcases with ⟨b, w₀, r, w₁, hl, ht, -, hstep, rfl⟩ | ⟨hl, -⟩
  · cases ask_of_label hl (by simp)
    cases hw
    have hlease : leaseGiven ((s, .step (.worker b)) :: h) = leaseGiven h := by
      simp [leaseGiven, startAsk, Ask.label, startsWorker]
    have hmono : grantedBefore h = true → grantedBefore ((s, .step (.worker b)) :: h) = true := by
      intro hg
      show (grantSucceeds (.worker b) || grantedBefore h) = true
      rw [hg, Bool.or_true]
    obtain ⟨hgrant, hrevoke⟩ := hi w₀ ht
    refine ⟨fun b' hpc => ?_, fun hrev => ?_⟩
    · show (leaseGiven _ || grantedBefore _) = true
      rw [hlease, Bool.or_eq_true]
      cases hstep with
      | grantLoopOpen => exact ((readsSet_iff.mp hc).1 _ _ ht rfl).imp id hmono
      | _ => cases hpc
    · refine hmono ?_
      cases hstep with
      | loopClosed hle =>
        exact (((readsSet_iff.mp hc).2 _ ht rfl).2).resolve_left ((revokeBudget_pos _).mp hle)
      | revokeFailed => exact hrevoke rfl
      | revokeAgain => exact hrevoke rfl
      | _ => cases hrev
  · rcases hstarted w hl hw with ht | ⟨-, -, o, -, rfl⟩
    · have hgranted : s.session.granted = true := by
        rw [hinv.granted, ht]
        rfl
      have hno : grantSucceeds (a.label u) = false ∧ startsWorker s (a.label u) = false := by
        generalize a.label u = l at hl
        cases l with
        | worker b => exact absurd rfl (hl b)
        | grant o => exact ⟨rfl, by simp [startsWorker, hgranted]⟩
        | _ => exact ⟨rfl, rfl⟩
      rw [known_frame hno.1 hno.2]
      exact hi w ht
    · exact ⟨fun b hpc => (by cases hpc), fun hrev => (by cases hrev)⟩

/-- From any other contents the run has a twin that has sent the same. -/
structure Lockstep (u : Unset) (h : History (State B) Ask) (s : State B) : Prop where
  settled : Settled (known h) s
  twin : ∀ u', ∃ h' s', replay (askStep u') (State.unset u') h = some (h', s') ∧
    sentRequests (relabel u' h') = sentRequests (relabel u h) ∧ Twin u' (known h) s s'

theorem sentRequests_twin {u u' : Unset} {H H' : History (State B) Label} {s s' : State B}
    {a : Ask} (hreq : s'.request = s.request) (hrest : sentRequests H' = sentRequests H) :
    sentRequests ((s', a.label u') :: H') = sentRequests ((s, a.label u) :: H) := by
  cases a with
  | grantDeclared calls => exact hrest
  | step l =>
    cases l with
    | worker b => simp only [Ask.label, sentRequests, hreq, hrest]
    | _ => exact hrest

theorem lockstep_init (u : Unset) : Lockstep u [] (State.unset u : State B) := by
  refine ⟨fun w hw => (by cases hw), fun u' => ⟨[], _, rfl, rfl, ?_, .none, rfl, rfl⟩⟩
  exact ⟨rfl, rfl, rfl, rfl, fun hk => (by cases hk), fun _ => rfl⟩

theorem lockstep_step {u : Unset} {h : History (State B) Ask} {s s₁ : State B} {a : Ask}
    (hr : UnsetRun u h s) (hi : Lockstep u h s) (hc : ReadsSet h s a)
    (hs : askStep u s a = some s₁) : Lockstep u ((s, a) :: h) s₁ := by
  refine ⟨settled_step hr hi.settled hc hs, fun u' => ?_⟩
  obtain ⟨h', s', hrep, hsent, htw⟩ := hi.twin u'
  obtain ⟨s₁', hs', htw'⟩ := twin_step hr htw hc hs
  exact ⟨_, s₁', replay_cons.mpr ⟨h', s', hrep, hs', rfl⟩,
    sentRequests_twin (htw.request hr hi.settled) hsent, htw'⟩

theorem Lockstep.same {u : Unset} {h : History (State B) Ask} {s : State B}
    (hr : UnsetRun u h s) (hi : Lockstep u h s) : SameRequests u h s := by
  intro u'
  obtain ⟨h', s', hrep, hsent, htw⟩ := hi.twin u'
  refine ⟨h', s', hrep, ?_⟩
  rw [sentUnset, sentUnset, hsent, htw.request hr hi.settled]

/-- Where both runs have sent the same before and after a step, they are
about to send the same. -/
theorem Lockstep.next {u : Unset} {h : History (State B) Ask} {s s₁ : State B} {a : Ask}
    (hr : UnsetRun u h s) (hi : Lockstep u h s) (hp : SameRequests u ((s, a) :: h) s₁)
    (u' : Unset) : ∃ s' s₁', Twin u' (known h) s s' ∧ askStep u' s' a = some s₁' ∧
      s₁'.request = s₁.request := by
  obtain ⟨h₁', s₁', hrep', hsame⟩ := hp u'
  obtain ⟨h', s', hrep, hs', rfl⟩ := replay_cons.mp hrep'
  obtain ⟨h₂, s₂, hrep₂, hsent, htw⟩ := hi.twin u'
  cases hrep.symm.trans hrep₂
  refine ⟨s', s₁', htw, hs', ?_⟩
  have hrest : sentRequests (relabel u' ((s', a) :: h'))
      = sentRequests (relabel u ((s, a) :: h)) :=
    sentRequests_twin (htw.request hr hi.settled) hsent
  rw [sentUnset, sentUnset, hrest] at hsame
  have hlist := List.append_cancel_right hsame
  cases hreq : s₁'.request <;> cases hreq₁ : s₁.request <;> simp_all

/-! ## Where an unset member is read -/

/-- What a worker that turns to `TryRevoke` is about to send. -/
theorem request_of_turn {s s₁ : State B} {o : SessionOptions} (ht : s.thread = .started ⟨o, .loop⟩)
    (hs : step s (.worker (.finished true)) = some s₁) :
    s₁.request = if o.revokeMaxRetryTimes < 0 then none
      else some (.leaseRevoke { id := s.session.lease }) := by
  cases step_iff.mp hs with
  | worker ht' _ hw =>
    cases ht.symm.trans ht'
    cases hw with
    | loopClosed hle => rw [if_neg ((revokeBudget_pos o).mp hle)]; rfl
    | loopClosedNoRevoke hgt =>
      rw [if_pos (not_not.mp fun hno => hgt ((revokeBudget_pos o).mpr hno))]
      rfl

/-- What a worker that goes on to `LeaseGrant` is about to send. -/
theorem request_of_grant {s s₁ : State B} {o : SessionOptions} {b : B.State}
    (ht : s.thread = .started ⟨o, .grantLoop b⟩)
    (hs : step s (.worker (.finished false)) = some s₁) :
    s₁.request = some (.leaseGrant { ttl := o.ttl, id := o.lease }) := by
  cases step_iff.mp hs with
  | worker ht' _ hw =>
    cases ht.symm.trans ht'
    cases hw
    rfl

/-- The other run's worker is where this one is. -/
theorem Twin.started {u : Unset} {k : Known} {s s' : State B} {w : Worker B}
    (htw : Twin u k s s') (ht : s.thread = .started w) :
    ∃ o', s'.thread = .started ⟨o', w.pc⟩ ∧ WorkerTwin u k s.finished w ⟨o', w.pc⟩ := by
  have hthread := htw.thread
  rw [ht] at hthread
  generalize ht' : s'.thread = t' at hthread
  cases hthread with
  | @started _ w' hw =>
    obtain ⟨o', pc'⟩ := w'
    cases hw.pc
    exact ⟨o', rfl, hw⟩

theorem readsSet_of_same {u : Unset} {h : History (State B) Ask} {s s₁ : State B} {a : Ask}
    (hr : UnsetRun u h s) (hi : Lockstep u h s) (hs : askStep u s a = some s₁)
    (hp : SameRequests u ((s, a) :: h) s₁) : ReadsSet h s a := by
  have hrevoke : ∀ o, s.thread = .started ⟨o, .loop⟩ → a = .step (.worker (.finished true)) →
      revokeGiven h = true := by
    intro o ht ha
    subst ha
    by_contra hno
    -- a number of retries with the other sign
    obtain ⟨s', s₁', htw, hs', hreq⟩ := hi.next hr hp
      { revokeMaxRetryTimes := if o.revokeMaxRetryTimes < 0 then 0 else -1 }
    obtain ⟨o', ht', hw⟩ := htw.started ht
    have hunset := hw.retry.revoke_unset (by simpa [known] using hno)
    dsimp only at hunset
    rw [request_of_turn ht hs, request_of_turn ht' hs', hunset] at hreq
    by_cases hneg : o.revokeMaxRetryTimes < 0
    · simp [hneg] at hreq
    · simp [hneg] at hreq
  refine readsSet_iff.mpr ⟨fun o b ht ha => ?_, fun o ht ha => ⟨hrevoke o ht ha, ?_⟩⟩
  · by_contra hno
    subst ha
    obtain ⟨s', s₁', htw, hs', hreq⟩ := hi.next hr hp { optionsLease := o.lease + 1 }
    obtain ⟨o', ht', hw⟩ := htw.started ht
    have hunset := (hw.asks rfl).lease_unset (by simpa [known] using hno)
    dsimp only at hunset
    rw [request_of_grant ht hs, request_of_grant ht' hs', hunset] at hreq
    simp only [Option.some.injEq, Request.leaseGrant.injEq, LeaseGrantRequest.mk.injEq] at hreq
    omega
  · by_contra hno
    obtain ⟨hneg, hgranted⟩ := not_or.mp hno
    have hset := hrevoke o ht ha
    subst ha
    obtain ⟨s', s₁', htw, hs', hreq⟩ := hi.next hr hp { lease := s.session.lease + 1 }
    obtain ⟨o', ht', hw⟩ := htw.started ht
    have hsame := hw.retry.revoke_set hset
    have hunset := htw.session.lease_unset (by simpa [known] using hgranted)
    dsimp only at hsame hunset
    rw [request_of_turn ht hs, request_of_turn ht' hs', hsame, hunset] at hreq
    simp only [if_neg hneg, Option.some.injEq, Request.leaseRevoke.injEq,
      LeaseRevokeRequest.mk.injEq] at hreq
    omega

/-- **What a session sends is determined**: two runs on the same calls,
replies and moments of closing, from any two contents of the members that
nothing sets, send the same requests, if and only if the worker asks for
its first lease with an id from `WithLease`, and turns to `TryRevoke` with a
number from `WithMaxRevokeRetry` and, unless that is negative, after a
grant. -/
theorem requests_determined_iff {u : Unset} {h : History (State B) Ask} {s : State B}
    (hr : UnsetRun u h s) : Throughout (SameRequests u) h s ↔ Along ReadsSet h := by
  refine Run.throughout_iff (J := Lockstep u) (D := fun _ _ _ => True) (fun s hs => ?_)
    (fun hr' hj _ hc hs => lockstep_step hr' hj hc hs)
    (fun hr' hj _ _ hs => ⟨fun hp => readsSet_of_same hr' hj hs hp, fun hc =>
      (lockstep_step hr' hj hc hs).same (hr'.next hs)⟩) hr (Along.of_true h)
  subst hs
  have hj := lockstep_init (B := B) u
  exact ⟨hj.same (.start rfl), hj⟩

/-- A session with the builder calls `calls`, closed once it is alive, up to
the revoke. -/
def askScript (calls : List OptionCall) : List Ask :=
  .grantDeclared calls ::
    [.worker (.finished false), .worker (.finished false),
      .worker (.leaseGrant (.ok { id := 7, ttl := 60 })), .worker (.finished false),
      .worker .flag, .worker .flag, .close, .worker (.finished true), .worker .flag,
      .worker .flag, .worker (.finished true)].map .step

/-- With the lease and the retries set, the memory does not matter. -/
theorem requests_determined_given :
    ∃ h s, exec (askStep { lease := 5 }) [] (State.unset { lease := 5 } : State .constant)
        (askScript [.withLease 7, .withMaxRevokeRetry 2]) = some (h, s) ∧
      s.request = some (.leaseRevoke { id := 7 }) ∧
      Throughout (SameRequests { lease := 5 }) h s := by
  refine ⟨_, _, rfl, rfl, ?_⟩
  refine (requests_determined_iff (Run.exec (.start rfl)
    (rfl : exec (askStep { lease := 5 }) [] (State.unset { lease := 5 } : State .constant)
      (askScript [.withLease 7, .withMaxRevokeRetry 2]) = some (_, _)))).mpr ?_
  decide

/-- Without `WithLease` the first `LeaseGrant` asks for whatever the memory
held. -/
theorem requests_read_memory :
    ∃ h s, exec (askStep {}) [] (State.unset {} : State .constant)
        [.grantDeclared [], .step (.worker (.finished false)), .step (.worker (.finished false))]
          = some (h, s) ∧
      ¬ SameRequests {} h s := by
  refine ⟨_, _, rfl, fun hsame => ?_⟩
  obtain ⟨h', s', hrep, hsent⟩ := hsame { optionsLease := 1 }
  cases hrep
  exact absurd hsent (by decide)

end

end Etcdv3Client
