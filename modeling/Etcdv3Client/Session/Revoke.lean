import Etcdv3Client.Session.Identity

/-!
# The revoke at the end

Every exit of the worker's loops leads to `TryRevoke`. What it sends there
depends on the retry option, which is not checked, and on `lease_`. A
worker that was granted a lease and has ended has tried to revoke it
exactly where the option is not negative and the last reply was about that
lease.
-/

namespace Etcdv3Client

open Transition

section
variable {B : BackOffStrategy}

/-! ## What was asked, answered and sent -/

def Request.isRevoke : Request → Bool
  | .leaseRevoke _ => true
  | _ => false

/-- The id in the last reply. -/
def lastReplyId (h : History (State B) Label) : Option Int := (labels h).findSome? replyId

/-- The id of the lease the session was granted last. -/
def lastGrantedId (h : History (State B) Label) : Option Int := (grantedIds (labels h)).head?

/-- The options of the `Grant` that started the worker. -/
def startOptions : History (State B) Label → Option SessionOptions
  | [] => none
  | (s, .grant o) :: h => if startsWorker s (.grant o) then some o else startOptions h
  | _ :: h => startOptions h

/-- The revoke requests sent since the last other request. -/
def revokes (h : History (State B) Label) : List Request :=
  (sentRequests h).takeWhile Request.isRevoke

/-- After the last `LeaseGrant` and keep-alive request, a revoke request for
the granted lease was sent. -/
def RevokeAttempted (h : History (State B) Label) : Prop :=
  ∃ id ∈ lastGrantedId h, .leaseRevoke { id := id } ∈ revokes h

instance (h : History (State B) Label) : Decidable (RevokeAttempted h) :=
  inferInstanceAs (Decidable (∃ id ∈ lastGrantedId h, .leaseRevoke { id := id } ∈ revokes h))

theorem revokes_worker {h : History (State B) Label} {s : State B} {a : Answer} :
    revokes ((s, .worker a) :: h) =
      match s.request with
      | none => revokes h
      | some req => if req.isRevoke then req :: revokes h else [] := by
  unfold revokes
  rw [sentRequests]
  cases s.request with
  | none => rfl
  | some req => cases hreq : req.isRevoke <;> simp [hreq]

theorem replyId_isSome {l : Label} (h : (grantedId l).isSome = true) :
    (replyId l).isSome = true := by
  obtain ⟨id, hid⟩ := Option.isSome_iff_exists.mp h
  simp [replyId_of_grantedId hid]

theorem startOptions_frame {h : History (State B) Label} {s : State B} {l : Label}
    (hl : startsWorker s l = false) : startOptions ((s, l) :: h) = startOptions h := by
  cases l with
  | grant o => rw [startOptions, hl, if_neg (by simp)]
  | _ => rfl

/-! ## The worker's way to its end -/

/-- What is sent of the revoke phase at each counter, for a retry option
`n`. -/
def Pc.Tail (n : Int) (rs : List Request) : Pc B → Prop
  | .leaseRevoke _ _ _ => 0 ≤ n
  | .revokeSleep _ _ _ _ => 0 ≤ n ∧ rs ≠ []
  | .setClosed | .ended => 0 ≤ n ↔ rs ≠ []
  | _ => rs = []

theorem WorkerStep.options_revoke {s s' : Session} {w w' : Worker B} {a : Answer}
    (hw : WorkerStep s w a s' w') :
    w'.options.revokeMaxRetryTimes = w.options.revokeMaxRetryTimes := by
  cases hw <;> rfl

/-- The worker's step adds to the revoke requests as its counter says. -/
theorem WorkerStep.tail {h : History (State B) Label} {st : State B} {r : Session}
    {w w' : Worker B} {a : Answer} (hw : WorkerStep st.session w a r w')
    (ht : st.thread = .started w)
    (hi : w.pc.Tail w.options.revokeMaxRetryTimes (revokes h)) :
    w'.pc.Tail w.options.revokeMaxRetryTimes (revokes ((st, .worker a) :: h)) := by
  rw [revokes_worker, State.request, ht]
  cases hw with
  | loopClosed hle => exact not_lt.mp ((revokeBudget_pos _).mp hle)
  | loopClosedNoRevoke hgt =>
    exact iff_of_false (fun h0 => hgt ((revokeBudget_pos _).mpr (not_lt.mpr h0))) (not_not.mpr hi)
  | revoked => exact iff_of_true hi (by simp [Pc.request, Request.isRevoke])
  | revokeFailed => exact ⟨hi, by simp [Pc.request, Request.isRevoke]⟩
  | revokeAgain => exact hi.1
  | revokeSpent => exact iff_of_true hi.1 hi.2
  | setClosed => exact hi
  | _ => first | exact hi | rfl

/-- The revoke requests name `lease_`, as it still is. -/
theorem WorkerStep.revokes_lease {h : History (State B) Label} {st : State B} {r : Session}
    {w w' : Worker B} {a : Answer} {n : Int} (hw : WorkerStep st.session w a r w')
    (ht : st.thread = .started w) (hi : w.pc.Tail n (revokes h))
    (hids : ∀ req ∈ revokes h, req = .leaseRevoke { id := st.session.lease }) :
    ∀ req ∈ revokes ((st, .worker a) :: h), req = .leaseRevoke { id := r.lease } := by
  rw [revokes_worker, State.request, ht]
  cases hw with
  | reply =>
    have hnil : revokes h = [] := hi
    simp [Pc.request, hnil]
  | revoked =>
    intro req hreq
    simp only [Pc.request, Request.isRevoke, if_true, List.mem_cons] at hreq
    exact hreq.elim id (hids req)
  | revokeFailed =>
    intro req hreq
    simp only [Pc.request, Request.isRevoke, if_true, List.mem_cons] at hreq
    exact hreq.elim id (hids req)
  | grantOk => simp [Pc.request, Request.isRevoke]
  | grantError => simp [Pc.request, Request.isRevoke]
  | written => simp [Pc.request, Request.isRevoke]
  | writeFailed => simp [Pc.request, Request.isRevoke]
  | _ => exact hids

/-- The replies and requests of a reachable state. -/
structure RevokePhase (h : History (State B) Label) (s : State B) : Prop where
  lease : ∀ id, lastReplyId h = some id → s.session.lease = id
  ids : ∀ req ∈ revokes h, req = .leaseRevoke { id := s.session.lease }
  waiting : s.thread = .none → revokes h = []
  started : ∀ w, s.thread = .started w → ∃ o, startOptions h = some o ∧
    w.options.revokeMaxRetryTimes = o.revokeMaxRetryTimes ∧
    w.pc.Tail o.revokeMaxRetryTimes (revokes h)
  joined : s.thread = .joined → ∃ o, startOptions h = some o ∧
    (0 ≤ o.revokeMaxRetryTimes ↔ revokes h ≠ [])

theorem revokePhase_init {s : State B} (h : Init s) : RevokePhase [] s := by
  obtain ⟨lease, leaseTtl, rfl⟩ := h
  refine ⟨fun id hid => ?_, fun req hreq => ?_, fun _ => rfl, fun w hw => ?_, fun hj => ?_⟩
  · simp [lastReplyId] at hid
  · cases hreq
  · simp [State.new] at hw
  · simp [State.new] at hj

theorem RevokePhase.worker {h : History (State B) Label} {s : State B} {r : Session}
    {w w' : Worker B} {a : Answer} (hi : RevokePhase h s) (ht : s.thread = .started w)
    (hw : WorkerStep s.session w a r w') :
    RevokePhase ((s, .worker a) :: h) { s with session := r, thread := .started w' } := by
  obtain ⟨o, ho, hopt, htail⟩ := hi.started w ht
  refine ⟨fun id hid => ?_, hw.revokes_lease ht htail hi.ids, by simp, fun w₁ hw₁ => ?_, by simp⟩
  · rcases hw.lease_cases with ⟨_, rsp, -, rfl, hlease⟩ | ⟨_, _, rsp, -, rfl, hlease⟩ |
      ⟨hlease, hno⟩
    · exact hlease.trans (Option.some.inj hid)
    · exact hlease.trans (Option.some.inj hid)
    · exact hlease.trans (hi.lease id (by simpa [lastReplyId, hno] using hid))
  · cases hw₁
    refine ⟨o, ho, hw.options_revoke.trans hopt, ?_⟩
    rw [← hopt] at htail ⊢
    exact hw.tail ht htail

/-- A step of the others sends nothing and receives nothing. -/
theorem revokes_frame {h : History (State B) Label} {s : State B} {l : Label}
    (hl : ∀ a, l ≠ .worker a) :
    revokes ((s, l) :: h) = revokes h ∧ lastReplyId ((s, l) :: h) = lastReplyId h := by
  refine ⟨by rw [revokes, sentRequests_frame hl, revokes], ?_⟩
  cases l with
  | worker a => exact absurd rfl (hl a)
  | _ => rfl

theorem RevokePhase.frame {h : History (State B) Label} {s s' : State B} {l : Label}
    (hi : RevokePhase h s) (hl : ∀ a, l ≠ .worker a) (hst : startsWorker s l = false)
    (hlease : s'.session.lease = s.session.lease) (hth : s'.thread = s.thread) :
    RevokePhase ((s, l) :: h) s' := by
  obtain ⟨hrev, hreply⟩ := revokes_frame (h := h) (s := s) hl
  have hopt := startOptions_frame (h := h) hst
  constructor
  · rw [hreply, hlease]
    exact hi.lease
  · rw [hrev, hlease]
    exact hi.ids
  · rw [hrev, hth]
    exact hi.waiting
  · rw [hrev, hth, hopt]
    exact hi.started
  · rw [hrev, hth, hopt]
    exact hi.joined

theorem revokePhase_step {h : History (State B) Label} {s s' : State B} {l : Label}
    (hinv : Inv s) (hi : RevokePhase h s) (hs : step s l = some s') :
    RevokePhase ((s, l) :: h) s' := by
  cases step_iff.mp hs with
  | worker ht _ hw => exact hi.worker ht hw
  | ctxDone => exact hi.frame (by simp) rfl rfl rfl
  | grantRefused _ hno =>
    refine hi.frame (by simp) ?_ rfl rfl
    rcases hno with hc | hg
    · simp [startsWorker, hc]
    · simp [startsWorker, hg]
  | close => exact hi.frame (by simp) rfl rfl rfl
  | closeFree => exact hi.frame (by simp) rfl rfl rfl
  | @grantOk o _ hc hg =>
    obtain ⟨hrev, hreply⟩ := revokes_frame (h := h) (s := s) (l := .grant o) (by simp)
    have hnil : revokes ((s, .grant o) :: h) = [] := by
      rw [hrev, hi.waiting (hinv.thread_none hg)]
    have hopt : startOptions ((s, .grant o) :: h) = some o := by
      simp [startOptions, startsWorker, hc, hg]
    refine ⟨hreply ▸ hi.lease, by simp [hnil], by simp, fun w hw => ?_, by simp⟩
    cases hw
    exact ⟨o, hopt, rfl, hnil⟩
  | @closeJoined w _ ht he =>
    obtain ⟨hrev, hreply⟩ := revokes_frame (h := h) (s := s) (l := .closeReturn) (by simp)
    refine ⟨hreply ▸ hi.lease, hrev ▸ hi.ids, by simp, by simp, fun _ => ?_⟩
    obtain ⟨o, ho, -, htail⟩ := hi.started w ht
    obtain ⟨_, pc⟩ := w
    cases pc with
    | ended => exact ⟨o, ho, hrev ▸ htail⟩
    | _ => cases he

theorem revokePhase_run {h : History (State B) Label} {s : State B} (hr : SRun h s) :
    RevokePhase h s :=
  hr.inv (fun _ => revokePhase_init) fun hr' hi hs => revokePhase_step (inv_run hr') hi hs

theorem RevokePhase.of_ended {h : History (State B) Label} {s : State B}
    (hi : RevokePhase h s) (hend : s.thread.hasEnded = true) :
    ∃ o, startOptions h = some o ∧ (0 ≤ o.revokeMaxRetryTimes ↔ revokes h ≠ []) := by
  cases ht : s.thread with
  | none => simp [ht, Thread.hasEnded] at hend
  | joined => exact hi.joined ht
  | started w =>
    rw [ht] at hend
    obtain ⟨o, ho, -, htail⟩ := hi.started w ht
    obtain ⟨_, pc⟩ := w
    cases pc with
    | ended => exact ⟨o, ho, htail⟩
    | _ => cases hend

/-! ## Replies that echo -/

/-- A step without a reply changes none of what the replies said. -/
theorem reply_none {h : History (State B) Label} {s : State B} {l : Label}
    (hl : replyId l = none) :
    anyGrant ((s, l) :: h) = anyGrant h ∧ lastReplyId ((s, l) :: h) = lastReplyId h ∧
      lastGrantedId ((s, l) :: h) = lastGrantedId h := by
  have hg := grantedId_of_replyId hl
  refine ⟨by simp [anyGrant, grantSucceeds_eq, hg], by simp [lastReplyId, hl], ?_⟩
  simp [lastGrantedId, grantedIds, hg]

/-- Keep-alive replies that echo the id of their request are about the lease
granted last. -/
theorem lastReply_of_echoes {h : History (State B) Label} {s : State B} (hr : SRun h s)
    (he : Along EchoesId h) (hg : anyGrant h = true) : lastReplyId h = lastGrantedId h := by
  induction hr with
  | start => cases hg
  | @next h s s' l hr hs ih =>
    have hno : replyId l = none → lastReplyId ((s, l) :: h) = lastGrantedId ((s, l) :: h) := by
      intro hl
      obtain ⟨hany, hlast, hgranted⟩ := reply_none (h := h) (s := s) hl
      rw [hlast, hgranted]
      exact ih he.1 (hany ▸ hg)
    rcases step_cases (inv_run hr) hs with ⟨a, w, r, w', rfl, ht, -, hw, rfl⟩ | ⟨hl, -⟩
    · rcases hw.lease_cases with ⟨_, rsp, -, rfl, -⟩ | ⟨req, b, rsp, hpc, rfl, -⟩ | ⟨-, hl⟩
      · rfl
      · obtain ⟨o, pc⟩ := w
        cases hpc
        have hany := anyGrant_of_keepingAlive hr ht rfl
        obtain ⟨id, hid⟩ : ∃ id, lastReplyId h = some id :=
          findSome_of_granted (fun _ => replyId_isSome) hany
        have hecho : rsp.id = id := by
          rw [he.2 o req b rsp ht rfl, reading_run hr _ req ht rfl,
            (revokePhase_run hr).lease id hid]
        calc lastReplyId ((s, .worker (.read (some rsp))) :: h) = some rsp.id := rfl
          _ = lastReplyId h := by rw [hecho, hid]
          _ = lastGrantedId h := ih he.1 hany
      · exact hno hl
    · refine hno ?_
      cases l with
      | worker a => exact absurd rfl (hl a)
      | _ => rfl

/-! ## Main result -/

/-- **A granted lease is revoked.** For every run in which a `LeaseGrant`
succeeded and whose worker has ended: after the last `LeaseGrant` and
keep-alive request a revoke request for the lease granted last was sent, if
and only if the retry option is not negative and the last reply, if it was
a keep-alive's, was about that lease. Where keep-alive replies echo the id
of their request, the option alone decides. -/
theorem revoke_attempted_iff {h : History (State B) Label} {s : State B} (hr : SRun h s)
    (hend : s.thread.hasEnded = true) (hg : anyGrant h = true) :
    (RevokeAttempted h ↔
      (∀ o ∈ startOptions h, 0 ≤ o.revokeMaxRetryTimes) ∧
        lastReplyId h = lastGrantedId h) ∧
    (Along EchoesId h →
      (RevokeAttempted h ↔ ∀ o ∈ startOptions h, 0 ≤ o.revokeMaxRetryTimes)) := by
  have hi := revokePhase_run hr
  obtain ⟨o, ho, hrev⟩ := hi.of_ended hend
  obtain ⟨last, hlast⟩ : ∃ id, lastReplyId h = some id :=
    findSome_of_granted (fun _ => replyId_isSome) hg
  have hlease : s.session.lease = last := hi.lease last hlast
  have hiff : RevokeAttempted h ↔ (∀ o ∈ startOptions h, 0 ≤ o.revokeMaxRetryTimes) ∧
      lastReplyId h = lastGrantedId h := by
    constructor
    · intro ⟨id, hid, hmem⟩
      refine ⟨fun o' ho' => ?_, ?_⟩
      · cases ho.symm.trans ho'
        exact hrev.mpr (List.ne_nil_of_mem hmem)
      · have hreq := hi.ids _ hmem
        simp only [Request.leaseRevoke.injEq, LeaseRevokeRequest.mk.injEq] at hreq
        rw [Option.mem_def.mp hid, hlast, ← hlease, hreq]
    · intro ⟨hopt, hsame⟩
      obtain ⟨req, hreq⟩ := List.exists_mem_of_ne_nil _ (hrev.mp (hopt o ho))
      refine ⟨last, hsame ▸ hlast, ?_⟩
      rw [← hlease, ← hi.ids req hreq]
      exact hreq
  exact ⟨hiff, fun he => hiff.trans (and_iff_left (lastReply_of_echoes hr he hg))⟩

/-- A session closed after its grant, its revoke answered, with a retry
option of `n`. -/
def revokeScript (n : Int) (revoked : List Label) : List Label :=
  announceScript (SessionOptions.new.withMaxRevokeRetry n) { id := 7, ttl := 60 } ++
    [.close, .worker (.finished true), .worker .flag, .worker .flag, .worker (.finished true)] ++
    revoked ++ [.worker .flag, .closeReturn]

/-- With the default option the lease is revoked. -/
theorem revoke_attempted_default :
    ∃ h s, exec step [] (State.new 5 0 : State .constant)
        (revokeScript 0 [.worker (.leaseRevoke .ok)]) = some (h, s) ∧
      s.thread.hasEnded = true ∧ anyGrant h = true ∧ RevokeAttempted h := by
  refine ⟨_, _, rfl, rfl, rfl, ?_⟩
  refine (revoke_attempted_iff (Run.exec (.start ⟨5, 0, rfl⟩)
    (rfl : exec step [] (State.new 5 0 : State .constant)
      (revokeScript 0 [.worker (.leaseRevoke .ok)]) = some (_, _))) rfl rfl).1.mpr ?_
  decide

/-- With the option -1 the worker ends without a revoke request. -/
theorem revoke_not_attempted :
    ∃ h s, exec step [] (State.new 5 0 : State .constant) (revokeScript (-1) []) = some (h, s) ∧
      s.thread.hasEnded = true ∧ anyGrant h = true ∧ lastGrantedId h = some 7 ∧
      ¬ RevokeAttempted h := by
  refine ⟨_, _, rfl, rfl, rfl, rfl, ?_⟩
  decide

end

end Etcdv3Client
