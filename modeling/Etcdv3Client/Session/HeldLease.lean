import Etcdv3Client.Session.Lifecycle

/-!
# The lease the worker holds

`lease_` and `lease_ttl_` come from replies, except that the constructor
sets neither. Two laws that a keeper of a lease should obey, each with the
exact condition under which this worker does: it writes no keep-alive
request on a lease that a reply gave a TTL of zero or less, and it names no
lease that was not granted to it.
-/

namespace Etcdv3Client

open Transition

section
variable {B : BackOffStrategy}

/-! ## What the replies said -/

/-- The id in a successful `LeaseGrant` reply. -/
def grantedId : Label → Option Int
  | .worker (.leaseGrant (.ok rsp)) => some rsp.id
  | _ => none

/-- The TTL in a `LeaseGrant` or `LeaseKeepAlive` reply. -/
def replyTtl : Label → Option Int
  | .worker (.leaseGrant (.ok rsp)) => some rsp.ttl
  | .worker (.read (some rsp)) => some rsp.ttl
  | _ => none

/-- The labels of a history, newest first. -/
abbrev labels (h : History (State B) Label) : List Label := h.map Prod.snd

/-- The ids granted so far. -/
def grantedIds (ls : List Label) : List Int := ls.filterMap grantedId

/-- The TTL in the last reply. -/
def lastTtl (ls : List Label) : Option Int := ls.findSome? replyTtl

/-- What the worker's last call or test answered. -/
def lastAnswer : List Label → Option Answer
  | [] => none
  | .worker a :: _ => some a
  | _ :: ls => lastAnswer ls

theorem grantSucceeds_eq (l : Label) : grantSucceeds l = (grantedId l).isSome := by
  cases l with
  | worker a =>
    cases a with
    | leaseGrant r => cases r <;> rfl
    | _ => rfl
  | _ => rfl

theorem replyTtl_of_grantedId {l : Label} (h : (grantedId l).isSome = true) :
    (replyTtl l).isSome = true := by
  unfold grantedId at h
  split at h
  · rfl
  · cases h

theorem grantedIds_ne_nil (h : History (State B) Label) :
    grantedIds (labels h) ≠ [] ↔ anyGrant h = true := by
  induction h with
  | nil => simp [grantedIds, anyGrant]
  | cons p h ih =>
    obtain ⟨s, l⟩ := p
    rw [anyGrant, grantSucceeds_eq]
    cases hg : grantedId l with
    | some id => simp [grantedIds, hg]
    | none => simpa [grantedIds, hg] using ih

/-- What every successful `LeaseGrant` reply carries, some reply of a run
with a success carried last. -/
theorem findSome_of_granted {α : Type} {f : Label → Option α}
    (hf : ∀ l, (grantedId l).isSome = true → (f l).isSome = true)
    {h : History (State B) Label} (hg : anyGrant h = true) :
    ∃ x, (labels h).findSome? f = some x := by
  induction h with
  | nil => simp [anyGrant] at hg
  | cons p h ih =>
    obtain ⟨s, l⟩ := p
    cases hr : f l with
    | some x => exact ⟨x, by simp [hr]⟩
    | none =>
      have hno : (grantedId l).isSome = false := by
        cases hid : (grantedId l).isSome with
        | false => rfl
        | true => simpa [hr] using hf l hid
      rw [anyGrant, grantSucceeds_eq, hno] at hg
      obtain ⟨x, hx⟩ := ih (by simpa using hg)
      exact ⟨x, by simpa [hr] using hx⟩

theorem lastTtl_of_granted {h : History (State B) Label} (hg : anyGrant h = true) :
    ∃ t, lastTtl (labels h) = some t :=
  findSome_of_granted (fun _ => replyTtl_of_grantedId) hg

/-- While the worker keeps a lease alive some grant has succeeded. -/
theorem anyGrant_of_keepingAlive {h : History (State B) Label} {s : State B} {w : Worker B}
    (hr : SRun h s) (ht : s.thread = .started w) (hk : w.pc.keepingAlive = true) :
    anyGrant h = true := by
  have hann := announced_run hr
  have hp := hann.pc w ht
  refine hann.any ?_
  obtain ⟨o, pc⟩ := w
  cases pc <;> first | exact hp rfl | exact Bool.noConfusion hk

/-- The steps of the callers and of the context carry no reply. -/
theorem reply_frame {h : History (State B) Label} {s : State B} {l : Label}
    (hl : ∀ a, l ≠ .worker a) :
    grantedIds (labels ((s, l) :: h)) = grantedIds (labels h) ∧
      lastTtl (labels ((s, l) :: h)) = lastTtl (labels h) ∧
      lastAnswer (labels ((s, l) :: h)) = lastAnswer (labels h) := by
  cases l with
  | worker a => exact absurd rfl (hl a)
  | _ => exact ⟨rfl, rfl, rfl⟩

/-! ## What the worker is about to send -/

theorem request_keepAlive_iff {s : State B} {req : LeaseKeepAliveRequest} :
    s.request = some (.leaseKeepAlive req) ↔
      ∃ o b, s.thread = .started ⟨o, .write b⟩ ∧ req = { id := s.session.lease } := by
  constructor
  · intro h
    unfold State.request at h
    split at h
    · rename_i w ht
      obtain ⟨o, pc⟩ := w
      cases pc <;> simp [Pc.request] at h
      exact ⟨o, _, ht, h.symm⟩
    · cases h
  · intro ⟨o, b, ht, hreq⟩
    simp [State.request, ht, Pc.request, hreq]

theorem request_revoke_iff {s : State B} {req : LeaseRevokeRequest} :
    s.request = some (.leaseRevoke req) ↔
      ∃ o m n b, s.thread = .started ⟨o, .leaseRevoke m n b⟩ ∧
        req = { id := s.session.lease } := by
  constructor
  · intro h
    unfold State.request at h
    split at h
    · rename_i w ht
      obtain ⟨o, pc⟩ := w
      cases pc <;> simp [Pc.request, Client.leaseRevokeRequest] at h
      exact ⟨o, _, _, _, ht, h.symm⟩
    · cases h
  · intro ⟨o, m, n, b, ht, hreq⟩
    simp [State.request, ht, Pc.request, hreq, Client.leaseRevokeRequest]

theorem WorkerStep.enters_write {s s' : Session} {w w' : Worker B} {a : Answer} {b : B.State}
    (hw : WorkerStep s w a s' w') (hpc : w'.pc = .write b) : a = .wait false := by
  cases hw with
  | keepAliveWaitOver => rfl
  | _ => cases hpc

/-! ## Keep-alive on an expired lease -/

/-- `LeaseGrant` replies carry a positive TTL. -/
def GrantsPositive (_ : History (State B) Label) (_ : State B) (l : Label) : Prop :=
  ∀ rsp, l = .worker (.leaseGrant (.ok rsp)) → 0 < rsp.ttl

/-- Where the worker is about to write a keep-alive request with `alive_`
set, the last reply it received has a positive TTL. -/
def WritesOnLiveLease (h : History (State B) Label) (s : State B) : Prop :=
  ∀ req, s.request = some (.leaseKeepAlive req) → s.session.alive = true →
    ∃ t, lastTtl (labels h) = some t ∧ 0 < t

/-- A wait that runs out right after a keep-alive reply runs out after one
with a positive TTL. -/
def ExpiryEndsWait (h : History (State B) Label) (_ : State B) (l : Label) : Prop :=
  l = .worker (.wait false) →
    ∀ rsp, lastAnswer (labels h) = some (.read (some rsp)) → 0 < rsp.ttl

/-- After a keep-alive reply the worker is at the wait of the inner loop;
where the last reply has no positive TTL it still is, or the close event is
finished. -/
structure HeldTtl (h : History (State B) Label) (s : State B) : Prop where
  waits : ∀ rsp, lastAnswer (labels h) = some (.read (some rsp)) →
    lastTtl (labels h) = some rsp.ttl ∧
      ∃ o d b, s.thread = .started ⟨o, .keepAliveWait d b⟩
  heeded : ∀ t, lastTtl (labels h) = some t → t ≤ 0 →
    s.finished = true ∨ ∃ rsp, lastAnswer (labels h) = some (.read (some rsp))

theorem heldTtl_step {h : History (State B) Label} {s s' : State B} {l : Label}
    (hinv : Inv s) (hi : HeldTtl h s) (hpos : GrantsPositive h s l) (hends : ExpiryEndsWait h s l)
    (hs : step s l = some s') : HeldTtl ((s, l) :: h) s' := by
  have hfin : s.finished = true → s'.finished = true := fun hf => finished_step hf hs
  rcases step_cases hinv hs with ⟨a, w, r, w', rfl, ht, ha, hw, rfl⟩ | ⟨hl, hframe⟩
  · constructor
    · intro rsp hlast
      cases (Option.some.inj hlast : a = _)
      cases hw
      exact ⟨rfl, _, _, _, rfl⟩
    · intro t hlast ht0
      cases hr : replyTtl (.worker a) with
      | some t' =>
        have htt : t' = t := by simpa [lastTtl, hr] using hlast
        unfold replyTtl at hr
        split at hr
        · rename_i rsp hl
          have hgrant := hpos rsp hl
          have httl := Option.some.inj hr
          omega
        · rename_i rsp hl
          cases hl
          exact Or.inr ⟨rsp, rfl⟩
        · cases hr
      | none =>
        have hlast' : lastTtl (labels h) = some t := by simpa [lastTtl, hr] using hlast
        rcases hi.heeded t hlast' ht0 with hf | ⟨rsp, hrsp⟩
        · exact Or.inl (hfin hf)
        · obtain ⟨httl, o, d, b, hth⟩ := hi.waits rsp hrsp
          cases ht.symm.trans hth
          cases hw with
          | keepAliveWaitClosed => exact Or.inl (hfin (by simpa [Answer.agrees] using ha))
          | keepAliveWaitOver =>
            have hpos' := hends rfl rsp hrsp
            have htt := Option.some.inj (httl.symm.trans hlast')
            omega
  · obtain ⟨-, h2, h3⟩ := reply_frame (h := h) (s := s) hl
    constructor
    · intro rsp hlast
      rw [h3] at hlast
      obtain ⟨httl, o, d, b, hth⟩ := hi.waits rsp hlast
      exact ⟨h2.trans httl, o, d, b, hframe.forth _ hth rfl⟩
    · intro t hlast ht0
      rw [h2] at hlast
      rw [h3]
      exact (hi.heeded t hlast ht0).imp hfin id

/-- One step: the worker comes to `Write` where a wait runs out. -/
theorem writesOnLiveLease_step {h : History (State B) Label} {s s' : State B} {l : Label}
    (hr : SRun h s) (hi : HeldTtl h s) (hp : WritesOnLiveLease h s)
    (hs : step s l = some s') :
    WritesOnLiveLease ((s, l) :: h) s' ↔ ExpiryEndsWait h s l := by
  have hinv := inv_run hr
  rcases step_cases hinv hs with ⟨a, w, r, w', rfl, ht, ha, hw, rfl⟩ | ⟨hl, hframe⟩
  · by_cases hover : a = .wait false
    · subst hover
      have hopen : s.finished = false := by simpa [Answer.agrees] using ha
      cases hw with
      | grantWaitOver =>
        refine iff_of_true (fun req hreq => ?_) (fun _ rsp hlast => ?_)
        · obtain ⟨o, b, hth, -⟩ := request_keepAlive_iff.mp hreq
          cases hth
        · obtain ⟨-, o, d, b, hth⟩ := hi.waits rsp hlast
          cases ht.symm.trans hth
      | @keepAliveWaitOver o d b =>
        constructor
        · intro hlive _ rsp hlast
          obtain ⟨httl, -⟩ := hi.waits rsp hlast
          have halive : s.session.alive = true := by
            rw [hinv.alive, ht]
            rfl
          obtain ⟨t, hlast', hpos⟩ := hlive _ (request_keepAlive_iff.mpr ⟨o, b, rfl, rfl⟩) halive
          cases hlast'.symm.trans httl
          exact hpos
        · intro hends req _ _
          obtain ⟨t, hlast⟩ := lastTtl_of_granted (anyGrant_of_keepingAlive hr ht rfl)
          refine ⟨t, hlast, ?_⟩
          by_contra hneg
          rcases hi.heeded t hlast (by omega) with hf | ⟨rsp, hrsp⟩
          · simp [hopen] at hf
          · have hpos := hends rfl rsp hrsp
            have htt := Option.some.inj (hlast.symm.trans (hi.waits rsp hrsp).1)
            omega
    · refine iff_of_true (fun req hreq => ?_) (fun hl => ?_)
      · obtain ⟨o, b, hth, -⟩ := request_keepAlive_iff.mp hreq
        exact absurd (hw.enters_write (congrArg Worker.pc (Thread.started.inj hth))) hover
      · cases hl
        exact absurd rfl hover
  · obtain ⟨-, h2, -⟩ := reply_frame (h := h) (s := s) hl
    refine iff_of_true (fun req hreq halive => ?_) (fun h' => absurd h' (hl _))
    obtain ⟨o, b, hth, hid⟩ := request_keepAlive_iff.mp hreq
    rw [h2]
    rcases hframe.back _ hth with hth' | hloop
    · exact hp req (request_keepAlive_iff.mpr ⟨o, b, hth', hframe.lease ▸ hid⟩)
        (hframe.alive ▸ halive)
    · cases hloop

/-- **Keep-alive only on a live lease.** In a run whose `LeaseGrant` replies
carry positive TTLs, the worker never writes a keep-alive request with
`alive_` set after a reply with a TTL of zero or less, if and only if no
such reply is followed by a wait that runs out: only the close event stops
this worker, the reply itself does not. -/
theorem writes_on_live_lease_iff {h : History (State B) Label} {s : State B} (hr : SRun h s)
    (hg : Along GrantsPositive h) :
    Throughout WritesOnLiveLease h s ↔ Along ExpiryEndsWait h := by
  refine Run.throughout_iff (J := HeldTtl) (fun s hs => ?_)
    (fun hr' hj hd hc hs => heldTtl_step (inv_run hr') hj hd hc hs)
    (fun hr' hj hp _ hs => writesOnLiveLease_step hr' hj hp hs) hr hg
  obtain ⟨lease, leaseTtl, rfl⟩ := hs
  exact ⟨fun req hreq => by simp [State.request, State.new] at hreq,
    ⟨by simp [lastAnswer], by simp [lastTtl]⟩⟩

/-- A lease of 60 seconds, one keep-alive reply with a TTL of `ttl`, and a
wait that runs out. -/
def renewScript (ttl : Int) : List Label :=
  announceScript .new { id := 7, ttl := 60 } ++ openScript ++
    [.worker (.write true), .worker (.read (some { id := 7, ttl := ttl })),
      .worker (.wait false)]

/-- The lease is renewed, and the next request is written. -/
theorem writes_on_live_lease_renewed :
    ∃ h s, exec step [] (State.new 5 0 : State .constant) (renewScript 60) = some (h, s) ∧
      s.request = some (.leaseKeepAlive { id := 7 }) ∧ Throughout WritesOnLiveLease h s := by
  refine ⟨_, _, rfl, rfl, ?_⟩
  refine (writes_on_live_lease_iff (Run.exec (.start ⟨5, 0, rfl⟩)
    (rfl : exec step [] (State.new 5 0 : State .constant) (renewScript 60)
      = some (_, _))) ?_).mpr ?_
  · simp [Along, GrantsPositive]
  · simp [Along, ExpiryEndsWait, lastAnswer]

/-- The server answers with TTL 0, and the next request is written all the
same, with `alive_` set. -/
theorem writes_after_expiry :
    ∃ h s, exec step [] (State.new 5 0 : State .constant) (renewScript 0) = some (h, s) ∧
      Along GrantsPositive h ∧ ¬ WritesOnLiveLease h s := by
  refine ⟨_, _, rfl, by simp [Along, GrantsPositive], fun hlive => ?_⟩
  obtain ⟨t, hlast, hpos⟩ := hlive _ rfl rfl
  have h0 : (0 : Int) = t := Option.some.inj hlast
  omega

/-! ## Requests on the worker's own lease -/

/-- Keep-alive replies echo the id of their request. -/
def EchoesId (_ : History (State B) Label) (s : State B) (l : Label) : Prop :=
  ∀ o req b rsp, s.thread = .started ⟨o, .read req b⟩ → l = .worker (.read (some rsp)) →
    rsp.id = req.id

/-- A keep-alive or revoke request about to be sent names a lease granted
earlier in the run. -/
def NamesOwnLease (h : History (State B) Label) (s : State B) : Prop :=
  (∀ req, s.request = some (.leaseKeepAlive req) → req.id ∈ grantedIds (labels h)) ∧
  (∀ req, s.request = some (.leaseRevoke req) → req.id ∈ grantedIds (labels h))

/-- Where the worker turns to `TryRevoke`, a `LeaseGrant` has succeeded, or
the options allow no revoke request. -/
def RevokesGranted (h : History (State B) Label) (s : State B) (l : Label) : Prop :=
  ∀ o, s.thread = .started ⟨o, .loop⟩ → l = .worker (.finished true) →
    grantedIds (labels h) ≠ [] ∨ o.revokeMaxRetryTimes < 0

/-- The request whose reply the worker reads. -/
def Pc.reading : Pc B → Option LeaseKeepAliveRequest
  | .read req _ => some req
  | _ => none

/-- A reply is awaited only after its request was written, with the id that
`lease_` held. -/
theorem WorkerStep.reading {s s' : Session} {w w' : Worker B} {a : Answer}
    (hw : WorkerStep s w a s' w') :
    ∀ req, w'.pc.reading = some req → req.id = s'.lease := by
  intro req hreq
  cases hw with
  | written =>
    cases hreq
    rfl
  | _ => cases hreq

theorem reading_run {h : History (State B) Label} {s : State B} (hr : SRun h s) :
    ∀ w req, s.thread = .started w → w.pc.reading = some req → req.id = s.session.lease := by
  induction hr with
  | start hs =>
    exact fun w req hw => absurd hw (hs.not_started w)
  | next hr hs ih =>
    intro w₁ req hw₁ hreq
    rcases step_cases (inv_run hr) hs with ⟨a, w, r, w', rfl, -, -, hw, rfl⟩ | ⟨-, hframe⟩
    · cases hw₁
      exact hw.reading req hreq
    · rw [hframe.lease]
      rcases hframe.back w₁ hw₁ with hw₀ | hloop
      · exact ih w₁ req hw₀ hreq
      · simp [hloop, Pc.reading] at hreq

/-- The counters of `TryRevoke`. -/
def Pc.revoking : Pc B → Bool
  | .leaseRevoke _ _ _ | .revokeSleep _ _ _ _ => true
  | _ => false

theorem revokeBudget_pos (o : SessionOptions) :
    1 ≤ revokeBudget o ↔ ¬ o.revokeMaxRetryTimes < 0 := by
  unfold revokeBudget revokeDefaultMaxRetryTimes
  split <;> omega

/-- The lease member against the grants of the history. -/
structure HeldLease (h : History (State B) Label) (s : State B) : Prop where
  lease : grantedIds (labels h) ≠ [] → s.session.lease ∈ grantedIds (labels h)
  written : ∀ w req, s.thread = .started w → w.pc.reading = some req → req.id = s.session.lease
  revokes : ∀ w, s.thread = .started w → w.pc.revoking = true → grantedIds (labels h) ≠ []

theorem heldLease_step {h : History (State B) Label} {s s' : State B} {l : Label}
    (hinv : Inv s) (hi : HeldLease h s) (hecho : EchoesId h s l) (hc : RevokesGranted h s l)
    (hs : step s l = some s') : HeldLease ((s, l) :: h) s' := by
  rcases step_cases hinv hs with ⟨a, w, r, w', rfl, ht, ha, hw, rfl⟩ | ⟨hl, hframe⟩
  · refine ⟨?_, ?_, ?_⟩
    · cases hw with
      | grantOk => exact fun _ => List.mem_cons_self
      | @reply o req b rsp =>
        have hid : rsp.id = s.session.lease :=
          (hecho o req b rsp ht rfl).trans (hi.written _ req ht rfl)
        intro hne
        have hmem := hi.lease hne
        rw [← hid] at hmem
        exact hmem
      | _ => exact hi.lease
    · intro w₁ req hw₁ hreq
      cases hw₁
      exact hw.reading req hreq
    · intro w₁ hw₁ hrev
      cases hw₁
      cases hw with
      | @loopClosed o hle =>
        rcases hc o ht rfl with hgr | hneg
        · exact hgr
        · exact absurd hneg ((revokeBudget_pos o).mp hle)
      | revokeFailed => exact hi.revokes _ ht rfl
      | revokeAgain => exact hi.revokes _ ht rfl
      | _ => exact Bool.noConfusion hrev
  · obtain ⟨h1, -, -⟩ := reply_frame (h := h) (s := s) hl
    refine ⟨?_, fun w req hw hreq => ?_, fun w hw hrev => ?_⟩
    · rw [h1, hframe.lease]
      exact hi.lease
    · rw [hframe.lease]
      rcases hframe.back w hw with hw' | hloop
      · exact hi.written w req hw' hreq
      · simp [hloop, Pc.reading] at hreq
    · rw [h1]
      rcases hframe.back w hw with hw' | hloop
      · exact hi.revokes w hw' hrev
      · simp [hloop, Pc.revoking] at hrev

/-- The invariant gives the law. -/
theorem HeldLease.names {h : History (State B) Label} {s : State B} (hr : SRun h s)
    (hi : HeldLease h s) : NamesOwnLease h s := by
  constructor
  · intro req hreq
    obtain ⟨o, b, ht, rfl⟩ := request_keepAlive_iff.mp hreq
    exact hi.lease ((grantedIds_ne_nil h).mpr (anyGrant_of_keepingAlive hr ht rfl))
  · intro req hreq
    obtain ⟨o, m, n, b, ht, rfl⟩ := request_revoke_iff.mp hreq
    exact hi.lease (hi.revokes _ ht rfl)

/-- Where the law holds after a step, the step did not turn to `TryRevoke`
without a grant. -/
theorem revokesGranted_of_names {h : History (State B) Label} {s s' : State B} {l : Label}
    (hs : step s l = some s') (hn : NamesOwnLease ((s, l) :: h) s') : RevokesGranted h s l := by
  intro o ht hl
  subst hl
  by_contra hnot
  obtain ⟨hnil, hnonneg⟩ := not_or.mp hnot
  cases step_iff.mp hs with
  | worker ht' ha hw =>
    cases ht.symm.trans ht'
    cases hw with
    | @loopClosed o hle =>
      have hmem := hn.2 { id := s.session.lease } (request_revoke_iff.mpr ⟨o, _, _, _, rfl, rfl⟩)
      have hnil' : grantedIds (labels h) = [] := not_not.mp hnil
      exact absurd (hnil' ▸ hmem : s.session.lease ∈ []) (List.not_mem_nil)
    | loopClosedNoRevoke hgt => exact hgt ((revokeBudget_pos _).mpr hnonneg)

/-- **Only its own lease.** In a run whose keep-alive replies echo the id
they answer, every keep-alive and revoke request names a lease granted
earlier in the run, if and only if the worker never turns to `TryRevoke`
before its first grant with options that let it send a revoke request. -/
theorem names_own_lease_iff {h : History (State B) Label} {s : State B} (hr : SRun h s)
    (he : Along EchoesId h) :
    Throughout NamesOwnLease h s ↔ Along RevokesGranted h := by
  refine Run.throughout_iff (J := HeldLease) (fun s hs => ?_)
    (fun hr' hj hd hc hs => heldLease_step (inv_run hr') hj hd hc hs)
    (fun hr' hj _ hd hs => ⟨fun hp => revokesGranted_of_names hs hp, fun hc =>
      (heldLease_step (inv_run hr') hj hd hc hs).names (hr'.next hs)⟩) hr he
  have hj : HeldLease [] s :=
    ⟨fun hne => absurd rfl hne, fun w req hw => absurd hw (hs.not_started w),
      fun w hw => absurd hw (hs.not_started w)⟩
  exact ⟨hj.names (.start hs), hj⟩

/-- A session that is closed after its grant, up to the revoke. -/
def closeScript : List Label :=
  announceScript .new { id := 7, ttl := 60 } ++
    [.close, .worker (.finished true), .worker .flag, .worker .flag, .worker (.finished true)]

/-- It revokes the lease granted. -/
theorem names_own_lease_revoked :
    ∃ h s, exec step [] (State.new 5 0 : State .constant) closeScript = some (h, s) ∧
      s.request = some (.leaseRevoke { id := 7 }) ∧ Throughout NamesOwnLease h s := by
  refine ⟨_, _, rfl, rfl, ?_⟩
  refine (names_own_lease_iff (Run.exec (.start ⟨5, 0, rfl⟩)
    (rfl : exec step [] (State.new 5 0 : State .constant) closeScript
      = some (_, _))) ?_).mpr ?_
  · simp [Along, EchoesId]
  · simp [Along, RevokesGranted, grantedIds, grantedId, labels]

/-- Closed before any grant, the worker revokes the lease whose id the
memory of `lease_` held, here 5. -/
theorem revokes_foreign_lease :
    ∃ h s, exec step [] (State.new 5 0 : State .constant)
        [.grant .new, .close, .worker (.finished true)] = some (h, s) ∧
      Along EchoesId h ∧ s.request = some (.leaseRevoke { id := 5 }) ∧ ¬ NamesOwnLease h s := by
  refine ⟨_, _, rfl, by simp [Along, EchoesId], rfl, fun hn => ?_⟩
  exact absurd (hn.2 _ rfl) (List.not_mem_nil)

end

end Etcdv3Client
