import Etcdv3Client.Session.GrantRetry

/-!
# The session's leases at the server

What the lease server has of a session, in every run of the two: while the
session says that it is alive its lease exists, or has expired since the
server created it; and once the worker has ended, the leases left are those
whose replies were lost, and the session's own where no revoke of it was
acknowledged.
-/

namespace Etcdv3Client

open Transition

/-- A lease is gone once the server has handled its revoke. -/
theorem Leases.not_mem_revoke (v : Leases) (id : Int) : id ∉ (v.revoke { id := id }).2.own := by
  unfold Leases.revoke
  split
  · simp [Leases.drop]
  · rename_i hno
    simp only [Leases.has, Bool.or_eq_true, List.contains_iff_mem, not_or] at hno
    exact hno.1

section
variable {B : BackOffStrategy}

/-! ## The leases that have expired -/

/-- The ids that expired, without those created for the session again. -/
def expired : History (Net B) NetLabel → List Int
  | [] => []
  | (_, .expire id) :: h => id :: expired h
  | (n, .serve chosen ttl) :: h =>
      match n.session.request with
      | some (.leaseGrant req) =>
          match n.leases.grant req chosen ttl with
          | some (.ok rsp, _) => (expired h).filter (· != rsp.id)
          | _ => expired h
      | _ => expired h
  | _ :: h => expired h

/-- A lease that was created for the session exists, or has expired. -/
def Accounted (h : History (Net B) NetLabel) (n : Net B) (id : Int) : Prop :=
  id ∈ n.leases.own ∨ id ∈ expired h

/-- Only the session's own revoke ends a lease otherwise. -/
theorem Accounted.step {h : History (Net B) NetLabel} {n n' : Net B} {l : NetLabel} {id : Int}
    (ha : Accounted h n id) (hs : netStep n l = some n')
    (hno : ∀ req, n.session.request ≠ some (.leaseRevoke req)) : Accounted ((n, l) :: h) n' id := by
  cases netStep_cases hs with
  | party => exact ha
  | @serveGrant chosen ttl req r v _ hreq hg =>
    rcases Leases.grant_cases hg with ⟨-, rfl, rfl⟩ | ⟨id', -, -, -, rfl, rfl⟩
    · simpa [Accounted, expired, hreq, hg] using ha
    · by_cases hsame : id = id'
      · exact Or.inl (by simp [hsame])
      · simpa [Accounted, expired, hreq, hg, hsame] using ha
  | serveRevoke _ hreq => exact absurd hreq (hno _)
  | @expire id' =>
    by_cases hsame : id = id'
    · exact Or.inr (by simp [expired, hsame])
    · simpa [Accounted, expired, Leases.drop, hsame] using ha
  | other hv =>
    unfold Accounted
    rw [Leases.own_addOther hv]
    exact ha

/-! ## The reply under way -/

/-- A reply under way answers the call that the worker is in, and says what
the server did. -/
structure Replying (h : History (Net B) NetLabel) (n : Net B) : Prop where
  grant : ∀ r, n.reply = some (.leaseGrant r) → ∃ w b, n.session.thread = .started w ∧
    w.pc = .leaseGrant b ∧ ∀ rsp, r = .ok rsp →
      rsp.id ≠ 0 ∧ (w.options.lease ≠ 0 → rsp.id = w.options.lease) ∧ Accounted h n rsp.id
  revoke : ∀ code, n.reply = some (.leaseRevoke code) → ∃ w m i b,
    n.session.thread = .started w ∧ w.pc = .leaseRevoke m i b ∧
      n.session.session.lease ∉ n.leases.own

/-- A step of the worker takes the reply, if there is one. -/
theorem Replying.taken {h : History (Net B) NetLabel} {n : Net B} (hi : Replying h n)
    {r : Session} {w w' : Worker B} {a : Answer} (ht : n.session.thread = .started w)
    (hw : WorkerStep n.session.session w a r w') :
    (if (Label.worker a).endsCall then none else n.reply) = none := by
  split
  · rfl
  · rename_i hends
    rcases hrep : n.reply with _ | r | code
    · rfl
    · obtain ⟨w₀, b, ht₀, hpc, -⟩ := hi.grant r hrep
      cases ht.symm.trans ht₀
      obtain ⟨o, pc⟩ := w
      cases hpc
      cases hw <;> exact absurd rfl hends
    · obtain ⟨w₀, m, i, b, ht₀, hpc, -⟩ := hi.revoke code hrep
      cases ht.symm.trans ht₀
      obtain ⟨o, pc⟩ := w
      cases hpc
      cases hw <;> exact absurd rfl hends

/-- While a grant is under way no revoke is. -/
theorem request_of_leaseGrant {s : State B} {w : Worker B} {b : B.State}
    (ht : s.thread = .started w) (hpc : w.pc = .leaseGrant b) (req : LeaseRevokeRequest) :
    s.request ≠ some (.leaseRevoke req) := by
  intro hreq
  obtain ⟨w₀, _, _, _, ht₀, hpc₀⟩ := request_leaseRevoke hreq
  cases ht.symm.trans ht₀
  rw [hpc] at hpc₀
  cases hpc₀

/-- A reply waits through the steps of the others. -/
theorem Replying.frame {h : History (Net B) NetLabel} {n n' : Net B} {l : NetLabel}
    (hi : Replying h n) (hs : netStep n l = some n') (hreply : n'.reply = n.reply)
    (hforth : ∀ w, n.session.thread = .started w → w.pc.isEnded = false →
      n'.session.thread = .started w)
    (hlease : n'.session.session.lease = n.session.session.lease)
    (hown : n'.leases.own ⊆ n.leases.own) : Replying ((n, l) :: h) n' := by
  constructor
  · intro r hrep
    obtain ⟨w, b, ht, hpc, hok⟩ := hi.grant r (hreply.symm.trans hrep)
    refine ⟨w, b, hforth w ht (by rw [hpc]; rfl), hpc, fun rsp hrsp => ?_⟩
    obtain ⟨hne, hsame, ha⟩ := hok rsp hrsp
    exact ⟨hne, hsame, ha.step hs (request_of_leaseGrant ht hpc)⟩
  · intro code hrep
    obtain ⟨w, m, i, b, ht, hpc, hno⟩ := hi.revoke code (hreply.symm.trans hrep)
    refine ⟨w, m, i, b, hforth w ht (by rw [hpc]; rfl), hpc, ?_⟩
    rw [hlease]
    exact fun hmem => hno (hown hmem)

theorem replying_step {h : History (Net B) NetLabel} {n n' : Net B} {l : NetLabel}
    (hr : NetRun h n) (hi : Replying h n) (hs : netStep n l = some n') :
    Replying ((n, l) :: h) n' := by
  cases netStep_cases hs with
  | @party l s hd hs' =>
    have hinv := inv_run hr.session
    rcases step_cases hinv hs' with ⟨a, w, r, w', rfl, ht, -, hw, rfl⟩ | ⟨hl, hframe⟩
    · have hnone := hi.taken ht hw
      constructor
      · intro _ hrep
        cases hrep.symm.trans hnone
      · intro _ hrep
        cases hrep.symm.trans hnone
    · refine hi.frame hs ?_ hframe.forth hframe.lease (List.Subset.refl _)
      cases l with
      | worker a => exact absurd rfl (hl a)
      | _ => rfl
  | @serveGrant chosen ttl req r v _ hreq hg =>
    obtain ⟨w, b, ht, hpc, hlease⟩ := request_leaseGrant hreq
    constructor
    · intro r' hrep
      cases hrep
      refine ⟨w, b, ht, hpc, fun rsp hrsp => ?_⟩
      rcases Leases.grant_cases hg with ⟨-, herr, -⟩ | ⟨id, hne, -, hsame, hok, rfl⟩
      · rw [hrsp] at herr
        cases herr
      · cases hrsp.symm.trans hok
        exact ⟨hne, fun h0 => (hsame (by rwa [hlease])).trans hlease, Or.inl List.mem_cons_self⟩
    · intro _ hrep
      cases hrep
  | serveRevoke _ hreq =>
    obtain ⟨o, m, i, b, ht, rfl⟩ := request_revoke_iff.mp hreq
    constructor
    · intro _ hrep
      cases hrep
    · intro _ _
      exact ⟨_, m, i, b, ht, rfl, n.leases.not_mem_revoke _⟩
  | expire =>
    exact hi.frame hs rfl (fun _ ht _ => ht) rfl (Leases.own_drop_sublist _ _).subset
  | other hv =>
    refine hi.frame hs rfl (fun _ ht _ => ht) rfl ?_
    rw [Leases.own_addOther hv]
    exact List.Subset.refl _

theorem replying_run {h : History (Net B) NetLabel} {n : Net B} (hr : NetRun h n) :
    Replying h n := by
  refine hr.inv ?_ fun hr hi hs => replying_step hr hi hs
  intro n ⟨_, _, hreply⟩
  constructor <;> simp [hreply]

/-- **The server grants as asked**: what the session's own theorems assume
of the replies holds of those of the lease server. -/
theorem grantsAsAsked_run {h : History (Net B) NetLabel} {n : Net B} (hr : NetRun h n) :
    Along GrantsAsAsked (sessionHistory h) := by
  induction hr with
  | start _ => trivial
  | @next h n n' l hr hs ih =>
    cases netStep_cases hs with
    | @party l s hd hs' =>
      refine ⟨ih, ?_⟩
      intro req rsp hreq hl
      subst hl
      obtain ⟨w, b, ht, hpc, hlease⟩ := request_leaseGrant hreq
      obtain ⟨w₀, _, ht₀, -, hok⟩ := (replying_run hr).grant _ (reply_of_delivers hd)
      cases ht.symm.trans ht₀
      obtain ⟨hne, hsame, -⟩ := hok rsp rfl
      exact ⟨fun h0 => (hsame (by rwa [← hlease])).trans hlease.symm, hne⟩
    | _ => exact ih

/-- The answers of the server and the echoes make the session keep one id. -/
theorem NetRun.oneId {h : History (Net B) NetLabel} {n : Net B} (hr : NetRun h n)
    (he : Along EchoesId (sessionHistory h)) : OneId (sessionHistory h) n.session :=
  oneId_run hr.session (grantsAsAsked_run hr) he

/-! ## Where the session's leases come from -/

/-- A lease of the session has a lost reply, is the one it was granted
first, or is the one in the reply under way. -/
def OwnKnown (h : History (Net B) NetLabel) (n : Net B) : Prop :=
  ∀ id ∈ n.leases.own, id ∈ leaked h ∨ firstGrantedId (sessionHistory h) = some id ∨
    ∃ rsp, n.reply = some (.leaseGrant (.ok rsp)) ∧ rsp.id = id

theorem OwnKnown.worker {h : History (Net B) NetLabel} {n : Net B} {r : Session}
    {w w' : Worker B} {a : Answer} {id : Int} (hr : NetRun h n)
    (he : Along EchoesId (sessionHistory h)) (hi : OwnKnown h n)
    (ht : n.session.thread = .started w) (hw : WorkerStep n.session.session w a r w')
    (hd : ServerReply.delivers n.reply (.worker a) = true)
    (hg : GrantsAsAsked (sessionHistory h) n.session (.worker a)) (hid : id ∈ n.leases.own) :
    id ∈ leaked ((n, .party (.worker a)) :: h) ∨
      firstGrantedId ((n.session, .worker a) :: sessionHistory h) = some id := by
  rcases hi id hid with hleak | hfirst | ⟨rsp, hreply, rfl⟩
  · rcases leaked_worker h n a with hsame | ⟨rsp, code, -, -, hcons⟩
    · exact Or.inl (hsame ▸ hleak)
    · exact Or.inl (hcons ▸ List.mem_cons_of_mem _ hleak)
  · exact Or.inr (firstGrantedId_cons hfirst)
  · -- the call that the reply answers ends: it reaches the worker or is lost
    obtain ⟨w₀, b, ht₀, hpc, -⟩ := (replying_run hr).grant _ hreply
    cases ht.symm.trans ht₀
    cases hw with
    | @grantOk o b rsp' =>
      cases hreply.symm.trans (reply_of_delivers hd)
      exact Or.inr (oneId_grant (hr.oneId he) ht rfl hg).2
    | grantError => exact Or.inl (by simp [leaked, hreply])
    | _ => cases hpc

theorem ownKnown_step {h : History (Net B) NetLabel} {n n' : Net B} {l : NetLabel}
    (hr : NetRun h n) (he : Along EchoesId (sessionHistory h)) (hi : OwnKnown h n)
    (hs : netStep n l = some n') : OwnKnown ((n, l) :: h) n' := by
  have hgrants := grantsAsAsked_run (hr.next hs)
  cases netStep_cases hs with
  | @party l s hd hs' =>
    intro id hid
    rcases step_cases (inv_run hr.session) hs' with ⟨a, w, r, w', rfl, ht, -, hw, rfl⟩ | ⟨hl, -⟩
    · exact (OwnKnown.worker hr he hi ht hw hd hgrants.2 hid).imp_right Or.inl
    · have hnone : grantedId l = none := by
        cases l with
        | worker a => exact absurd rfl (hl a)
        | _ => rfl
      have hsame : (if l.endsCall then none else n.reply) = n.reply := by
        cases l with
        | worker a => exact absurd rfl (hl a)
        | _ => rfl
      rw [leaked_frame hl, show sessionHistory ((n, .party l) :: h)
        = (n.session, l) :: sessionHistory h from rfl, firstGrantedId_frame hnone, hsame]
      exact hi id hid
  | @serveGrant chosen ttl req r v hreply _ hg =>
    intro id hid
    have hold : id ∈ n.leases.own → id ∈ leaked h ∨
        firstGrantedId (sessionHistory h) = some id := by
      intro hid
      rcases hi id hid with hleak | hfirst | ⟨rsp, hrep, -⟩
      · exact Or.inl hleak
      · exact Or.inr hfirst
      · cases hreply.symm.trans hrep
    rcases Leases.grant_cases hg with ⟨-, rfl, rfl⟩ | ⟨id', -, -, -, rfl, rfl⟩
    · exact (hold hid).imp_right Or.inl
    · rcases List.mem_cons.mp hid with rfl | hid
      · exact Or.inr (Or.inr ⟨_, rfl, rfl⟩)
      · exact (hold hid).imp_right Or.inl
  | @serveRevoke chosen ttl req hreply _ =>
    intro id hid
    rcases hi id ((n.leases.own_revoke_sublist req).subset hid) with
      hleak | hfirst | ⟨rsp, hrep, -⟩
    · exact Or.inl hleak
    · exact Or.inr (Or.inl hfirst)
    · cases hreply.symm.trans hrep
  | expire => exact fun id hid => hi id ((Leases.own_drop_sublist _ _).subset hid)
  | other hv =>
    intro id hid
    rw [Leases.own_addOther hv] at hid
    exact hi id hid

/-! ## After the revoke -/

/-- A revoke of the session's lease was acknowledged, by `NOT_FOUND` too. -/
def RevokeAcked (h : History (Net B) NetLabel) : Prop :=
  ∃ n code, (n, NetLabel.party (.worker (.leaseRevoke code))) ∈ h ∧
    (code = .ok ∨ code = .notFound)

/-- After an acknowledged revoke the worker only sets `closed_`. -/
def Pc.pastRevoke : Pc B → Bool
  | .setClosed | .ended => true
  | _ => false

/-- The lease that was revoked stays away: nobody asks for it again. -/
structure Revoked (n : Net B) : Prop where
  away : n.session.session.lease ∉ n.leases.own
  thread : n.session.thread ≠ .none
  pc : ∀ w, n.session.thread = .started w → w.pc.pastRevoke = true

theorem revokeAcked_cons {h : History (Net B) NetLabel} {n : Net B} {l : NetLabel}
    (ha : RevokeAcked ((n, l) :: h)) :
    RevokeAcked h ∨ ∃ code, l = .party (.worker (.leaseRevoke code)) ∧
      (code = .ok ∨ code = .notFound) := by
  obtain ⟨m, code, hmem, hcode⟩ := ha
  rcases List.mem_cons.mp hmem with heq | hmem
  · cases heq
    exact Or.inr ⟨code, rfl, hcode⟩
  · exact Or.inl ⟨m, code, hmem, hcode⟩

theorem Revoked.step {h : History (Net B) NetLabel} {n n' : Net B} {l : NetLabel}
    (hr : NetRun h n) (hi : Revoked n) (hs : netStep n l = some n') : Revoked n' := by
  cases netStep_cases hs with
  | @party l s hd hs' =>
    have hinv := inv_run hr.session
    rcases step_cases hinv hs' with ⟨a, w, r, w', rfl, ht, -, hw, rfl⟩ | ⟨hl, hframe⟩
    · have hpast := hi.pc w ht
      cases hw with
      | setClosed => exact ⟨hi.away, nofun, fun w hw => by cases hw; rfl⟩
      | _ => cases hpast
    · refine ⟨?_, fun hnone => hi.thread (thread_none_back hs' hnone), fun w hw => ?_⟩
      · show s.session.lease ∉ n.leases.own
        rw [hframe.lease]
        exact hi.away
      · rcases started_cases hinv hs' hl hw with hw₀ | ⟨hnone, -⟩
        · exact hi.pc w hw₀
        · exact absurd hnone hi.thread
  | serveGrant _ hreq =>
    obtain ⟨w, b, ht, hpc, -⟩ := request_leaseGrant hreq
    have hpast := hi.pc w ht
    rw [hpc] at hpast
    cases hpast
  | serveRevoke _ hreq =>
    obtain ⟨w, _, _, _, ht, hpc⟩ := request_leaseRevoke hreq
    have hpast := hi.pc w ht
    rw [hpc] at hpast
    cases hpast
  | expire =>
    exact ⟨fun hmem => hi.away ((Leases.own_drop_sublist _ _).subset hmem), hi.thread, hi.pc⟩
  | other hv =>
    refine ⟨?_, hi.thread, hi.pc⟩
    rw [Leases.own_addOther hv]
    exact hi.away

/-- An acknowledgement is the server's. -/
theorem acked_of_delivers {reply : Option ServerReply} {code : GrpcCode}
    (hcode : code = .ok ∨ code = .notFound)
    (hd : ServerReply.delivers reply (.worker (.leaseRevoke code)) = true) :
    ∃ code', reply = some (.leaseRevoke code') := by
  unfold ServerReply.delivers at hd
  rcases reply with _ | r | code' <;> rcases hcode with rfl | rfl <;> simp at hd ⊢

theorem revoked_run {h : History (Net B) NetLabel} {n : Net B} (hr : NetRun h n)
    (ha : RevokeAcked h) : Revoked n := by
  induction hr with
  | start _ =>
    obtain ⟨_, _, hmem, -⟩ := ha
    cases hmem
  | @next h n n' l hr hs ih =>
    rcases revokeAcked_cons ha with hold | ⟨code, rfl, hcode⟩
    · exact (ih hold).step hr hs
    · cases netStep_cases hs with
      | @party l s hd hs' =>
        obtain ⟨code', hreply⟩ := acked_of_delivers hcode hd
        obtain ⟨w, m, i, b, ht, hpc, haway⟩ := (replying_run hr).revoke code' hreply
        rcases step_cases (inv_run (NetRun.session hr)) hs' with
          ⟨a, w₀, r, w', heq, ht₀, -, hw, rfl⟩ | ⟨hl, -⟩
        · cases heq
          cases ht.symm.trans ht₀
          cases hw with
          | revoked => exact ⟨haway, nofun, fun w hw => by cases hw; rfl⟩
          | revokeFailed hno => exact absurd hcode hno
        · exact absurd rfl (hl _)

/-! ## While the session is alive -/

/-- The counters at which the lease granted is held. -/
def Pc.holds (finished : Bool) : Pc B → Bool
  | .granted => !finished
  | .resetExpired => true
  | pc => pc.stage == .rising || pc.stage == .alive

/-- Such a worker comes from one, unless it was just granted a lease. -/
theorem WorkerStep.holds {s s' : Session} {w w' : Worker B} {a : Answer} {fin fin' : Bool}
    (hw : WorkerStep s w a s' w') (ha : a.agrees fin = true) (hfin : fin = true → fin' = true)
    (hno : grantSucceeds (.worker a) = false) (hm : w'.pc.holds fin' = true) :
    w.pc.holds fin = true := by
  cases hw with
  | grantOk => cases hno
  | grantedOpen =>
    have hopen : fin = false := by simpa [Answer.agrees] using ha
    simp [Pc.holds, hopen]
  | grantLoopClosed =>
    have hclosed : fin = true := by simpa [Answer.agrees] using ha
    simp [grantReturn, Pc.holds, hfin hclosed] at hm
  | grantWaitClosed =>
    have hclosed : fin = true := by simpa [Answer.agrees] using ha
    simp [grantReturn, Pc.holds, hfin hclosed] at hm
  | _ => first | rfl | cases hm

theorem holds_mono {f f' : Bool} {pc : Pc B} (hf : f = true → f' = true)
    (hm : pc.holds f' = true) : pc.holds f = true := by
  cases pc with
  | granted =>
    cases f with
    | false => rfl
    | true => simp [Pc.holds, hf rfl] at hm
  | _ => exact hm

/-- What `lease_` names while it is held exists, or has expired. -/
def Holding (h : History (Net B) NetLabel) (n : Net B) : Prop :=
  ∀ w, n.session.thread = .started w → w.pc.holds n.session.finished = true →
    Accounted h n n.session.session.lease

/-- While a lease is held no revoke is under way. -/
theorem request_of_holds {s : State B} {w : Worker B} {fin : Bool} (ht : s.thread = .started w)
    (hm : w.pc.holds fin = true) (req : LeaseRevokeRequest) :
    s.request ≠ some (.leaseRevoke req) := by
  intro hreq
  obtain ⟨w₀, _, _, _, ht₀, hpc⟩ := request_leaseRevoke hreq
  cases ht.symm.trans ht₀
  rw [hpc] at hm
  cases hm

theorem holding_step {h : History (Net B) NetLabel} {n n' : Net B} {l : NetLabel}
    (hr : NetRun h n) (he : Along EchoesId (sessionHistory ((n, l) :: h))) (hi : Holding h n)
    (hs : netStep n l = some n') : Holding ((n, l) :: h) n' := by
  intro w' hw' hm
  cases netStep_cases hs with
  | @party l s hd hs' =>
    have hinv := inv_run hr.session
    have hfin := fun hf => finished_step hf hs'
    rcases step_cases hinv hs' with ⟨a, w, r, w₁, rfl, ht, ha, hw, rfl⟩ | ⟨hl, hframe⟩
    · cases hw'
      cases hg : grantSucceeds (.worker a) with
      | true =>
        cases hw with
        | @grantOk o b rsp =>
          obtain ⟨_, _, _, _, hok⟩ := (replying_run hr).grant _ (reply_of_delivers hd)
          exact (hok rsp rfl).2.2
        | _ => cases hg
      | false =>
        have hacc := hi w ht (hw.holds ha hfin hg hm)
        have hlease : r.lease = n.session.session.lease := by
          cases hw with
          | @reply o req b rsp =>
            have hecho : rsp.id = req.id := he.2 o req b rsp ht rfl
            exact hecho.trans (reading_run hr.session _ req ht rfl)
          | grantOk => cases hg
          | _ => rfl
        show Accounted _ _ r.lease
        rw [hlease]
        exact hacc
    · show Accounted _ _ s.session.lease
      rw [hframe.lease]
      rcases hframe.back w' hw' with hw₀ | hloop
      · exact hi w' hw₀ (holds_mono hfin hm)
      · rw [hloop] at hm
        cases hm
  | serveGrant _ hreq =>
    obtain ⟨w, b, ht, hpc, -⟩ := request_leaseGrant hreq
    cases ht.symm.trans hw'
    rw [hpc] at hm
    cases hm
  | serveRevoke _ hreq => exact absurd hreq (request_of_holds hw' hm _)
  | expire => exact (hi w' hw' hm).step hs (request_of_holds hw' hm)
  | other => exact (hi w' hw' hm).step hs (request_of_holds hw' hm)

/-- What holds along the steps of the session held along those before. -/
theorem along_sessionHistory {C : History (State B) Label → State B → Label → Prop}
    {h : History (Net B) NetLabel} {n : Net B} {l : NetLabel}
    (hc : Along C (sessionHistory ((n, l) :: h))) : Along C (sessionHistory h) := by
  cases l with
  | party l => exact hc.1
  | _ => exact hc

theorem holding_run {h : History (Net B) NetLabel} {n : Net B} (hr : NetRun h n)
    (he : Along EchoesId (sessionHistory h)) : Holding h n := by
  induction hr with
  | start hi =>
    intro w hw
    exact absurd hw (hi.1.not_started w)
  | next hr hs ih => exact holding_step hr he (ih (along_sessionHistory he)) hs

theorem ownKnown_run {h : History (Net B) NetLabel} {n : Net B} (hr : NetRun h n)
    (he : Along EchoesId (sessionHistory h)) : OwnKnown h n := by
  induction hr with
  | start hi =>
    intro id hid
    rw [hi.2.1] at hid
    cases hid
  | next hr hs ih =>
    have he' := along_sessionHistory he
    exact ownKnown_step hr he' (ih he') hs

/-! ## Main results -/

/-- **A session that is alive has its lease.** In every run of a session and
a lease server, whatever is lost on the way and whoever else is granted
leases, where the keep-alive replies echo their ids: while `alive_` is set
`get_lease()` names the lease that was granted first, and the server has it,
or it has expired since the server last created it. -/
theorem alive_lease_held {h : History (Net B) NetLabel} {n : Net B} (hr : NetRun h n)
    (he : Along EchoesId (sessionHistory h)) (halive : n.session.session.alive = true) :
    firstGrantedId (sessionHistory h) = some n.session.session.getLease ∧
      (n.session.session.getLease ∈ n.leases.own ∨
        n.session.session.getLease ∈ expired h) := by
  rw [(inv_run hr.session).alive] at halive
  cases ht : n.session.thread with
  | none => simp [ht, Thread.stage, Stage.aliveSet] at halive
  | joined => simp [ht, Thread.stage, Stage.aliveSet] at halive
  | started w =>
    rw [ht] at halive
    constructor
    · have hany := anyGrant_of_keepingAlive hr.session ht halive
      rw [← firstGrantedId_isSome] at hany
      obtain ⟨id, hid⟩ := Option.isSome_iff_exists.mp hany
      rw [hid, Session.getLease, (hr.oneId he).lease id hid]
    · refine holding_run hr he w ht ?_
      obtain ⟨o, pc⟩ := w
      cases pc <;> first | rfl | cases halive

/-- The lease expires while the session announces it. -/
def expiredScript : List NetLabel :=
  servedScript .new 7 ++
    [.party (.worker (.leaseGrant (.ok { id := 7, ttl := 60 }))),
      .party (.worker (.finished false)), .party (.worker .flag), .party (.worker .flag),
      .expire 7]

theorem alive_lease_held_expired :
    ∃ h n, exec netStep [] ({ session := State.new 0 0 } : Net .constant) expiredScript
        = some (h, n) ∧
      n.session.session.alive = true ∧ n.leases.own = [] ∧
      (n.session.session.getLease ∈ n.leases.own ∨ n.session.session.getLease ∈ expired h) := by
  refine ⟨_, _, rfl, rfl, rfl, ?_⟩
  exact (alive_lease_held (Run.exec (.start ⟨⟨0, 0, rfl⟩, rfl, rfl⟩)
    (rfl : exec netStep [] ({ session := State.new 0 0 } : Net .constant) expiredScript
      = some (_, _))) (by simp [Along, EchoesId, sessionHistory]) rfl).2

/-- **What a session leaves behind.** Where keep-alive replies echo the ids
of their requests: once the worker has ended, a lease of the session that
still exists was created by a `LeaseGrant` whose reply was lost, or is the
one that `get_lease()` names and no revoke of it was acknowledged. -/
theorem leases_left_behind {h : History (Net B) NetLabel} {n : Net B} (hr : NetRun h n)
    (he : Along EchoesId (sessionHistory h)) (hended : n.session.thread.hasEnded = true) :
    ∀ id ∈ n.leases.own, id ∈ leaked h ∨
      (n.session.session.getLease = id ∧ ¬ RevokeAcked h) := by
  intro id hid
  rcases ownKnown_run hr he id hid with hleak | hfirst | ⟨rsp, hreply, -⟩
  · exact Or.inl hleak
  · have hlease : n.session.session.lease = id := (hr.oneId he).lease id hfirst
    refine Or.inr ⟨hlease, fun hacked => ?_⟩
    exact (revoked_run hr hacked).away (hlease ▸ hid)
  · obtain ⟨w, b, ht, hpc, -⟩ := (replying_run hr).grant _ hreply
    rw [ht] at hended
    simp [Thread.hasEnded, Pc.isEnded, hpc] at hended

/-- The reply to the first grant is lost, the second succeeds; the context
is done, and the revoke is acknowledged. -/
def revokedScript : List NetLabel :=
  servedScript .new 7 ++ servedAgainScript 8 ++
    [.party (.worker (.leaseGrant (.ok { id := 8, ttl := 60 }))), .party .ctxDone,
      .party (.worker (.finished true)), .party (.worker (.finished true)), .serve 0 0,
      .party (.worker (.leaseRevoke .ok)), .party (.worker .flag)]

/-- Lease 7 is left. -/
theorem leases_left_behind_leaked :
    ∃ h n, exec netStep [] ({ session := State.new 0 0 } : Net .constant) revokedScript
        = some (h, n) ∧
      n.leases.own = [7] ∧ n.session.session.getLease = 8 ∧
      ∀ id ∈ n.leases.own, id ∈ leaked h ∨
        (n.session.session.getLease = id ∧ ¬ RevokeAcked h) := by
  refine ⟨_, _, rfl, rfl, rfl, ?_⟩
  exact leases_left_behind (Run.exec (.start ⟨⟨0, 0, rfl⟩, rfl, rfl⟩)
    (rfl : exec netStep [] ({ session := State.new 0 0 } : Net .constant) revokedScript
      = some (_, _))) (by simp [Along, EchoesId, sessionHistory]) rfl

end

end Etcdv3Client
