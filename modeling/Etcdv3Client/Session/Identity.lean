import Etcdv3Client.Session.HeldLease

/-!
# One lease for life

The id of a session's lease is kept in three places: the worker's copy of
the options, `lease_`, and the request whose reply is awaited. From the
first successful `LeaseGrant` on the three agree, through every re-grant
and every write-back, where the server answers with the ids it was asked
for.
-/

namespace Etcdv3Client

open Transition

section
variable {B : BackOffStrategy}

/-! ## The ids asked for and answered -/

/-- The lease a request is about. -/
def Request.id : Request → Int
  | .leaseGrant req => req.id
  | .leaseKeepAlive req => req.id
  | .leaseRevoke req => req.id

/-- The id in the first successful `LeaseGrant` reply. -/
def firstGrantedId (h : History (State B) Label) : Option Int :=
  (grantedIds (labels h)).getLast?

/-- `LeaseGrant` replies carry the id asked for; where 0 was asked, the
server chooses another. -/
def GrantsAsAsked (_ : History (State B) Label) (s : State B) (l : Label) : Prop :=
  ∀ req rsp, s.request = some (.leaseGrant req) → l = .worker (.leaseGrant (.ok rsp)) →
    (req.id ≠ 0 → rsp.id = req.id) ∧ rsp.id ≠ 0

/-- The first id granted stays the first. -/
theorem firstGrantedId_cons {h : History (State B) Label} {p : State B × Label} {id : Int}
    (hf : firstGrantedId h = some id) : firstGrantedId (p :: h) = some id := by
  unfold firstGrantedId grantedIds at hf ⊢
  simp only [labels, List.map_cons, List.filterMap_cons]
  cases grantedId p.2 with
  | none => exact hf
  | some id' => rw [List.getLast?_cons, hf, Option.getD_some]

theorem firstGrantedId_frame {h : History (State B) Label} {s : State B} {l : Label}
    (hl : grantedId l = none) : firstGrantedId ((s, l) :: h) = firstGrantedId h := by
  simp [firstGrantedId, grantedIds, hl]

theorem firstGrantedId_isSome (h : History (State B) Label) :
    (firstGrantedId h).isSome = anyGrant h := by
  rw [Bool.eq_iff_iff, ← grantedIds_ne_nil]
  simp [firstGrantedId]

/-! ## The three copies -/

/-- Once an id was granted, `lease_` and the worker's options carry it. -/
structure OneId (h : History (State B) Label) (s : State B) : Prop where
  nonzero : ∀ id, firstGrantedId h = some id → id ≠ 0
  lease : ∀ id, firstGrantedId h = some id → s.session.lease = id
  options : ∀ id, firstGrantedId h = some id → ∀ w, s.thread = .started w → w.options.lease = id

theorem oneId_init {s : State B} (h : Init s) : OneId [] s := by
  obtain ⟨lease, leaseTtl, rfl⟩ := h
  refine ⟨?_, ?_, ?_⟩ <;> simp [firstGrantedId, grantedIds]

/-- The worker's copy of the options is written by `options.set_lease(lease_)`
only. -/
theorem WorkerStep.options_lease {s s' : Session} {w w' : Worker B} {a : Answer}
    (hw : WorkerStep s w a s' w') :
    (w'.options.lease = w.options.lease ∧ grantedId (.worker a) = none) ∨
      w'.options.lease = s'.lease := by
  cases hw with
  | grantOk => exact Or.inr rfl
  | grantLoopClosed => exact Or.inr rfl
  | grantWaitClosed => exact Or.inr rfl
  | _ => exact Or.inl ⟨rfl, rfl⟩

/-- The id in a `LeaseGrant` or `LeaseKeepAlive` reply. -/
def replyId : Label → Option Int
  | .worker (.leaseGrant (.ok rsp)) => some rsp.id
  | .worker (.read (some rsp)) => some rsp.id
  | _ => none

theorem replyId_of_grantedId {l : Label} {id : Int} (h : grantedId l = some id) :
    replyId l = some id := by
  unfold grantedId at h
  split at h
  · exact h
  · cases h

theorem grantedId_of_replyId {l : Label} (h : replyId l = none) : grantedId l = none := by
  cases hid : grantedId l with
  | none => rfl
  | some id => exact absurd (replyId_of_grantedId hid) (by simp [h])

/-- `lease_` is written by the two kinds of reply only. -/
theorem WorkerStep.lease_cases {s s' : Session} {w w' : Worker B} {a : Answer}
    (hw : WorkerStep s w a s' w') :
    (∃ b rsp, w.pc = .leaseGrant b ∧ a = .leaseGrant (.ok rsp) ∧ s'.lease = rsp.id) ∨
    (∃ req b rsp, w.pc = .read req b ∧ a = .read (some rsp) ∧ s'.lease = rsp.id) ∨
    (s'.lease = s.lease ∧ replyId (.worker a) = none) := by
  cases hw with
  | grantOk => exact Or.inl ⟨_, _, rfl, rfl, rfl⟩
  | reply => exact Or.inr (Or.inl ⟨_, _, _, rfl, rfl, rfl⟩)
  | _ => exact Or.inr (Or.inr ⟨rfl, rfl⟩)

/-- The reply to a `LeaseGrant` carries the first id granted: it was asked
for, or none was granted before. -/
theorem oneId_grant {h : History (State B) Label} {s : State B} {w : Worker B}
    {b : B.State} {rsp : LeaseGrantResponse} (hi : OneId h s) (ht : s.thread = .started w)
    (hpc : w.pc = .leaseGrant b) (hg : GrantsAsAsked h s (.worker (.leaseGrant (.ok rsp)))) :
    rsp.id ≠ 0 ∧
      firstGrantedId ((s, Label.worker (.leaseGrant (.ok rsp))) :: h) = some rsp.id := by
  have hreq : s.request = some (.leaseGrant { ttl := w.options.ttl, id := w.options.lease }) := by
    simp only [State.request, ht, hpc]
    rfl
  obtain ⟨hecho, hne⟩ := hg _ rsp hreq rfl
  refine ⟨hne, ?_⟩
  cases hold : firstGrantedId h with
  | some id =>
    have ho : w.options.lease = id := hi.options id hold _ ht
    have hid : rsp.id = id := (hecho (ho ▸ hi.nonzero id hold)).trans ho
    rw [hid]
    exact firstGrantedId_cons hold
  | none =>
    have hnil : grantedIds (labels h) = [] := by simpa [firstGrantedId] using hold
    unfold grantedIds labels at hnil
    simp [firstGrantedId, grantedIds, grantedId, hnil]

/-- One step: every write of `lease_` writes the first id again. -/
theorem oneId_lease {h : History (State B) Label} {s : State B} {r : Session} {w w' : Worker B}
    {a : Answer} (hr : SRun h s) (hi : OneId h s) (ht : s.thread = .started w)
    (hg : GrantsAsAsked h s (.worker a)) (he : EchoesId h s (.worker a))
    (hw : WorkerStep s.session w a r w') {id : Int}
    (hid : firstGrantedId ((s, .worker a) :: h) = some id) : id ≠ 0 ∧ r.lease = id := by
  rcases hw.lease_cases with ⟨b, rsp, hpc, rfl, hlease⟩ | ⟨req, b, rsp, hpc, rfl, hlease⟩ |
    ⟨hlease, hno⟩
  · obtain ⟨hne, hfirst⟩ := oneId_grant hi ht hpc hg
    cases hfirst.symm.trans hid
    exact ⟨hne, hlease⟩
  · rw [firstGrantedId_frame rfl] at hid
    obtain ⟨o, pc⟩ := w
    cases hpc
    have hecho : rsp.id = req.id := he o req b rsp ht rfl
    refine ⟨hi.nonzero id hid, ?_⟩
    rw [hlease, hecho, reading_run hr _ req ht rfl, hi.lease id hid]
  · rw [firstGrantedId_frame (grantedId_of_replyId hno)] at hid
    exact ⟨hi.nonzero id hid, hlease.trans (hi.lease id hid)⟩

theorem oneId_step {h : History (State B) Label} {s s' : State B} {l : Label}
    (hr : SRun h s) (hi : OneId h s) (hg : GrantsAsAsked h s l) (he : EchoesId h s l)
    (hs : step s l = some s') : OneId ((s, l) :: h) s' := by
  have hinv := inv_run hr
  rcases step_cases hinv hs with ⟨a, w, r, w', rfl, ht, -, hw, rfl⟩ | ⟨hl, hframe⟩
  · refine ⟨fun id hid => (oneId_lease hr hi ht hg he hw hid).1,
      fun id hid => (oneId_lease hr hi ht hg he hw hid).2, fun id hid w₁ hw₁ => ?_⟩
    cases hw₁
    rcases hw.options_lease with ⟨hsame, hno⟩ | hback
    · rw [firstGrantedId_frame hno] at hid
      exact hsame.trans (hi.options id hid w ht)
    · exact hback.trans (oneId_lease hr hi ht hg he hw hid).2
  · have hnone : grantedId l = none := by
      cases l with
      | worker a => exact absurd rfl (hl a)
      | _ => rfl
    have hsame := firstGrantedId_frame (h := h) (s := s) hnone
    refine ⟨hsame ▸ hi.nonzero, ?_, ?_⟩
    · rw [hsame, hframe.lease]
      exact hi.lease
    · rw [hsame]
      intro id hid w hw
      rcases started_cases hinv hs hl hw with hw₀ | ⟨hno, -⟩
      · exact hi.options id hid w hw₀
      · have hany := anyGrant_of_thread_none hr hno
        rw [← firstGrantedId_isSome, hid] at hany
        cases hany

theorem oneId_run {h : History (State B) Label} {s : State B} (hr : SRun h s)
    (hg : Along GrantsAsAsked h) (he : Along EchoesId h) : OneId h s :=
  hr.inv_along (fun _ => oneId_init)
    (fun hr' hi hc hs => oneId_step hr' hi hc.1 hc.2 hs) (hg.and he)

/-! ## The worker that asks again -/

/-- The counters from which a `LeaseGrant` may still be sent. After a
`TryGrant` without a success the close event is finished. -/
def Pc.mayGrant (finished : Bool) : Pc B → Bool
  | .loop | .granted => !finished
  | .leaseRevoke _ _ _ | .revokeSleep _ _ _ _ | .setClosed | .ended => false
  | _ => true

theorem mayGrant_mono {f f' : Bool} {pc : Pc B} (hf : f = true → f' = true)
    (hm : pc.mayGrant f' = true) : pc.mayGrant f = true := by
  cases pc <;> first
    | exact hm
    | (simp only [Pc.mayGrant, Bool.not_eq_true'] at hm ⊢
       cases hff : f with
       | false => rfl
       | true => rw [hf hff] at hm; cases hm)

/-- Such a worker comes from one with the same options, unless it was just
granted a lease. -/
theorem WorkerStep.mayGrant {s s' : Session} {w w' : Worker B} {a : Answer} {fin fin' : Bool}
    (hw : WorkerStep s w a s' w') (ha : a.agrees fin = true) (hfin : fin = true → fin' = true)
    (hno : grantSucceeds (.worker a) = false) (hm : w'.pc.mayGrant fin' = true) :
    w.pc.mayGrant fin = true ∧ w'.options = w.options := by
  cases hw with
  | loopOpen =>
    have hopen : fin = false := by simpa [Answer.agrees] using ha
    exact ⟨by simp [Pc.mayGrant, hopen], rfl⟩
  | grantedOpen =>
    have hopen : fin = false := by simpa [Answer.agrees] using ha
    exact ⟨by simp [Pc.mayGrant, hopen], rfl⟩
  | grantLoopClosed =>
    have hclosed : fin = true := by simpa [Answer.agrees] using ha
    simp [grantReturn, Pc.mayGrant, hfin hclosed] at hm
  | grantWaitClosed =>
    have hclosed : fin = true := by simpa [Answer.agrees] using ha
    simp [grantReturn, Pc.mayGrant, hfin hclosed] at hm
  | grantedClosed =>
    have hclosed : fin = true := by simpa [Answer.agrees] using ha
    simp [Pc.mayGrant, hfin hclosed] at hm
  | grantOk => cases hno
  | _ => first | exact ⟨rfl, rfl⟩ | cases hm

/-! ## Main result -/

/-- What a worker about to send a request puts in it. -/
theorem request_id {s : State B} {req : Request} (hreq : s.request = some req) :
    ∃ w, s.thread = .started w ∧ (req.id = w.options.lease ∨ req.id = s.session.lease) := by
  unfold State.request at hreq
  split at hreq
  · rename_i w ht
    refine ⟨w, ht, ?_⟩
    obtain ⟨o, pc⟩ := w
    cases pc <;> simp only [Pc.request, Option.some.injEq, reduceCtorEq] at hreq <;> subst hreq
    · exact Or.inl rfl
    · exact Or.inr rfl
    · exact Or.inr rfl
  · cases hreq

/-- **A session keeps one lease.** Where the server grants the ids it is
asked for and its keep-alive replies echo theirs, every request sent and
`get_lease()` carry the first id granted, from that grant on; and `alive_`
is set only after such a grant. -/
theorem one_lease_identity {h : History (State B) Label} {s : State B} (hr : SRun h s)
    (hg : Along GrantsAsAsked h) (he : Along EchoesId h) :
    (∀ id, firstGrantedId h = some id →
      s.session.getLease = id ∧ ∀ req, s.request = some req → req.id = id) ∧
    (s.session.alive = true →
      ∃ id, firstGrantedId h = some id ∧ s.session.getLease = id) := by
  have hi := oneId_run hr hg he
  refine ⟨fun id hid => ⟨hi.lease id hid, fun req hreq => ?_⟩, fun halive => ?_⟩
  · obtain ⟨w, ht, hopt | hlease⟩ := request_id hreq
    · exact hopt.trans (hi.options id hid w ht)
    · exact hlease.trans (hi.lease id hid)
  · have hsome : (firstGrantedId h).isSome = true := by
      rw [firstGrantedId_isSome]
      rw [(inv_run hr).alive] at halive
      cases ht : s.thread with
      | none => simp [ht, Thread.stage, Stage.aliveSet] at halive
      | joined => simp [ht, Thread.stage, Stage.aliveSet] at halive
      | started w =>
        rw [ht] at halive
        exact anyGrant_of_keepingAlive hr ht halive
    obtain ⟨id, hid⟩ := Option.isSome_iff_exists.mp hsome
    exact ⟨id, hid, hi.lease id hid⟩

/-- A lease that is lost on its stream and granted again. -/
def regrantScript : List Label :=
  announceScript .new { id := 7, ttl := 60 } ++ openScript ++
    [.worker (.write false), .worker (.finish .notFound), .worker .flag, .worker .flag,
      .worker (.finished false), .worker (.finished false)]

/-- The second `LeaseGrant` asks for the id the first one gave. -/
theorem one_lease_identity_regranted :
    ∃ h s, exec step [] (State.new 5 0 : State .constant) regrantScript = some (h, s) ∧
      s.request = some (.leaseGrant { ttl := 60, id := 7 }) ∧
      firstGrantedId h = some 7 ∧ s.session.getLease = 7 := by
  refine ⟨_, _, rfl, rfl, rfl, ?_⟩
  have hone := one_lease_identity (Run.exec (.start ⟨5, 0, rfl⟩)
    (rfl : exec step [] (State.new 5 0 : State .constant) regrantScript = some (_, _)))
    (by simp [Along, GrantsAsAsked, State.request, Pc.request, Client.leaseGrantRequest,
      LeaseGrantOptions.withID, SessionOptions.new]) (by simp [Along, EchoesId])
  exact (hone.1 7 rfl).1

end

end Etcdv3Client
