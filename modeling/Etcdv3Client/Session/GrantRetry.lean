import Etcdv3Client.LeaseServer
import Etcdv3Client.Session.Identity

/-!
# Retrying a grant, with the server

The session and a lease server, joined by a network that may lose a request
before the server handles it or the reply after. In both cases the worker
sees an error and asks again. Where it asks for a given id the server
refuses a second lease; where it asks with 0 the server cannot know.
-/

namespace Etcdv3Client

open Transition

section
variable {B : BackOffStrategy}

/-! ## Two parties -/

/-- The server's answer to the call under way. -/
inductive ServerReply where
  | leaseGrant (r : Except GrpcCode LeaseGrantResponse)
  | leaseRevoke (code : GrpcCode)

structure Net (B : BackOffStrategy) where
  session : State B
  leases : Leases := {}
  reply : Option ServerReply := none

inductive NetLabel where
  /-- a step on the session's side -/
  | party (l : Label)
  /-- the server handles the request of the call under way, never one of a
  call that has ended; `chosen` is the id it gives where none is asked for -/
  | serve (chosen ttl : Int)
  /-- a lease expires, or is revoked by somebody else -/
  | expire (id : Int)
  /-- somebody else is granted a lease -/
  | other (id : Int)

/-- A success, or the code for a lease that does not exist, reaches the
worker only as the server sent it; another error may stand for a lost
request, for a lost reply, or for a refusal. -/
def ServerReply.delivers (reply : Option ServerReply) : Label → Bool
  | .worker (.leaseGrant (.ok rsp)) =>
      match reply with
      | some (.leaseGrant (.ok rsp')) => rsp = rsp'
      | _ => false
  | .worker (.leaseRevoke code) =>
      match reply with
      | some (.leaseRevoke code') => code = code' ∨ code ≠ .ok ∧ code ≠ .notFound
      | _ => code ≠ .ok ∧ code ≠ .notFound
  | _ => true

/-- The step ends a unary call. -/
def Label.endsCall : Label → Bool
  | .worker (.leaseGrant _) | .worker (.leaseRevoke _) => true
  | _ => false

def netStep (n : Net B) : NetLabel → Option (Net B)
  | .party l =>
      if ServerReply.delivers n.reply l then
        (step n.session l).map fun s =>
          { n with session := s, reply := if l.endsCall then none else n.reply }
      else none
  | .serve chosen ttl =>
      if n.reply.isSome then none
      else match n.session.request with
        | some (.leaseGrant req) =>
            (n.leases.grant req chosen ttl).map fun r =>
              { n with leases := r.2, reply := some (.leaseGrant r.1) }
        | some (.leaseRevoke req) =>
            some { n with
              leases := (n.leases.revoke req).2
              reply := some (.leaseRevoke (n.leases.revoke req).1) }
        | _ => none
  | .expire id => some { n with leases := n.leases.drop id }
  | .other id => (n.leases.addOther id).map fun v => { n with leases := v }

/-- No lease was created for the session yet; others may exist. -/
def NetInit (n : Net B) : Prop :=
  Init n.session ∧ n.leases.own = [] ∧ n.reply = none

abbrev NetRun (h : History (Net B) NetLabel) (n : Net B) : Prop := Run netStep NetInit h n

/-- At most one lease created for the session exists. -/
def AtMostOneLease (_ : History (Net B) NetLabel) (n : Net B) : Prop := n.leases.own.length ≤ 1

/-- The leases created by a `LeaseGrant` whose reply was lost. -/
def leaked : History (Net B) NetLabel → List Int
  | [] => []
  | (n, .party (.worker (.leaseGrant (.error _)))) :: h =>
      match n.reply with
      | some (.leaseGrant (.ok rsp)) => rsp.id :: leaked h
      | _ => leaked h
  | _ :: h => leaked h

/-- Where the server handles a `LeaseGrant` with ID 0, no lease is left
whose reply was lost. -/
def NoneLeaked (h : History (Net B) NetLabel) (n : Net B) (l : NetLabel) : Prop :=
  ∀ chosen ttl req, l = .serve chosen ttl → n.session.request = some (.leaseGrant req) →
    req.id = 0 → ∀ id ∈ leaked h, id ∉ n.leases.own

/-! ## What one step can do -/

inductive NetStep : Net B → NetLabel → Net B → Prop where
  | party {n l s} : ServerReply.delivers n.reply l = true → step n.session l = some s →
      NetStep n (.party l)
        { n with session := s, reply := if l.endsCall then none else n.reply }
  | serveGrant {n chosen ttl req r v} : n.reply = none →
      n.session.request = some (.leaseGrant req) → n.leases.grant req chosen ttl = some (r, v) →
      NetStep n (.serve chosen ttl) { n with leases := v, reply := some (.leaseGrant r) }
  | serveRevoke {n chosen ttl req} : n.reply = none →
      n.session.request = some (.leaseRevoke req) →
      NetStep n (.serve chosen ttl)
        { n with
          leases := (n.leases.revoke req).2
          reply := some (.leaseRevoke (n.leases.revoke req).1) }
  | expire {n id} : NetStep n (.expire id) { n with leases := n.leases.drop id }
  | other {n id v} : n.leases.addOther id = some v →
      NetStep n (.other id) { n with leases := v }

theorem netStep_cases {n n' : Net B} {l : NetLabel} (h : netStep n l = some n') :
    NetStep n l n' := by
  cases l with
  | party l =>
    simp only [netStep] at h
    split at h
    · rename_i hd
      rw [Option.map_eq_some_iff] at h
      obtain ⟨s, hs, rfl⟩ := h
      exact .party hd hs
    · cases h
  | serve chosen ttl =>
    simp only [netStep] at h
    split at h
    · cases h
    · rename_i hreply
      have hnone : n.reply = none := by simpa using hreply
      split at h
      · rename_i req hreq
        rw [Option.map_eq_some_iff] at h
        obtain ⟨⟨r, v⟩, hg, rfl⟩ := h
        exact .serveGrant hnone hreq hg
      · rename_i req hreq
        cases h
        exact .serveRevoke hnone hreq
      · cases h
  | expire id =>
    cases h
    exact .expire
  | other id =>
    simp only [netStep, Option.map_eq_some_iff] at h
    obtain ⟨v, hv, rfl⟩ := h
    exact .other hv

/-- The steps of the session's side. -/
def sessionHistory : History (Net B) NetLabel → History (State B) Label
  | [] => []
  | (n, .party l) :: h => (n.session, l) :: sessionHistory h
  | _ :: h => sessionHistory h

theorem NetRun.session {h : History (Net B) NetLabel} {n : Net B} (hr : NetRun h n) :
    SRun (sessionHistory h) n.session := by
  induction hr with
  | start hi => exact .start hi.1
  | next hr hs ih =>
    cases netStep_cases hs with
    | party _ hs' => exact ih.next hs'
    | _ => exact ih

/-! ## The leases and the id asked for -/

/-- What the session's leases are, for a worker that asks for `lease`: the
one granted where the reply is under way; else the one asked for, and with
0 the leaked ones. -/
def OwnAsAsked (leaked own : List Int) (lease : Int) : Option ServerReply → Prop
  | some (.leaseGrant (.ok rsp)) =>
      rsp.id ≠ 0 ∧ (lease ≠ 0 → rsp.id = lease) ∧ ∀ id ∈ own, id = rsp.id
  | _ => (lease = 0 → ∀ id ∈ own, id ∈ leaked) ∧ (lease ≠ 0 → ∀ id ∈ own, id = lease)

/-- The calls in which the server's reply may be waiting. -/
def Pc.calling : Pc B → Bool
  | .leaseGrant _ | .leaseRevoke _ _ _ => true
  | _ => false

structure Tracked (h : History (Net B) NetLabel) (n : Net B) : Prop where
  len : n.leases.own.length ≤ 1
  idle : n.session.thread = .none → n.leases.own = []
  pending : n.reply.isSome = true → ∃ w, n.session.thread = .started w ∧ w.pc.calling = true
  asks : ∀ w, n.session.thread = .started w → w.pc.mayGrant n.session.finished = true →
    OwnAsAsked (leaked h) n.leases.own w.options.lease n.reply

theorem OwnAsAsked.mono {leaked own own' : List Int} {lease : Int} {reply : Option ServerReply}
    (h : OwnAsAsked leaked own lease reply) (hsub : ∀ id ∈ own', id ∈ own) :
    OwnAsAsked leaked own' lease reply := by
  unfold OwnAsAsked at h ⊢
  split at h
  · exact ⟨h.1, h.2.1, fun id hid => h.2.2 id (hsub id hid)⟩
  · exact ⟨fun h0 id hid => h.1 h0 id (hsub id hid), fun h0 id hid => h.2 h0 id (hsub id hid)⟩

theorem tracked_init {n : Net B} (hi : NetInit n) : Tracked [] n := by
  obtain ⟨⟨lease, leaseTtl, hs⟩, hown, hreply⟩ := hi
  refine ⟨by simp [hown], fun _ => hown, by simp [hreply], fun w hw => ?_⟩
  rw [hs] at hw
  cases hw

/-- A lease that ends changes nothing else. -/
theorem Tracked.shrink {h : History (Net B) NetLabel} {n : Net B} {l : NetLabel} {v : Leases}
    (hi : Tracked h n) (hsub : v.own.Sublist n.leases.own) (hl : ∀ l', l ≠ .party l') :
    Tracked ((n, l) :: h) { n with leases := v } := by
  have hsame : leaked ((n, l) :: h) = leaked h := by
    cases l with
    | party l' => exact absurd rfl (hl l')
    | _ => rfl
  refine ⟨hsub.length_le.trans hi.len, fun ht => ?_, hi.pending, fun w ht hm => ?_⟩
  · have hnil := hi.idle ht
    rw [hnil] at hsub
    exact List.sublist_nil.mp hsub
  · rw [hsame]
    exact (hi.asks w ht hm).mono fun id hid => hsub.subset hid

theorem request_leaseGrant {s : State B} {req : LeaseGrantRequest}
    (h : s.request = some (.leaseGrant req)) :
    ∃ w b, s.thread = .started w ∧ w.pc = .leaseGrant b ∧ req.id = w.options.lease := by
  unfold State.request at h
  split at h
  · rename_i w ht
    obtain ⟨o, pc⟩ := w
    cases pc <;> simp only [Pc.request, Option.some.injEq, reduceCtorEq,
      Request.leaseGrant.injEq] at h
    subst h
    exact ⟨_, _, ht, rfl, rfl⟩
  · cases h

theorem request_leaseRevoke {s : State B} {req : LeaseRevokeRequest}
    (h : s.request = some (.leaseRevoke req)) :
    ∃ w b m i, s.thread = .started w ∧ w.pc = .leaseRevoke b m i := by
  unfold State.request at h
  split at h
  · rename_i w ht
    obtain ⟨o, pc⟩ := w
    cases pc <;> simp only [Pc.request, Option.some.injEq, reduceCtorEq] at h
    exact ⟨_, _, _, _, ht, rfl⟩
  · cases h

/-- Where the server creates a lease none of the session's exists: not with
the id asked for, and where 0 is asked none is left. -/
theorem Tracked.own_nil {h : History (Net B) NetLabel} {n : Net B} {req : LeaseGrantRequest}
    (hi : Tracked h n) (hreply : n.reply = none)
    (hreq : n.session.request = some (.leaseGrant req)) {id : Int} (hid : id ∉ n.leases.own)
    (hsame : req.id ≠ 0 → id = req.id)
    (hc : req.id = 0 → ∀ id ∈ leaked h, id ∉ n.leases.own) : n.leases.own = [] := by
  obtain ⟨w, b, ht, hpc, hlease⟩ := request_leaseGrant hreq
  have hasks := hi.asks w ht (by rw [hpc]; rfl)
  rw [hreply] at hasks
  by_contra hne
  obtain ⟨id', hid'⟩ := List.exists_mem_of_ne_nil _ hne
  by_cases h0 : w.options.lease = 0
  · -- what exists has leaked, and none of that is left
    exact hc (hlease.trans h0) id' (hasks.1 h0 id' hid') hid'
  · -- what exists has the id asked for, with which none is created
    have hall := hasks.2 h0 id' hid'
    rw [hall, ← hlease, ← hsame (by rw [hlease]; exact h0)] at hid'
    exact hid hid'

/-- The server's step. -/
theorem Tracked.serve {h : History (Net B) NetLabel} {n : Net B} {req : LeaseGrantRequest}
    {chosen ttl : Int} {r : Except GrpcCode LeaseGrantResponse} {v : Leases} (hi : Tracked h n)
    (hreply : n.reply = none) (hreq : n.session.request = some (.leaseGrant req))
    (hg : n.leases.grant req chosen ttl = some (r, v))
    (hc : NoneLeaked h n (.serve chosen ttl)) :
    Tracked ((n, .serve chosen ttl) :: h)
      { n with leases := v, reply := some (.leaseGrant r) } := by
  obtain ⟨w, b, ht, hpc, hlease⟩ := request_leaseGrant hreq
  have hpending : ∃ w, n.session.thread = .started w ∧ w.pc.calling = true :=
    ⟨w, ht, by rw [hpc]; rfl⟩
  rcases Leases.grant_cases hg with ⟨-, rfl, rfl⟩ | ⟨id, hne, hid, hsame, rfl, rfl⟩
  · -- refused
    refine ⟨hi.len, hi.idle, fun _ => hpending, fun w hw hm => ?_⟩
    have hasks := hi.asks w hw hm
    rw [hreply] at hasks
    exact hasks
  · have hnil := hi.own_nil hreply hreq hid hsame fun h0 => hc chosen ttl req rfl hreq h0
    refine ⟨by simp [hnil], fun hno => ?_, fun _ => hpending, fun w' hw' _ => ?_⟩
    · rw [ht] at hno
      cases hno
    · cases ht.symm.trans hw'
      refine ⟨hne, fun hl => ?_, fun id' hid' => by simpa [hnil] using hid'⟩
      rw [← hlease] at hl ⊢
      exact hsame hl

/-- The server handles a `LeaseRevoke`: no grant comes after it. -/
theorem Tracked.revoked {h : History (Net B) NetLabel} {n : Net B} {req : LeaseRevokeRequest}
    {chosen ttl : Int} (hi : Tracked h n)
    (hreq : n.session.request = some (.leaseRevoke req)) :
    Tracked ((n, .serve chosen ttl) :: h)
      { n with
        leases := (n.leases.revoke req).2
        reply := some (.leaseRevoke (n.leases.revoke req).1) } := by
  have hshrunk := hi.shrink (l := .serve chosen ttl) (n.leases.own_revoke_sublist req) nofun
  obtain ⟨w, b, m, i, ht, hpc⟩ := request_leaseRevoke hreq
  refine ⟨hshrunk.len, hshrunk.idle, fun _ => ⟨w, ht, by rw [hpc]; rfl⟩, fun w' hw' hm => ?_⟩
  cases ht.symm.trans hw'
  rw [hpc] at hm
  cases hm

theorem reply_of_delivers {reply : Option ServerReply} {rsp : LeaseGrantResponse}
    (hd : ServerReply.delivers reply (.worker (.leaseGrant (.ok rsp))) = true) :
    reply = some (.leaseGrant (.ok rsp)) := by
  simp only [ServerReply.delivers] at hd
  split at hd
  · rw [of_decide_eq_true hd]
  · cases hd

/-- What a lost reply adds to the leaked leases. -/
theorem leaked_worker (h : History (Net B) NetLabel) (n : Net B) (a : Answer) :
    leaked ((n, .party (.worker a)) :: h) = leaked h ∨
      ∃ rsp code, n.reply = some (.leaseGrant (.ok rsp)) ∧ a = .leaseGrant (.error code) ∧
        leaked ((n, .party (.worker a)) :: h) = rsp.id :: leaked h := by
  cases a with
  | leaseGrant r =>
    cases r with
    | ok _ => exact .inl rfl
    | error code =>
      rcases hrep : n.reply with _ | (code' | rsp) | code'
      · exact .inl (by simp [leaked, hrep])
      · exact .inl (by simp [leaked, hrep])
      · exact .inr ⟨rsp, code, rfl, rfl, by simp [leaked, hrep]⟩
      · exact .inl (by simp [leaked, hrep])
  | _ => exact .inl rfl

/-- An error: a lease whose reply is lost is the one asked for, or leaked. -/
theorem OwnAsAsked.lost {h : History (Net B) NetLabel} {n : Net B} {rep : ServerReply}
    {lease : Int} {code : GrpcCode}
    (hasks : OwnAsAsked (leaked h) n.leases.own lease (some rep)) (hrep : n.reply = some rep) :
    OwnAsAsked (leaked ((n, .party (.worker (.leaseGrant (.error code)))) :: h))
      n.leases.own lease none := by
  rcases rep with (code' | rsp) | code'
  · simpa [leaked, hrep, OwnAsAsked] using hasks
  · obtain ⟨-, hlease, hall⟩ := hasks
    refine ⟨fun _ id hid => ?_, fun h0 id hid => (hall id hid).trans (hlease h0)⟩
    simp [leaked, hrep, hall id hid]
  · simpa [leaked, hrep, OwnAsAsked] using hasks

/-- The worker's step: a success makes the lease the one asked for, a lost
reply leaks it. -/
theorem Tracked.worker {h : History (Net B) NetLabel} {n : Net B} {r : Session}
    {w w' : Worker B} {a : Answer} (hi : Tracked h n) (ht : n.session.thread = .started w)
    (ha : a.agrees n.session.finished = true) (hw : WorkerStep n.session.session w a r w')
    (hs : step n.session (.worker a)
      = some { n.session with session := r, thread := .started w' })
    (hd : ServerReply.delivers n.reply (.worker a) = true) :
    Tracked ((n, .party (.worker a)) :: h)
      { n with
        session := { n.session with session := r, thread := .started w' }
        reply := if (Label.worker a).endsCall then none else n.reply } := by
  have hfin := fun hf => finished_step (l := .worker a) hf hs
  -- a reply waits for the answer of the call only, which takes it
  have hnone : (if (Label.worker a).endsCall then none else n.reply) = none := by
    split
    · rfl
    · rename_i hends
      by_contra hne
      obtain ⟨w₀, ht₀, hcall⟩ := hi.pending (by simpa [Option.isSome_iff_ne_none] using hne)
      cases ht.symm.trans ht₀
      cases hw <;> first | exact hends rfl | cases hcall
  rw [hnone]
  refine ⟨hi.len, nofun, nofun, fun w₁ hw₁ hm => ?_⟩
  cases hw₁
  cases hg : grantSucceeds (.worker a) with
  | true =>
    -- the lease of the reply is the one asked for from now on
    cases hw with
    | @grantOk o b rsp =>
      have hasks := hi.asks _ ht rfl
      rw [reply_of_delivers hd] at hasks
      exact ⟨fun h0 => absurd h0 hasks.1, fun _ => hasks.2.2⟩
    | _ => cases hg
  | false =>
    obtain ⟨hm₀, hopt⟩ := hw.mayGrant ha hfin hg hm
    have hasks := hi.asks w ht hm₀
    rw [hopt]
    cases hrep : n.reply with
    | none =>
      rw [hrep] at hasks
      rcases leaked_worker h n a with hsame | ⟨rsp, code, hsome, -⟩
      · rw [hsame]
        exact hasks
      · rw [hrep] at hsome
        cases hsome
    | some rep =>
      -- the call ends with an error, and the reply with it
      obtain ⟨w₀, ht₀, hcall⟩ := hi.pending (by rw [hrep]; rfl)
      cases ht.symm.trans ht₀
      cases hw with
      | @grantError o b code =>
        rw [hrep] at hasks
        exact hasks.lost hrep
      | grantOk => cases hg
      | revoked => cases hm₀
      | revokeFailed => cases hm₀
      | _ => cases hcall

/-- A joinable thread stays one or is joined. -/
theorem thread_none_back {s s' : State B} {l : Label} (hs : step s l = some s')
    (ht : s'.thread = .none) : s.thread = .none := by
  cases step_iff.mp hs with
  | worker => cases ht
  | grantOk => cases ht
  | closeJoined => cases ht
  | _ => exact ht

theorem leaked_frame {h : History (Net B) NetLabel} {n : Net B} {l : Label}
    (hl : ∀ a, l ≠ .worker a) : leaked ((n, .party l) :: h) = leaked h := by
  cases l with
  | worker a => exact absurd rfl (hl a)
  | _ => rfl

/-- The steps of the callers and of the context: a worker that starts finds
no lease of the session. -/
theorem Tracked.callers {h : History (Net B) NetLabel} {n : Net B} {l : Label} {s : State B}
    (hi : Tracked h n) (hinv : Inv n.session) (hl : ∀ a, l ≠ .worker a)
    (hs : step n.session l = some s) (hframe : Frame n.session s) :
    Tracked ((n, .party l) :: h)
      { n with session := s, reply := if l.endsCall then none else n.reply } := by
  have hkeep : (if l.endsCall then none else n.reply) = n.reply := by
    cases l with
    | worker a => exact absurd rfl (hl a)
    | _ => rfl
  rw [hkeep]
  refine ⟨hi.len, fun ht => hi.idle (thread_none_back hs ht), fun hrep => ?_, fun w hw hm => ?_⟩
  · obtain ⟨w, hw, hcall⟩ := hi.pending hrep
    refine ⟨w, hframe.forth w hw ?_, hcall⟩
    obtain ⟨o, pc⟩ := w
    cases pc <;> first | rfl | cases hcall
  · rw [leaked_frame hl]
    rcases started_cases hinv hs hl hw with hw₀ | ⟨hno, -⟩
    · exact hi.asks w hw₀ (mayGrant_mono (fun hf => finished_step hf hs) hm)
    · -- a worker that has just started
      have hrep : n.reply = none := by
        by_contra hne
        obtain ⟨w₀, hw₀, -⟩ := hi.pending (by simpa [Option.isSome_iff_ne_none] using hne)
        rw [hno] at hw₀
        cases hw₀
      simp [OwnAsAsked, hrep, hi.idle hno]

theorem tracked_step {h : History (Net B) NetLabel} {n n' : Net B} {l : NetLabel}
    (hr : NetRun h n) (hi : Tracked h n) (hc : NoneLeaked h n l) (hs : netStep n l = some n') :
    Tracked ((n, l) :: h) n' := by
  cases netStep_cases hs with
  | @party l s hd hs' =>
    have hinv := inv_run hr.session
    rcases step_cases hinv hs' with ⟨a, w, r, w', rfl, ht, ha, hw, rfl⟩ | ⟨hl, hframe⟩
    · exact hi.worker ht ha hw hs' hd
    · exact hi.callers hinv hl hs' hframe
  | serveGrant hreply hreq hg => exact hi.serve hreply hreq hg hc
  | serveRevoke _ hreq => exact hi.revoked hreq
  | expire => exact hi.shrink (Leases.own_drop_sublist _ _) nofun
  | other hv =>
    refine hi.shrink ?_ nofun
    rw [Leases.own_addOther hv]

/-! ## Main result -/

theorem tracked_run {h : History (Net B) NetLabel} {n : Net B} (hr : NetRun h n)
    (hc : Along NoneLeaked h) : Tracked h n :=
  hr.inv_along (fun _ => tracked_init) (fun hr' hi hc' hs => tracked_step hr' hi hc' hs) hc

/-- With a leaked lease left, a `LeaseGrant` with ID 0 creates a second. -/
theorem noneLeaked_of_atMostOneLease {h : History (Net B) NetLabel} {n n' : Net B} {l : NetLabel}
    (hs : netStep n l = some n') (hp : n'.leases.own.length ≤ 1) : NoneLeaked h n l := by
  intro chosen ttl req hl hreq h0 id _ hown
  subst hl
  cases netStep_cases hs with
  | serveRevoke _ hreq' =>
    rw [hreq] at hreq'
    cases hreq'
  | serveGrant _ hreq' hg =>
    rw [hreq] at hreq'
    cases hreq'
    rcases Leases.grant_cases hg with ⟨hne, -⟩ | ⟨id', -, -, -, -, rfl⟩
    · exact hne h0
    · have hnil : n.leases.own = [] := by simpa using hp
      simp [hnil] at hown

/-- **When retrying a grant creates no second lease.** At most one lease of
the session exists at any time if and only if, whenever the server handles
a `LeaseGrant` with ID 0, no lease is left whose reply was lost. -/
theorem at_most_one_lease_iff {h : History (Net B) NetLabel} {n : Net B} (hr : NetRun h n) :
    Throughout AtMostOneLease h n ↔ Along NoneLeaked h :=
  hr.throughout_iff (J := Tracked) (D := fun _ _ _ => True)
    (fun _ hi => ⟨by simp [AtMostOneLease, hi.2.1], tracked_init hi⟩)
    (fun hr' hi _ hc hs => tracked_step hr' hi hc hs)
    (fun hr' hi _ _ hs =>
      ⟨noneLeaked_of_atMostOneLease hs, fun hc => (tracked_step hr' hi hc hs).len⟩)
    (Along.of_true h)

/-! ## A given id -/

/-- The worker asks for an id, not for any. -/
def AsksForId (s : State B) : Prop :=
  ∀ w, s.thread = .started w → w.pc.mayGrant s.finished = true → w.options.lease ≠ 0

theorem AsksForId.noneLeaked {h : History (Net B) NetLabel} {n : Net B} {l : NetLabel}
    (ha : AsksForId n.session) : NoneLeaked h n l := by
  intro _ _ req _ hreq h0
  obtain ⟨w, b, ht, hpc, hlease⟩ := request_leaseGrant hreq
  exact absurd (hlease.symm.trans h0) (ha w ht (by rw [hpc]; rfl))

/-- It goes on so: the id of a reply is not 0. -/
theorem AsksForId.step {h : History (Net B) NetLabel} {n n' : Net B} {l : NetLabel}
    (hr : NetRun h n) (hi : Tracked h n) (ha : AsksForId n.session) (hs : netStep n l = some n')
    (ho : ∀ o, l = .party (.grant o) → o.lease ≠ 0) : AsksForId n'.session := by
  cases netStep_cases hs with
  | @party l s hd hs' =>
    have hinv := inv_run hr.session
    have hfin := fun hf => finished_step hf hs'
    intro w hw hm
    rcases step_cases hinv hs' with ⟨a, w₀, r, w', rfl, ht, hag, hstep, rfl⟩ | ⟨hl, -⟩
    · cases hw
      cases hg : grantSucceeds (.worker a) with
      | true =>
        cases hstep with
        | @grantOk o b rsp =>
          have hasks := hi.asks _ ht rfl
          rw [reply_of_delivers hd] at hasks
          exact hasks.1
        | _ => cases hg
      | false =>
        obtain ⟨hm₀, hopt⟩ := hstep.mayGrant hag hfin hg hm
        rw [hopt]
        exact ha _ ht hm₀
    · rcases started_cases hinv hs' hl hw with hw₀ | ⟨-, -, o, rfl, rfl⟩
      · exact ha w hw₀ (mayGrant_mono hfin hm)
      · exact ho o rfl
  | _ => exact ha

/-- For a session that asks for a given id, no pattern of losses creates a
second lease. -/
theorem at_most_one_lease_given {h : History (Net B) NetLabel} {n : Net B} (hr : NetRun h n)
    (ho : ∀ m o, (m, .party (.grant o)) ∈ h → o.lease ≠ 0) : Throughout AtMostOneLease h n := by
  have hall : Along NoneLeaked h ∧ AsksForId n.session := by
    induction hr with
    | start hi =>
      obtain ⟨⟨lease, leaseTtl, hs⟩, -⟩ := hi
      refine ⟨trivial, fun w hw => ?_⟩
      rw [hs] at hw
      cases hw
    | next hr' hs ih =>
      obtain ⟨hc, ha⟩ := ih fun m o hm => ho m o (List.mem_cons_of_mem _ hm)
      refine ⟨⟨hc, ha.noneLeaked⟩, ha.step hr' (tracked_run hr' hc) hs fun o hl => ?_⟩
      subst hl
      exact ho _ o List.mem_cons_self
  refine Run.throughout_along (J := Tracked) ?_ ?_ hr hall.1
  · exact fun _ hi => ⟨by simp [AtMostOneLease, hi.2.1], tracked_init hi⟩
  · intro _ _ _ _ hr' hi _ hc hs
    have hnext := tracked_step hr' hi hc hs
    exact ⟨hnext.len, hnext⟩

/-! ## Two runs -/

/-- A `Grant` and the first `LeaseGrant`, which the server handles. -/
def servedScript (options : SessionOptions) (id : Int) : List NetLabel :=
  [.party (.grant options), .party (.worker (.finished false)), .party (.worker (.finished false)),
    .serve id 60]

/-- The reply is lost and the call fails; the worker waits and asks again. -/
def servedAgainScript (id : Int) : List NetLabel :=
  [.party (.worker (.leaseGrant (.error .unavailable))), .party (.worker (.wait false)),
    .party (.worker (.finished false)), .serve id 60]

/-- Asked for 5, the server refuses the second request. -/
theorem at_most_one_lease_refused :
    ∃ h n, exec netStep [] ({ session := State.new 0 0 } : Net .constant)
        (servedScript (SessionOptions.new.withLease 5) 7 ++ servedAgainScript 8) = some (h, n) ∧
      n.leases.own = [5] ∧ leaked h = [5] ∧ Throughout AtMostOneLease h n := by
  refine ⟨_, _, rfl, rfl, rfl, ?_⟩
  refine (at_most_one_lease_iff (Run.exec (.start ⟨⟨0, 0, rfl⟩, rfl, rfl⟩)
    (rfl : exec netStep [] ({ session := State.new 0 0 } : Net .constant)
      (servedScript (SessionOptions.new.withLease 5) 7 ++ servedAgainScript 8) =
        some (_, _)))).mpr ?_
  simp [Along, NoneLeaked, State.request, Pc.request, Client.leaseGrantRequest,
    LeaseGrantOptions.withID, SessionOptions.withLease]

/-- Asked for 0, it creates another lease. -/
theorem second_lease_created :
    ∃ h n, NetRun h n ∧ ¬ Throughout AtMostOneLease h (n : Net .constant) := by
  refine ⟨_, _, Run.exec (.start ⟨⟨0, 0, rfl⟩, rfl, rfl⟩)
    (rfl : exec netStep [] ({ session := State.new 0 0 } : Net .constant)
      (servedScript SessionOptions.new 7 ++ servedAgainScript 8) = some (_, _)), fun ht => ?_⟩
  have hlen : (2 : Nat) ≤ 1 := ht.last
  omega

end

end Etcdv3Client
