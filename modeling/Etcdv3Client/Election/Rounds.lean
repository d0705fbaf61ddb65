import Etcdv3Client.Election.Delivery

/-!
# Rounds against a store

What is assumed of the server where `Watch` alone is looked at holds of the
server of the system: a reply is of the newest revision when it is made, a
stream delivers events of the history from its `start_revision` on, and none
of them was created after it was modified. So the rounds of `Watch` are
counted by the revisions of the store.
-/

namespace Etcdv3Client

namespace Election

open Transition

section
variable {B : BackOffStrategy}

/-! ## The assumptions -/

/-- The events delivered are of the history, from the start of their request
on, and a reply under way is no older than any of them. -/
structure Delivered (h : History (Sys B) SysLabel) (n : Sys B) : Prop where
  replying : n.reply.isSome = true → n.watch.pc = .getLeader
  log : ∀ p ∈ watchSteps h, ∀ event ∈ p.2.events, event ∈ n.mvcc.log
  reply : ∀ rsp, n.reply = some rsp → ∀ p ∈ watchSteps h, ∀ event ∈ p.2.events,
    event.kv.modRevision ≤ rsp.header.revision

theorem delivered_init {call : Call} {n : Sys B} (hi : SysInit call n) : Delivered [] n := by
  obtain ⟨-, -, hreply, -⟩ := hi
  refine ⟨?_, ?_, ?_⟩ <;> simp [hreply, watchSteps]

/-- What is delivered is of the history. -/
theorem events_mem {S : Server} {call : Call} {n n' : Sys B} {a : Answer}
    (hs : sysStep S call n (.party a) = some n') : ∀ event ∈ a.events, event ∈ n.mvcc.log := by
  intro event hevent
  cases sysStep_cases hs with
  | read _ _ hevents _ =>
    exact (Cursor.mem_pending ((Watcher.prefix_of_pending hevents).subset hevent)).1
  | _ => cases hevent

/-- In `GetLeader`, `Watch` takes the answer of its `Range` only. -/
theorem step_getLeader {call : Call} {s s' : State B} {a : Answer} (hpc : s.pc = .getLeader)
    (hs : step call s a = some s') : ∃ r, a = .range r := by
  cases step_iff.mp hs with
  | leader => exact ⟨_, rfl⟩
  | leaderError => exact ⟨_, rfl⟩
  | _ => cases hpc

/-- A reply that is under way was there before, and `Watch` took no step; or
the server has just made it. -/
theorem reply_step {S : Server} {call : Call} {n n' : Sys B} {l : SysLabel}
    (hi : n.reply.isSome = true → n.watch.pc = .getLeader) (hs : sysStep S call n l = some n')
    {rsp : RangeResponse} (hrsp : n'.reply = some rsp) :
    (n.reply = some rsp ∧ ∀ a, l ≠ .party a) ∨
      l = .serve ∧ n.watch.pc = .getLeader ∧ n'.mvcc = n.mvcc ∧
        n.mvcc.Reads (leaderRequest call.char call.keyPrefix) rsp := by
  rcases sysStep_watch hs with ⟨a, rfl, hw⟩ | ⟨hl, -⟩
  · have hno : ∀ r, a = .range r → n'.reply = none := by
      intro r hr
      subst hr
      cases sysStep_cases hs <;> rfl
    have hsame : (∀ r, a ≠ .range r) → n'.reply = n.reply := by
      intro ha
      cases sysStep_cases hs with
      | range => exact absurd rfl (ha _)
      | rangeError => exact absurd rfl (ha _)
      | _ => rfl
    by_cases ha : ∃ r, a = .range r
    · obtain ⟨r, hr⟩ := ha
      rw [hno r hr] at hrsp
      cases hrsp
    · have hreply := hsame fun r hr => ha ⟨r, hr⟩
      rw [hreply] at hrsp
      exact absurd (step_getLeader (hi (by rw [hrsp]; rfl)) hw) ha
  · cases sysStep_cases hs with
    | serve hreq _ hrange =>
      obtain ⟨hpc, rfl⟩ := request_range hreq
      cases hrsp
      exact Or.inr ⟨rfl, hpc, rfl, S.range_reads (leaderRequest_newest _ _).1 hrange⟩
    | create => exact Or.inl ⟨hrsp, hl⟩
    | cancel => exact Or.inl ⟨hrsp, hl⟩
    | commit => exact Or.inl ⟨hrsp, hl⟩
    | _ => exact absurd rfl (hl _)

/-- While a reply is under way `Watch` waits for it. -/
theorem replying_step {S : Server} {call : Call} {n n' : Sys B} {l : SysLabel}
    (hi : n.reply.isSome = true → n.watch.pc = .getLeader) (hs : sysStep S call n l = some n')
    (hreply : n'.reply.isSome = true) : n'.watch.pc = .getLeader := by
  obtain ⟨rsp, hrsp⟩ := Option.isSome_iff_exists.mp hreply
  have hwatch : (∀ a, l ≠ .party a) → n'.watch = n.watch := by
    intro hl
    rcases sysStep_watch hs with ⟨a, rfl, -⟩ | ⟨-, hsame⟩
    · exact absurd rfl (hl a)
    · exact hsame
  rcases reply_step hi hs hrsp with ⟨hold, hl⟩ | ⟨rfl, hpc, -⟩
  · rw [hwatch hl]
    exact hi (by rw [hold]; rfl)
  · rw [hwatch nofun]
    exact hpc

/-- What `Watch` has been delivered after one more step. -/
theorem mem_watchSteps {n : Sys B} {l : SysLabel} {h : History (Sys B) SysLabel}
    {p : State B × Answer} (hp : p ∈ watchSteps ((n, l) :: h)) :
    (∃ a, l = .party a ∧ p = (n.watch, a)) ∨ p ∈ watchSteps h := by
  cases l with
  | party a =>
    rcases List.mem_cons.mp hp with rfl | hp
    · exact Or.inl ⟨a, rfl, rfl⟩
    · exact Or.inr hp
  | _ => exact Or.inr hp

theorem log_step {S : Server} {call : Call} {n n' : Sys B} {l : SysLabel}
    (hs : sysStep S call n l = some n') : n.mvcc.log <+: n'.mvcc.log := by
  rcases sysStep_mvcc hs with hsame | ⟨⟨events, hlater⟩, -⟩
  · rw [hsame]
  · rw [hlater.log]
    exact List.prefix_append _ _

theorem delivered_step {S : Server} {call : Call} {h : History (Sys B) SysLabel} {n n' : Sys B}
    {l : SysLabel} (hw : n.mvcc.Wf) (hi : Delivered h n) (hs : sysStep S call n l = some n') :
    Delivered ((n, l) :: h) n' := by
  have hlog : ∀ p ∈ watchSteps ((n, l) :: h), ∀ event ∈ p.2.events, event ∈ n.mvcc.log := by
    intro p hp event hevent
    rcases mem_watchSteps hp with ⟨a, rfl, rfl⟩ | hp
    · exact events_mem hs event hevent
    · exact hi.log p hp event hevent
  refine ⟨replying_step hi.replying hs, ?_, ?_⟩
  · intro p hp event hevent
    exact (log_step hs).subset (hlog p hp event hevent)
  · intro rsp hrsp p hp event hevent
    rcases reply_step hi.replying hs hrsp with ⟨hold, hl⟩ | ⟨rfl, -, -, hreads⟩
    · rcases mem_watchSteps hp with ⟨a, rfl, -⟩ | hp
      · exact absurd rfl (hl a)
      · exact hi.reply rsp hold p hp event hevent
    · -- the reply is of the newest revision
      rw [hreads.header]
      exact (hw.events event (hlog p hp event hevent)).2.2

theorem delivered_run {S : Server} {call : Call} {h : History (Sys B) SysLabel} {n : Sys B}
    (hr : SysRun S call h n) : Delivered h n :=
  hr.inv (P := Delivered) (fun _ hi => delivered_init hi)
    (fun hr hi hs => delivered_step (wf_run hr) hi hs)

/-! ## They hold -/

theorem headersCover_step {S : Server} {call : Call} {h : History (Sys B) SysLabel}
    {n n' : Sys B} {a : Answer} (hr : SysRun S call h n)
    (hs : sysStep S call n (.party a) = some n') : HeadersCover (watchSteps h) n.watch a := by
  intro rsp hrsp m hm
  obtain ⟨p, hp, hm⟩ := List.mem_flatMap.mp hm
  obtain ⟨event, hevent, rfl⟩ := List.mem_map.mp hm
  cases sysStep_cases hs with
  | range hreply _ =>
    cases hrsp
    exact (delivered_run hr).reply _ hreply p hp event hevent
  | _ => cases hrsp

theorem fromStart_step {S : Server} {call : Call} {h : History (Sys B) SysLabel}
    {n n' : Sys B} {a : Answer} (hr : SysRun S call h n)
    (hs : sysStep S call n (.party a) = some n') : FromStart call (watchSteps h) n.watch a := by
  intro o ho event hevent
  cases sysStep_cases hs with
  | @read _ since _ _ hstream hsince hevents hw =>
    have hpc : ∃ e, n.watch.pc = .read o e := by
      cases hpc : n.watch.pc with
      | read o' e =>
        rw [hpc] at ho
        cases ho
        exact ⟨e, rfl⟩
      | _ => simp [step, hpc] at hw
    obtain ⟨e, hpc⟩ := hpc
    obtain ⟨wr, hwr, hreads⟩ := reading_run hr o e hpc
    cases hstream.symm.trans hwr
    have hcarries := (Cursor.mem_pending ((Watcher.prefix_of_pending hevents).subset hevent)).2
    rw [hreads.req_eq] at hcarries
    have hlow := (WatchCreateRequest.carries_iff.mp hcarries).1
    rcases (hreads.passed since hsince).1 with hstart | ⟨h0, hpos⟩
    · exact hstart ▸ hlow
    · -- "now" is past revision 0
      show (roundRequest call o).startRevision ≤ event.kv.modRevision
      rw [h0]
      exact (zero_le_one.trans hpos).trans hlow
  | _ => cases hevent

theorem createdFirst_step {S : Server} {call : Call} {h : History (Sys B) SysLabel}
    {n n' : Sys B} {a : Answer} (hr : SysRun S call h n)
    (hs : sysStep S call n (.party a) = some n') : CreatedFirst (watchSteps h) n.watch a :=
  fun event hevent => ((wf_run hr).events event (events_mem hs event hevent)).1

/-- **The server of the system meets every assumption**, at each step of
`Watch`. -/
theorem assumptions_run {S : Server} {call : Call} {h : History (Sys B) SysLabel} {n : Sys B}
    (hr : SysRun S call h n) :
    Along (fun h s a => HeadersCover h s a ∧ FromStart call h s a ∧ CreatedFirst h s a)
      (watchSteps h) := by
  induction hr with
  | start _ => trivial
  | @next h n n' l hr hs ih =>
    cases l with
    | party a =>
      exact ⟨ih, headersCover_step hr hs, fromStart_step hr hs, createdFirst_step hr hs⟩
    | _ => exact ih

/-! ## Counting the rounds -/

/-- Each round ends on a revision of the store, later than those before. -/
theorem rounds_of_store {S : Server} {call : Call} {h : History (Sys B) SysLabel} {n : Sys B}
    (hr : SysRun S call h n) (hlead : Along LeaderFound (watchSteps h)) :
    (endedMods (watchSteps h)).Pairwise (· > ·) ∧
      ((endedMods (watchSteps h)).length : Int) ≤ n.mvcc.revision := by
  have hassumed := assumptions_run hr
  have hd : Along HeadersCover (watchSteps h) := hassumed.imp fun _ _ _ hc => hc.1
  have hf : Along (FromStart call) (watchSteps h) := hassumed.imp fun _ _ _ hc => hc.2.1
  have hc : Along (LeaderAfterRound call) (watchSteps h) :=
    (leaderAfterRound_iff (hassumed.imp fun _ _ _ hc => hc.2.2)).mpr hlead
  have hpos := (wf_run hr).positive
  have hcount : (endedMods (watchSteps h)).length ≤ n.mvcc.revision.toNat := by
    apply rounds_le hr.watch hd hc hf
    intro m hm
    obtain ⟨p, hp, hm⟩ := List.mem_flatMap.mp hm
    obtain ⟨event, hevent, rfl⟩ := List.mem_map.mp hm
    obtain ⟨-, hlow, hhigh⟩ := (wf_run hr).events event ((delivered_run hr).log p hp event hevent)
    exact ⟨hlow, by omega⟩
  exact ⟨endedMods_pairwise hr.watch hd hc hf, by omega⟩

/-- **The rounds are counted by the store.** In every run of `Watch` against
a changing store in which no read after a round leaves it without a leader,
each round ends on a later revision than those before, and there are no more
rounds than the store has revisions: once it changes no more, `Watch` goes
round no more. -/
theorem rounds_le_revision {S : Server} {call : Call} {h : History (Sys B) SysLabel} {n : Sys B}
    (hr : SysRun S call h n) (hlead : Along LeaderFound (watchSteps h)) :
    (endedMods (watchSteps h)).Pairwise (· > ·) ∧
      ((endedMods (watchSteps h)).length : Int) ≤ n.mvcc.revision :=
  rounds_of_store hr hlead

/-- It goes at 3, and another comes at 4. -/
def handoverScript : List SysLabel :=
  firstReadScript ++
    [.commit (.request (.deleteRange { key := [0x61] })),
      .commit (.request (.put { key := [0x61, 0x62], lease := 2 })),
      .party (.read (some { events := [⟨.delete, { key := [0x61], modRevision := 3 }⟩] })),
      .party (.finish .cancelled), .serve,
      .party (reply 4
        [{ key := [0x61, 0x62], createRevision := 4, modRevision := 4, version := 1, lease := 2 }])]

/-- A caller that has seen the first of them is told the second. -/
theorem rounds_le_revision_handover :
    ∃ h n, exec (sysStep sampleServer (electionA 2)) [] (freshSys (electionA 2))
        handoverScript = some (h, n) ∧
      n.watch.status = some {} ∧ n.watch.node.createRevision = 4 ∧
      ((endedMods (watchSteps h)).length : Int) ≤ n.mvcc.revision := by
  have hrun : (exec (sysStep sampleServer (electionA 2)) [] (freshSys (electionA 2))
      handoverScript).map (fun r => (r.2.watch.status, r.2.watch.node.createRevision,
        decide (Along LeaderFound (watchSteps r.1)))) = some (some {}, 4, true) := by
    decide +kernel
  obtain ⟨⟨h, n⟩, hexec, heq⟩ := Option.map_eq_some_iff.mp hrun
  simp only [Prod.mk.injEq, decide_eq_true_eq] at heq
  obtain ⟨hstatus, hcreate, hlead⟩ := heq
  exact ⟨h, n, hexec, hstatus, hcreate,
    (rounds_le_revision (Run.exec (.start (sysInit_fresh _)) hexec) hlead).2⟩

end

end Election

end Etcdv3Client
