import Etcdv3Client.Session.Lifecycle

/-!
# Closing

From the moment the close event is finished the worker comes to no call
without a test of it, so that all it may still do is the one call it was
about to make, and then revoke. A grant that comes too late is not
announced.
-/

namespace Etcdv3Client

open Transition

section
variable {B : BackOffStrategy}

/-! ## The calls made since closing -/

/-- The calls of the worker that start or use an RPC. -/
inductive Call where
  | leaseGrant
  | leaseKeepAlive
  | write
  | leaseRevoke
deriving DecidableEq, Repr

def Pc.call : Pc B → Option Call
  | .leaseGrant _ => some .leaseGrant
  | .openStream _ => some .leaseKeepAlive
  | .write _ => some .write
  | .leaseRevoke _ _ _ => some .leaseRevoke
  | _ => none

/-- The call the worker is about to make. -/
def State.call (s : State B) : Option Call :=
  match s.thread with
  | .started w => w.pc.call
  | _ => none

/-- The worker's calls made while the close event was finished, newest
first. -/
def callsWhileFinished : History (State B) Label → List Call
  | [] => []
  | (s, .worker _) :: h =>
      if s.finished then s.call.toList ++ callsWhileFinished h else callsWhileFinished h
  | _ :: h => callsWhileFinished h

/-- The same with the call about to be made. -/
def callsSinceClosing (h : History (State B) Label) (s : State B) : List Call :=
  if s.finished then s.call.toList ++ callsWhileFinished h else callsWhileFinished h

/-- A `LeaseGrant` has succeeded while the close event was finished. -/
def lateGrant : History (State B) Label → Bool
  | [] => false
  | (s, l) :: h => s.finished && grantSucceeds l || lateGrant h

/-- The calls that closing should end. -/
def Call.isAction : Call → Bool
  | .leaseRevoke => false
  | _ => true

theorem callsWhileFinished_frame {h : History (State B) Label} {s : State B} {l : Label}
    (hl : ∀ a, l ≠ .worker a) : callsWhileFinished ((s, l) :: h) = callsWhileFinished h := by
  cases l with
  | worker a => exact absurd rfl (hl a)
  | _ => rfl

/-! ## The test before each call -/

/-- The worker comes to such a call only from a test of the close event
that found it unfinished. -/
theorem WorkerStep.comes_to_action {s s' : Session} {w w' : Worker B} {a : Answer} {c : Call}
    (hw : WorkerStep s w a s' w') (hc : w'.pc.call = some c) (hact : c.isAction = true) :
    a = .finished false ∨ a = .wait false := by
  cases hw with
  | grantLoopOpen => exact Or.inl rfl
  | keepAliveLoopOpen => exact Or.inl rfl
  | keepAliveWaitOver => exact Or.inr rfl
  | _ => cases hc <;> cases hact

/-- While the close event is unfinished nothing is counted; once it is, the
calls are revokes but for the first, and there is none yet where the worker
is about to make another one. -/
structure WindingDown (h : History (State B) Label) (s : State B) : Prop where
  open_ : s.finished = false → callsWhileFinished h = []
  first : ∀ c, s.call = some c → c.isAction = true → callsWhileFinished h = []
  shape : ∃ revokes actions, callsWhileFinished h = revokes ++ actions ∧
    (∀ c ∈ revokes, c = .leaseRevoke) ∧ actions.length ≤ 1

/-- One more call: a revoke after any calls, an action after none. -/
theorem shape_cons {c : Call} {cs : List Call}
    (hfirst : c.isAction = true → cs = [])
    (hshape : ∃ revokes actions, cs = revokes ++ actions ∧
      (∀ c ∈ revokes, c = Call.leaseRevoke) ∧ actions.length ≤ 1) :
    ∃ revokes actions, c :: cs = revokes ++ actions ∧
      (∀ c ∈ revokes, c = Call.leaseRevoke) ∧ actions.length ≤ 1 := by
  cases hc : c.isAction with
  | true => exact ⟨[], [c], by simp [hfirst hc], by simp, by simp⟩
  | false =>
    obtain ⟨revokes, actions, rfl, hrev, hlen⟩ := hshape
    have hcrev : c = .leaseRevoke := by
      cases c <;> first | rfl | cases hc
    exact ⟨c :: revokes, actions, rfl, by simpa [hcrev] using hrev, hlen⟩

theorem windingDown_init {s : State B} (h : Init s) : WindingDown [] s := by
  obtain ⟨lease, leaseTtl, rfl⟩ := h
  exact ⟨fun _ => rfl, fun _ _ _ => rfl, [], [], rfl, by simp, by simp⟩

theorem windingDown_step {h : History (State B) Label} {s s' : State B} {l : Label}
    (hinv : Inv s) (hi : WindingDown h s) (hs : step s l = some s') :
    WindingDown ((s, l) :: h) s' := by
  have hfin : s.finished = true → s'.finished = true := fun hf => finished_step hf hs
  rcases step_cases hinv hs with ⟨a, w, r, w', rfl, ht, ha, hw, rfl⟩ | ⟨hl, hframe⟩
  · have hcall : s.call = w.pc.call := by rw [State.call, ht]
    cases hf : s.finished with
    | false =>
      have hnil : callsWhileFinished ((s, Label.worker a) :: h) = [] := by
        simp [callsWhileFinished, hf, hi.open_ hf]
      exact ⟨fun _ => hnil, fun _ _ _ => hnil, [], [], hnil, by simp, by simp⟩
    | true =>
      refine ⟨fun hf' => ?_, fun c hc hact => ?_, ?_⟩
      · rw [hfin hf] at hf'
        cases hf'
      · -- no action is reached, the tests find the event finished
        rcases hw.comes_to_action hc hact with rfl | rfl <;> simp [Answer.agrees, hf] at ha
      · rw [callsWhileFinished, if_pos hf]
        cases hc : s.call with
        | none => exact hi.shape
        | some c => exact shape_cons (hi.first c hc) hi.shape
  · have hsame := callsWhileFinished_frame (h := h) (s := s) hl
    refine ⟨fun hf' => ?_, fun c hc hact => ?_, ?_⟩
    · rw [hsame]
      refine hi.open_ ?_
      by_contra hf
      rw [hfin (by simpa using hf)] at hf'
      cases hf'
    · rw [hsame]
      refine hi.first c ?_ hact
      unfold State.call at hc ⊢
      cases ht : s'.thread with
      | none => simp [ht] at hc
      | joined => simp [ht] at hc
      | started w =>
        rw [ht] at hc
        rcases hframe.back w ht with hw₀ | hloop
        · rw [hw₀]
          exact hc
        · simp [hloop, Pc.call] at hc
    · rw [hsame]
      exact hi.shape

theorem windingDown_run {h : History (State B) Label} {s : State B} (hr : SRun h s) :
    WindingDown h s :=
  hr.inv (fun _ => windingDown_init) fun hr' hi hs => windingDown_step (inv_run hr') hi hs

/-! ## Late grants -/

/-- The counters the worker can be at after a grant that came too late. -/
def Pc.unwinding : Pc B → Bool
  | .granted | .loop | .leaseRevoke _ _ _ | .revokeSleep _ _ _ _ | .setClosed | .ended => true
  | _ => false

/-- Once the close event is finished the worker leaves `TryGrant` for
`TryRevoke`. -/
theorem WorkerStep.unwinds {s s' : Session} {w w' : Worker B} {a : Answer}
    (hw : WorkerStep s w a s' w') (ha : a.agrees true = true) (hpc : w.pc.unwinding = true) :
    w'.pc.unwinding = true ∧ grantSucceeds (.worker a) = false := by
  cases hw with
  | loopOpen => cases ha
  | grantedOpen => cases ha
  | _ => first | exact ⟨rfl, rfl⟩ | cases hpc

theorem WorkerStep.granted {s s' : Session} {w w' : Worker B} {a : Answer}
    (hw : WorkerStep s w a s' w') (hg : grantSucceeds (.worker a) = true) :
    w'.pc.unwinding = true := by
  cases hw with
  | grantOk => rfl
  | _ => cases hg

/-- After a late grant the close event is finished and the worker unwinds. -/
def Late (h : History (State B) Label) (s : State B) : Prop :=
  lateGrant h = true → s.finished = true ∧ ∀ w, s.thread = .started w → w.pc.unwinding = true

theorem late_step {h : History (State B) Label} {s s' : State B} {l : Label}
    (hr : SRun h s) (hi : Late h s) (hs : step s l = some s') : Late ((s, l) :: h) s' := by
  have hinv := inv_run hr
  have hfin : s.finished = true → s'.finished = true := fun hf => finished_step hf hs
  intro hlate
  rw [lateGrant, Bool.or_eq_true, Bool.and_eq_true] at hlate
  rcases step_cases hinv hs with ⟨a, w, r, w', rfl, ht, ha, hw, rfl⟩ | ⟨hl, hframe⟩
  · rcases hlate with ⟨hf, hg⟩ | hold
    · refine ⟨hfin hf, fun w₁ hw₁ => ?_⟩
      cases hw₁
      exact hw.granted hg
    · obtain ⟨hf, hpc⟩ := hi hold
      refine ⟨hfin hf, fun w₁ hw₁ => ?_⟩
      cases hw₁
      exact (hw.unwinds (hf ▸ ha) (hpc w ht)).1
  · have hold : lateGrant h = true := by
      refine hlate.resolve_left fun ⟨_, hg⟩ => ?_
      cases l with
      | worker a => exact hl a rfl
      | _ => cases hg
    obtain ⟨hf, hpc⟩ := hi hold
    refine ⟨hfin hf, fun w hw => ?_⟩
    rcases hframe.back w hw with hw₀ | hloop
    · exact hpc w hw₀
    · rw [hloop]
      rfl

theorem late_run {h : History (State B) Label} {s : State B} (hr : SRun h s) : Late h s :=
  hr.inv (fun _ _ hlate => by cases hlate) fun hr' hi hs => late_step hr' hi hs

/-- The step does not announce a lease granted too late. -/
def AnnouncesInTime (h : History (State B) Label) (s : State B) (l : Label) : Prop :=
  setsAlive s l = true → lateGrant h = false

theorem announcesInTime {h : History (State B) Label} {s : State B} {l : Label}
    (hr : SRun h s) : AnnouncesInTime h s l := by
  intro hset
  by_contra hlate
  obtain ⟨-, hpc⟩ := late_run hr (by simpa using hlate)
  unfold setsAlive at hset
  split at hset
  · rename_i ht
    exact Bool.noConfusion (hpc _ ht)
  · cases hset

/-! ## Main result -/

/-- **A closing session winds down at once.** Once the close event is
finished the worker makes at most one call that is not a revoke, before all
its revokes; and a lease granted after that is never announced. -/
theorem closing_winds_down {h : History (State B) Label} {s : State B} (hr : SRun h s) :
    (∃ revokes actions, callsSinceClosing h s = revokes ++ actions ∧
      (∀ c ∈ revokes, c = .leaseRevoke) ∧ actions.length ≤ 1) ∧
    Along AnnouncesInTime h := by
  refine ⟨?_, ?_⟩
  · have hi := windingDown_run hr
    unfold callsSinceClosing
    split
    · cases hc : s.call with
      | none => exact hi.shape
      | some c => exact shape_cons (hi.first c hc) hi.shape
    · exact hi.shape
  · induction hr with
    | start => trivial
    | next hr hs ih => exact ⟨ih, announcesInTime hr⟩

/-- Closed while `LeaseGrant` is under way, up to the revoke. -/
def lateGrantScript : List Label :=
  [.grant .new, .worker (.finished false), .worker (.finished false), .close,
    .worker (.leaseGrant (.ok { id := 7, ttl := 60 })), .worker (.finished true),
    .worker (.finished true)]

/-- The lease comes too late and is revoked. -/
theorem closing_winds_down_late :
    ∃ h s, exec step [] (State.new 5 0 : State .constant) lateGrantScript = some (h, s) ∧
      lateGrant h = true ∧ callsSinceClosing h s = [.leaseRevoke, .leaseGrant] ∧
      Along AnnouncesInTime h := by
  refine ⟨_, _, rfl, rfl, rfl, ?_⟩
  exact (closing_winds_down (Run.exec (.start ⟨5, 0, rfl⟩)
    (rfl : exec step [] (State.new 5 0 : State .constant) lateGrantScript = some (_, _)))).2

end

end Etcdv3Client
