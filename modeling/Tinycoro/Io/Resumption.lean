import Tinycoro.Io.Scheduling
import Tinycoro.Io.Completion
import Tinycoro.Library.Alternation
import Mathlib.Data.Finset.Prod

/-! No coroutine is resumed twice for one suspension, and `run` never finds itself
without a source that could wake a root. -/
namespace Tinycoro.Io

open Effect Transition World Threads Placement Alternation

section History

/-- A coroutine begins to wait for a resumption: it is created or suspends. -/
def Opens (h : Nat) (o : Obs) : Prop := o = .created h ∨ o = .suspended h

def Uses (h : Nat) (o : Obs) : Prop := o = .resumed h

/-- The frame can be resumed. -/
def Status.resting : Status → Bool
  | .created | .suspended | .awaiting _ => true
  | .running | .done => false

def Obs.turns : Obs → Bool
  | .created _ | .suspended _ | .resumed _ => true
  | _ => false

/-- What can be resumed has not been resumed since it began to wait. -/
structure History (w : World) (trace : List Obs) : Prop where
  rested : ∀ {h status}, statuses w.nodes h = some status → status.resting = true →
    Fresh (Opens h) (Uses h) trace
  alternates : ∀ h, Alternates (Opens h) (Uses h) trace

variable {short : Prop} {wrap : Wrap} {w w' : World} {fd : Int} {event : Event} {faults : Faults}
  {label : Label} {trace events : List Obs}

theorem not_uses {h : Nat} {o : Obs} (hTurns : o.turns = false) : ¬Uses h o := by
  rintro rfl
  cases hTurns

theorem opens_not_uses {h : Nat} {o : Obs} (hOpens : Opens h o) : ¬Uses h o := by
  rcases hOpens with rfl | rfl <;> exact nofun

variable {e : Obs}

theorem fault_turns (h : ∃ f, e = .fault f) : e.turns = false := by
  obtain ⟨f, rfl⟩ := h
  rfl

theorem settle_turns {result : Bool} (h : e ∈ (w.settle faults fd event result).events) :
    e.turns = false := by
  rcases settle_events h with ⟨f, rfl⟩ | ⟨waitSlot, -, rfl⟩ <;> rfl

theorem armWait_turns {address : Nat} {timeout : Int} {a b : Option Nat}
    (h : e ∈ (w.armWait wrap faults address fd event timeout a b).events) : e.turns = false := by
  rcases armWait_events h with ⟨f, rfl⟩ | ⟨token, rfl⟩ <;> rfl

theorem toUser_turns {o : IoOutcome} (h : ∀ e ∈ o.events, e.turns = false) :
    ∀ e ∈ (toUser o).2, e.turns = false := by
  obtain ⟨last, hEq, hLast⟩ := toUser_events o
  rw [hEq]
  intro e he
  rcases List.mem_append.mp he with he | he
  · exact h e he
  · obtain ⟨x, rfl⟩ := hLast e he
    rfl

theorem Elsewhere.nodes {A : Set Nat} (h : Elsewhere fd A w w') : w'.nodes = w.nodes := by
  funext a
  have hCore := congrArg (Option.map Frame.node) (h.frames a)
  rw [Option.map_map, Option.map_map] at hCore
  exact hCore

namespace History

/-- Nobody is resumed and nobody begins to wait. -/
theorem quiet (inv : History w trace) (hEvents : ∀ e ∈ events, e.turns = false)
    (hRested : ∀ {h status}, statuses w'.nodes h = some status → status.resting = true →
      ∃ old, statuses w.nodes h = some old ∧ old.resting = true) :
    History w' (trace ++ events) where
  rested hStatus hResting := by
    obtain ⟨old, hOld, hOldResting⟩ := hRested hStatus hResting
    exact (inv.rested hOld hOldResting).append (fun e he => not_uses (hEvents e he))
  alternates h := (inv.alternates h).append (fun e he => not_uses (hEvents e he))

theorem quiet_same (inv : History w trace) (hEvents : ∀ e ∈ events, e.turns = false)
    (hNodes : w'.nodes = w.nodes) : History w' (trace ++ events) :=
  inv.quiet hEvents (fun hStatus hResting => ⟨_, hNodes ▸ hStatus, hResting⟩)

variable {h : Nat}

/-- One coroutine begins to wait. -/
theorem opens (inv : History w trace) {o : Obs} (hOpens : Opens h o)
    (hRested : ∀ {a status}, a ≠ h → statuses w'.nodes a = some status → status.resting = true →
      ∃ old, statuses w.nodes a = some old ∧ old.resting = true) : History w' (trace ++ [o]) where
  rested := by
    intro a status hStatus hResting
    by_cases hEq : a = h
    · exact hEq ▸ Fresh.open trace hOpens
    · obtain ⟨old, hOld, hOldResting⟩ := hRested hEq hStatus hResting
      refine (inv.rested hOld hOldResting).append (fun e he => ?_)
      rw [List.mem_singleton.mp he]
      rcases hOpens with rfl | rfl <;> exact nofun
  alternates a := by
    refine (inv.alternates a).append (fun e he => ?_)
    rw [List.mem_singleton.mp he]
    rcases hOpens with rfl | rfl <;> exact nofun

/-- One coroutine that waited is resumed. -/
theorem resumes (inv : History w trace) {status : Status}
    (hStatus : statuses w.nodes h = some status) (hResting : status.resting = true)
    (hRested : ∀ {a status}, statuses w'.nodes a = some status → status.resting = true →
      a ≠ h ∧ ∃ old, statuses w.nodes a = some old ∧ old.resting = true) :
    History w' (trace ++ [.resumed h]) where
  rested := by
    intro a new hNew hNewResting
    obtain ⟨hNe, old, hOld, hOldResting⟩ := hRested hNew hNewResting
    refine (inv.rested hOld hOldResting).append (fun e he => ?_)
    rw [List.mem_singleton.mp he]
    exact fun hUses => hNe (Obs.resumed.inj hUses).symm
  alternates a := by
    by_cases hEq : a = h
    · subst hEq
      exact (inv.alternates a).use (inv.rested hStatus hResting) opens_not_uses _
    · refine (inv.alternates a).append (fun e he => ?_)
      rw [List.mem_singleton.mp he]
      exact fun hUses => hEq (Obs.resumed.inj hUses).symm

/-- Only frames that rested before rest after a frame stops resting. -/
theorem of_update {nodes : Nat → Option Node} {a : Nat} {new : Option Node} {status : Status}
    (hNew : ∀ {node}, new = some node → node.status.resting = false)
    (hStatus : statuses (Function.update nodes h new) a = some status)
    (hResting : status.resting = true) : a ≠ h ∧ statuses nodes a = some status := by
  rw [statuses_update] at hStatus
  by_cases hEq : a = h
  · rw [hEq, Function.update_self] at hStatus
    obtain ⟨node, hNode, rfl⟩ := Option.map_eq_some_iff.mp hStatus
    rw [hNew hNode] at hResting
    cases hResting
  · rw [Function.update_of_ne hEq] at hStatus
    exact ⟨hEq, hStatus⟩

theorem of_update_ne {nodes : Nat → Option Node} {a : Nat} {new : Option Node} (hNe : a ≠ h) :
    statuses (Function.update nodes h new) a = statuses nodes a := by
  rw [statuses_update, Function.update_of_ne hNe]

theorem create (inv : History w trace) {h : Nat} :
    History { w with frames := Function.update w.frames h (some .create) }
    (trace ++ [.created h]) := by
  refine inv.opens (.inl rfl) (fun hNe hStatus hResting => ⟨_, ?_, hResting⟩)
  rwa [Scheduled.nodes_update, of_update_ne hNe] at hStatus

/-- A frame is destroyed. -/
theorem destroy (inv : History w trace) (hFrames : w'.frames = Function.update w.frames h none) :
    History w' (trace ++ []) := by
  have hNodes : w'.nodes = Function.update w.nodes h none := by
    rw [← Option.map_none (f := Frame.node), ← Scheduled.nodes_update, ← hFrames]
    rfl
  refine inv.quiet nofun (fun hStatus hResting => ⟨_, ?_, hResting⟩)
  rw [hNodes] at hStatus
  exact (of_update (fun hNew => by cases hNew) hStatus hResting).2

theorem spawn (inv : History w trace) {task : Option Nat} {fails : Bool} :
    History (w.spawn fails task).state (trace ++ []) := by
  unfold World.spawn
  split
  · exact inv.quiet_same nofun rfl
  · rename_i h
    split_ifs
    · exact inv.destroy rfl
    · exact inv.destroy rfl
    · refine inv.quiet nofun (fun {a status} hStatus hResting => ⟨status, ?_, hResting⟩)
      have hSame : statuses (w.setFrame h (fun frame => { frame with completion := true })).nodes =
          statuses w.nodes := by
        rw [nodes_setFrame, statuses_update, Option.map_map]
        exact Function.update_eq_iff.mpr ⟨by simp [statuses, World.nodes]; rfl, fun _ _ => rfl⟩
      exact hSame ▸ hStatus

/-- The awaiting coroutine suspends and the awaited one begins its first turn. -/
theorem await (inv : History w trace) (sched : Scheduled short w) {h left child : Nat}
    (hControl : w.control = .running h left) (hFree : w.isFreeTask child = true) :
    History { (w.setStatus h (.awaiting child)).setFrame child
        (fun frame => { frame with status := .running, continuation := some h }) with
      control := .running child left } (trace ++ [.suspended h, .resumed child]) := by
  obtain ⟨frame, hFrame, hStatus⟩ := sched.running_frame hControl
  obtain ⟨task, hTask, hRole, hCompletion⟩ := sched.free_of_isFreeTask hFree
  have hCreated : task.status = .created := (sched.threaded.sound
      (Scheduled.nodes_of_frame hTask)).free hRole
  have hNe : child ≠ h := by
    rintro rfl
    rw [hFrame] at hTask
    cases hTask
    rw [hStatus] at hCreated
    cases hCreated
  -- the caller is suspended first, then the child is resumed
  have hSuspended : History (w.setStatus h (.awaiting child)) (trace ++ [.suspended h]) := by
    refine inv.opens (.inr rfl) (fun hNe hStatus hResting => ⟨_, ?_, hResting⟩)
    rwa [Scheduled.nodes_setStatus (Scheduled.nodes_of_frame hFrame), of_update_ne hNe] at hStatus
  have hNodes := Scheduled.nodes_setStatus (Scheduled.nodes_of_frame hFrame) (.awaiting child)
  have hResting : statuses (w.setStatus h (.awaiting child)).nodes child = some .created := by
    rw [hNodes, of_update_ne hNe, statuses_of_node (Scheduled.nodes_of_frame hTask)]
    exact congrArg some hCreated
  rw [← List.singleton_append, ← List.append_assoc]
  refine hSuspended.resumes hResting rfl (fun {a status} hStatus' hResting' => ?_)
  have hAfter := Scheduled.nodes_await hFrame hTask hNe hCompletion
  rw [← hNodes] at hAfter
  have hOther : statuses (Function.update (w.setStatus h (.awaiting child)).nodes child
    (some { task.node with role := .child h, status := .running })) a = some status :=
    hAfter ▸ hStatus'
  obtain ⟨hElse, hOld⟩ := of_update (fun hNew => by cases hNew; rfl) hOther hResting'
  exact ⟨hElse, _, hOld, hResting'⟩

theorem suspend (inv : History w trace) {left : Nat} {node : Node} (hNode : w.nodes h = some node) :
    History { w.setStatus h .suspended with control := .drain none left }
    (trace ++ [.suspended h]) := by
  refine inv.opens (.inr rfl) (fun hNe hStatus hResting => ⟨_, ?_, hResting⟩)
  have hNodes := Scheduled.nodes_setStatus hNode .suspended
  rw [show ({ w.setStatus h .suspended with control := .drain none left } : World).nodes =
    (w.setStatus h .suspended).nodes from rfl, hNodes, of_update_ne hNe] at hStatus
  exact hStatus

/-- At the final suspension the coroutine has had its last turn, and the awaiting one begins its
next. -/
theorem finish (inv : History w trace) (sched : Scheduled short w) {h left : Nat} {frame : Frame}
    (hControl : w.control = .running h left) (hFrame : w.frames h = some frame)
    (exception : Option Nat) :
    History ((Scheduled.ended w h frame exception).finalSuspend h left
      { frame with status := .done, exception }).1
        (trace ++ ((Scheduled.ended w h frame exception).finalSuspend h left
        { frame with status := .done, exception }).2) := by
  have hNode := Scheduled.nodes_of_frame hFrame
  have hThreaded := sched.threaded_running hControl
  cases hCompletion : frame.completion with
  | true =>
    simp only [finalSuspend, if_true]
    refine inv.quiet (by simp) (fun {a status} hStatus hResting => ⟨status, ?_, hResting⟩)
    have hAfter := @Scheduled.nodes_rootCompleted w h frame hCompletion
        (sched.head (by rw [hControl]; rfl)) exception
    have hOther : statuses (Function.update w.nodes h (some ⟨.root, .done, none⟩)) a =
        some status := hAfter ▸ hStatus
    exact (of_update (fun hNew => by cases hNew; rfl) hOther hResting).2
  | false =>
    cases hContinuation : frame.continuation with
    | none =>
      have hFree : frame.node.role = .free := by
        simp [Frame.node, Frame.role, hCompletion, hContinuation]
      exact absurd hFree (hThreaded.active_role hNode)
    | some parent =>
      simp only [finalSuspend, Bool.false_eq_true, if_false]
      have hRole : frame.node.role = .child parent := by
        simp [Frame.node, Frame.role, hCompletion, hContinuation]
      obtain ⟨caller, hCaller, hAwaiting⟩ := hThreaded.caller hNode hRole
      have hNe : parent ≠ h := hThreaded.caller_ne hNode hCaller hAwaiting
      have hAfter := Scheduled.nodes_returnTo hCaller hNe frame exception
      have hResting : statuses w.nodes parent = some (.awaiting h) := by
        rw [statuses_of_node hCaller, hAwaiting]
      refine inv.resumes hResting rfl (fun {a status} hStatus' hResting' => ?_)
      have hOther : statuses (Function.update (Function.update w.nodes parent
        (some { caller with status := .running })) h none) a = some status := hAfter ▸ hStatus'
      obtain ⟨-, hMiddle⟩ := of_update (fun hNew => by cases hNew) hOther hResting'
      obtain ⟨hElse, hOld⟩ := of_update (fun hNew => by cases hNew; rfl) hMiddle hResting'
      exact ⟨hElse, _, hOld, hResting'⟩

theorem resume (inv : History w trace) (sched : Scheduled short w) {h left : Nat} {rest : List Nat}
    (hReady : w.ready = h :: rest) :
    History { { w with ready := rest }.setStatus h .running with control := .running h left }
      (trace ++ [.resumed h]) := by
  obtain ⟨node, hNode, hParked⟩ := sched.kept.mem_of_queue (hReady ▸ List.mem_cons_self)
  have hResting : node.status.resting = true := by
    rcases hParked with hStatus | ⟨hStatus, -⟩ <;> rw [hStatus] <;> rfl
  refine inv.resumes (statuses_of_node hNode) hResting (fun {a status} hStatus' hResting' => ?_)
  have hAfter : ({ w with ready := rest }.setStatus h .running).nodes = _ :=
    Scheduled.nodes_setStatus (w := { w with ready := rest }) hNode .running
  have hOther : statuses (Function.update w.nodes h (some { node with status := .running })) a =
      some status :=
    hAfter ▸ hStatus'
  obtain ⟨hElse, hOld⟩ := of_update (fun hNew => by cases hNew; rfl) hOther hResting'
  exact ⟨hElse, _, hOld, hResting'⟩

theorem within {A : Set Nat} {o : IoOutcome} (inv : History w trace)
    (hElse : Elsewhere fd A w o.state) (hEvents : ∀ e ∈ o.events, e.turns = false) {first : Obs}
    (hFirst : first.turns = false) (control : Control) :
    History (within o control).1 (trace ++ first :: (World.within o control).2) := by
  refine inv.quiet_same ?_ ?_
  · obtain ⟨last, hEq, hLast⟩ := within_events o control
    rw [hEq]
    intro e he
    rcases List.mem_cons.mp he with rfl | he
    · exact hFirst
    · rcases List.mem_append.mp he with he | he
      · exact hEvents e he
      · obtain ⟨x, rfl⟩ := hLast e he
        rfl
  · refine Eq.trans ?_ hElse.nodes
    unfold World.within
    cases o.error <;> rfl

theorem onReady (inv : History w trace) (hKeyed : w.AllKeyed) (direction : Event)
    (control : Control) :
    History (World.within (w.onReady faults fd direction) control).1
      (trace ++
        .onReady fd direction :: (World.within (w.onReady faults fd direction) control).2) := by
  refine inv.within (elsewhere_onReady (hKeyed fd)) (fun e he => ?_) rfl control
  unfold World.onReady at he
  split at he
  · cases he
  · exact settle_turns he

/-- Every step keeps resumptions and suspensions of each coroutine in turn. -/
theorem step (inv : History w trace) (sched : Scheduled short w)
    (hKeyed : w.AllKeyed) (h : Step wrap w label w' events) : History w' (trace ++ events) := by
  cases h with
  | change => exact inv.quiet_same nofun rfl
  | close =>
    refine inv.quiet_same (fun e he => ?_) rfl
    split_ifs at he
    · exact List.mem_singleton.mp he ▸ rfl
    · cases he
  | create => exact inv.create
  | drop | destroyRoot => exact inv.destroy rfl
  | @spawn task fails =>
    have hSpawned : History (w.spawn fails task).state trace := by
      rw [← List.append_nil trace]
      exact inv.spawn
    rw [toUser_state]
    exact hSpawned.quiet_same (toUser_turns (fun e he =>
      fault_turns ((Quiet.spawn fails task).events he))) rfl
  | @cancel fd =>
    rw [toUser_state]
    refine inv.quiet_same (List.forall_mem_cons.mpr ⟨rfl, toUser_turns (fun e he => ?_)⟩)
      (elsewhere_cancel (hKeyed fd)).nodes
    rcases cancel_events he with ⟨f, rfl⟩ | ⟨direction, waitSlot, -, rfl⟩ <;> rfl
  | await hControl hFree => exact inv.await sched hControl hFree
  | @yield h left push hControl =>
    obtain ⟨frame, hFrame, -⟩ := sched.running_frame hControl
    have hNodes : (w.schedule push h).state.nodes = w.nodes :=
      (@elsewhere_schedule 0 ∅ push w h).nodes
    have hQueued : History (w.schedule push h).state (trace ++ (w.schedule push h).events) :=
      inv.quiet_same (fun e he => fault_turns ((Quiet.schedule push h).events he)) hNodes
    rw [← List.append_assoc]
    exact hQueued.suspend (hNodes ▸ Scheduled.nodes_of_frame hFrame)
  | @yieldThrows h left push =>
    refine inv.quiet_same (fun o ho => ?_) (@elsewhere_schedule 0 ∅ push w h).nodes
    rcases List.mem_append.mp ho with ho | ho
    · exact fault_turns ((Quiet.schedule push h).events ho)
    · exact List.mem_singleton.mp ho ▸ rfl
  | @wait h left address fd timeout event faults hControl =>
    obtain ⟨frame, hFrame, -⟩ := sched.running_frame hControl
    have hNodes : (w.armWait wrap faults address fd event timeout (some h) (some h)).state.nodes =
        w.nodes :=
      (elsewhere_armWait (hKeyed fd) (Set.mem_univ _) ..).nodes
    have hTurns : ∀ e ∈ (w.armWait wrap faults address fd event timeout (some h) (some h)).events,
        e.turns = false := fun e he => armWait_turns he
    have hArmed := inv.quiet_same hTurns hNodes
    rw [← List.append_assoc]
    exact hArmed.suspend (hNodes ▸ Scheduled.nodes_of_frame hFrame)
  | waitThrows =>
    refine inv.quiet_same (fun o ho => ?_)
      (elsewhere_armWait (hKeyed _) (Set.mem_univ _) ..).nodes
    rcases List.mem_append.mp ho with ho | ho
    · exact armWait_turns ho
    · exact List.mem_singleton.mp ho ▸ rfl
  | finish hControl hFrame => exact inv.finish sched hControl hFrame _
  | resume hControl hFront => exact inv.resume sched hFront
  | @expire now second pick =>
    have inv' : History { w with timers := w.timers.eraseIdx pick } trace :=
      ⟨inv.rested, inv.alternates⟩
    have hKeyed' : World.AllKeyed { w with timers := w.timers.eraseIdx pick } := hKeyed
    refine inv'.within (elsewhere_expireTimer (hKeyed' _)) (fun e he => ?_) rfl _
    unfold World.expireTimer at he
    split_ifs at he
    · exact settle_turns he
    · cases he
  | ready => exact inv.onReady hKeyed _ _
  | _ => exact inv.quiet_same (by simp [Obs.turns, returnRun, throwRun]) rfl

end History

end History

section WakeSource

/-- What `run` throws when nothing could wake a root. -/
def noWake : Exception := .logicError "IoContext Task has no readiness or timer wake source"

variable {w : World} {fd : Int} {event : Event} {faults : Faults}

/-- What `run` throws of its own: the exceptions of tasks, and that nothing could wake a root. -/
def Exception.isOwn : Exception → Bool
  | .task _ => true
  | e => e = noWake

variable {result : Bool}

theorem isOwn_complete {push : Bool} {e : Exception}
    (h : (w.complete push fd event result).error = some e) : e.isOwn = false := by
  unfold complete at h
  split at h
  · cases h
  · split at h
    · cases h
    · simp only [Outcome.ok_andThen, schedule] at h
      split_ifs at h <;> cases h
      rfl

theorem isOwn_updateChannel {loop : EventLoop} {fails : Bool} {channel : Channel} {e : Exception}
    (h : loop.updateChannel fails channel = .error e) : e.isOwn = false := by
  unfold EventLoop.updateChannel at h
  split_ifs at h
  · cases h
    rfl
  · cases h
    rfl
  · split at h <;> cases h
    rfl

theorem isOwn_addChannel {loop : EventLoop} {fails : Bool} {channel : Channel} {e : Exception}
    (h : loop.addChannel fails channel = .error e) : e.isOwn = false := by
  unfold EventLoop.addChannel at h
  split_ifs at h
  · cases h
    rfl
  · split at h
    · cases h
      rfl
    · split at h <;> cases h
      rfl

theorem isOwn_refreshInterest {e : Exception} (h : (w.refreshInterest faults fd).error = some e) :
    e.isOwn = false := by
  unfold refreshInterest at h
  split at h
  · cases h
  · dsimp only at h
    split_ifs at h
    · cases h
    · cases h
    · split at h
      · cases h
      · rename_i hFailed
        cases h
        exact isOwn_updateChannel hFailed
    · split at h
      · cases h
      · rename_i hFailed
        cases h
        exact isOwn_addChannel hFailed

theorem isOwn_settle {e : Exception} (h : (w.settle faults fd event result).error = some e) :
    e.isOwn = false := by
  rcases Outcome.error_andThen h with hFirst | hLast
  · rcases Outcome.error_andThen hFirst with hComplete | hRefresh
    · exact isOwn_complete hComplete
    · exact isOwn_refreshInterest hRefresh
  · cases hLast

/-- What `run` throws behind a callback is what the callback has thrown. -/
theorem isOwn_within {o : IoOutcome} {control : Control} {e : Exception}
    (hError : ∀ {x}, o.error = some x → x.isOwn = false) (hEvents : .runThrew e ∉ o.events)
    (h : .runThrew e ∈ (within o control).2) : e.isOwn = false := by
  unfold World.within at h
  cases hThrown : o.error with
  | none =>
    rw [hThrown] at h
    exact absurd h hEvents
  | some =>
    rw [hThrown] at h
    rcases List.mem_append.mp h with hInner | hLast
    · exact absurd hInner hEvents
    · cases List.mem_singleton.mp hLast
      exact hError hThrown

theorem settle_not_thrown {e : Exception} :
    .runThrew e ∉ (w.settle faults fd event result).events := by
  intro h
  rcases settle_events h with ⟨f, hEq⟩ | ⟨waitSlot, -, hEq⟩ <;> cases hEq

theorem toUser_not_thrown {o : IoOutcome} {e : Exception} (hEvents : .runThrew e ∉ o.events) :
    .runThrew e ∉ (toUser o).2 := by
  obtain ⟨last, hEq, hLast⟩ := toUser_events o
  rw [hEq]
  intro hMem
  rcases List.mem_append.mp hMem with hMem | hMem
  · exact hEvents hMem
  · obtain ⟨x, hThrew⟩ := hLast _ hMem
    cases hThrew

/-- Where `run` throws of its own: in `drain_completed`, or before it would poll for ever. -/
theorem own_of_step {wrap : Wrap} {w' : World} {label : Label} {events : List Obs} {e : Exception}
    (h : Step wrap w label w' events) (hMem : .runThrew e ∈ events) (hOwn : e.isOwn = true) :
    (∃ n left, e = .task n ∧ w.control = .drain (some n) left) ∨ e = noWake ∧ w.control = .poll ∧
      w.roots ≠ ∅ ∧ w.ready = [] ∧ w.hasRegisteredWaiter = false := by
  have hInner (hFalse : e.isOwn = false) : False := by
    rw [hOwn] at hFalse
    cases hFalse
  have hAfter {events : List Obs} {last : Obs} (hEvents : ∀ o ∈ events, o ≠ .runThrew e)
      (hLast : last ≠ .runThrew e) (hMem : .runThrew e ∈ events ++ [last]) : False :=
    (List.mem_append.mp hMem).elim (fun hMem => hEvents _ hMem rfl)
      (fun hMem => hLast (List.mem_singleton.mp hMem).symm)
  cases h with
  | drainThrows hControl =>
    cases List.mem_singleton.mp hMem
    exact .inl ⟨_, _, rfl, hControl⟩
  | noWakeSource hControl hRoots hReady hTimers hWaiter =>
    cases List.mem_singleton.mp hMem
    exact .inr ⟨rfl, hControl, hRoots, hReady, hWaiter⟩
  | pollFails =>
    cases List.mem_singleton.mp hMem
    cases hOwn
  | close => split_ifs at hMem <;> simp at hMem
  | @spawn task fails =>
    refine absurd hMem (toUser_not_thrown fun hMem => ?_)
    obtain ⟨f, hEq⟩ := (Quiet.spawn fails task).events hMem
    cases hEq
  | cancel =>
    refine absurd hMem (List.not_mem_cons_of_ne_of_not_mem nofun (toUser_not_thrown fun hMem => ?_))
    rcases cancel_events hMem with ⟨f, hEq⟩ | ⟨direction, waitSlot, -, hEq⟩ <;> cases hEq
  | @yield h left push | @yieldThrows h left push =>
    refine (hAfter (fun o ho hEq => ?_) (by simp) hMem).elim
    obtain ⟨f, rfl⟩ := (Quiet.schedule push h).events ho
    cases hEq
  | wait | waitThrows =>
    refine (hAfter (fun o ho hEq => ?_) (by simp) hMem).elim
    rcases armWait_events ho with ⟨f, rfl⟩ | ⟨token, rfl⟩ <;> cases hEq
  | finish =>
    unfold finalSuspend at hMem
    split_ifs at hMem
    · simp at hMem
    · split at hMem <;> simp at hMem
  | expire =>
    refine (hInner (isOwn_within (fun hError => ?_) ?_ (List.mem_of_ne_of_mem (by simp) hMem))).elim
    · unfold expireTimer at hError
      split_ifs at hError
      · exact isOwn_settle hError
      · cases hError
    · unfold expireTimer
      split_ifs
      · exact settle_not_thrown
      · exact List.not_mem_nil
  | ready =>
    refine (hInner (isOwn_within (fun hError => ?_) ?_ (List.mem_of_ne_of_mem (by simp) hMem))).elim
    · unfold onReady at hError
      split at hError
      · cases hError
      · exact isOwn_settle hError
    · unfold onReady
      split
      · exact List.not_mem_nil
      · exact settle_not_thrown
  | _ => simp [returnRun] at hMem

/-- Between resumptions a root that is not done waits in the queue or in a slot
of a registered descriptor. -/
theorem wakeSource {lost spoiled : Prop} (sched : Scheduled False w)
    (reg : Registered lost spoiled w.loop w.fdStates) (hInside : w.control.inside = true)
    (hRoots : w.roots ≠ ∅) : w.ready ≠ [] ∨ w.hasRegisteredWaiter = true := by
  obtain ⟨hActive, hDraining, -⟩ := Control.of_inside hInside
  obtain ⟨root, hRoot⟩ := Finset.nonempty_iff_ne_empty.mpr hRoots
  have hThreaded := sched.threaded
  rw [hActive, sched.head hDraining] at hThreaded
  obtain ⟨leaf, node, -, hNode, hParked⟩ := hThreaded.exists_leaf hRoot nofun
  rcases (sched.kept.placed id).mem_iff.mp ((mem_parked hNode).mpr hParked) with hQueue
    | ⟨⟨fd, event⟩, hSlot⟩
  · exact .inl (List.ne_nil_of_mem hQueue)
  · obtain ⟨waitSlot, hWait, -⟩ := Option.map_eq_some_iff.mp hSlot
    obtain ⟨st, hLookup, -⟩ := Option.bind_eq_some_iff.mp hWait
    have hEntry := reg.consistent fd
    rw [hLookup] at hEntry
    refine .inr (decide_eq_true ⟨fd, Finmap.mem_keys.mpr (Finmap.mem_iff.mpr ⟨st, hLookup⟩), ?_⟩)
    simp [hLookup, hEntry.registered]

theorem noWake_of_step {lost spoiled : Prop} {wrap : Wrap} {w' : World} {label : Label}
    {events : List Obs} (sched : Scheduled False w)
    (reg : Registered lost spoiled w.loop w.fdStates) (h : Step wrap w label w' events) :
    .runThrew noWake ∉ events := by
  intro hMem
  rcases own_of_step h hMem rfl with ⟨n, left, hEq, -⟩ | ⟨-, hControl, hRoots, hEmpty, hWaiter⟩
  · cases hEq
  · rcases wakeSource sched reg (by rw [hControl]; rfl) hRoots with hSome | hSome
    · exact absurd hEmpty hSome
    · rw [hWaiter] at hSome
      cases hSome

end WakeSource

variable {wrap : Wrap} {w : World} {trace : List Obs}

theorem scheduled_of_reaches (h : (machine wrap).Reaches w trace) :
    Scheduled (.fault .ready ∈ trace) w := by
  apply h.invariant (P := fun w trace => Scheduled (.fault .ready ∈ trace) w)
  · exact Scheduled.start
  · intro w w' trace events label hReaches inv hNext
    exact (inv.mono (List.mem_append_left events)).step (allKeyed_of_reaches hReaches)
      (step_of_next hNext) (List.mem_append_right trace)

/-- Where `ready_` could always grow, nothing is lost. -/
theorem scheduled_of_ready (h : (machine wrap).Reaches w trace) (hReady : .fault .ready ∉ trace) :
    Scheduled False w := (scheduled_of_reaches h).mono hReady

theorem history_of_reaches (h : (machine wrap).Reaches w trace) : History w trace := by
  apply h.invariant (P := History)
  · exact ⟨nofun, fun _ => .nil⟩
  · intro w w' trace events label hReaches inv hNext
    exact inv.step (scheduled_of_reaches hReaches) (allKeyed_of_reaches hReaches)
      (step_of_next hNext)

theorem no_noWake_of_reaches (h : (machine wrap).Reaches w trace) (hReady : .fault .ready ∉ trace) :
    .runThrew noWake ∉ trace := by
  revert hReady
  apply h.invariant (P := fun _ trace => .fault .ready ∉ trace → .runThrew noWake ∉ trace)
  · exact fun _ => nofun
  · intro w w' trace events label hReaches ih hNext hReady hMem
    have hBefore : .fault .ready ∉ trace := fun hMem => hReady (List.mem_append_left _ hMem)
    rcases List.mem_append.mp hMem with hOld | hNew
    · exact ih hBefore hOld
    · exact noWake_of_step (scheduled_of_ready hReaches hBefore)
        (registered_of_reaches hReaches hBefore) (step_of_next hNext) hNew

/-- How often a handle occurs in `ready_` and in the slots of `fd_states_`. -/
def World.occurrences (w : World) (h : Nat) : Nat :=
  w.ready.count h +
    ((w.fdStates.keys ×ˢ {Event.read, Event.write}).filter
    (fun place => w.slots place = some h)).card

/-- The coroutine that a root's chain of awaited children ends in, waiting to be
resumed. -/
def World.Leaf (w : World) (root leaf : Nat) : Prop :=
  Leads (callees w.nodes) root leaf ∧
    (statuses w.nodes leaf = some .created ∨ statuses w.nodes leaf = some .suspended)

/-- Where the executor's handles are between resumptions. -/
structure HandlesPlaced (w : World) : Prop where
  leaf : ∀ {root}, root ∈ w.roots → w.isDone root = false → ∃! leaf, w.Leaf root leaf
  once : ∀ {root leaf}, root ∈ w.roots → w.Leaf root leaf → w.occurrences leaf = 1
  only : ∀ {h}, w.occurrences h ≠ 0 → ∃ root ∈ w.roots, w.Leaf root h
  apart : ∀ {root root' leaf}, root ∈ w.roots → root' ∈ w.roots → w.Leaf root leaf →
    w.Leaf root' leaf → root = root'
  /-- a root that is done is still there only until `drain_completed` took it -/
  undone : w.control.draining = false → ∀ {root}, root ∈ w.roots → w.isDone root = false

theorem mem_parked_of_leaf (sched : Scheduled False w) {root leaf : Nat} (hRoot : root ∈ w.roots)
    (h : w.Leaf root leaf) : leaf ∈ parked w.nodes := by
  obtain ⟨node, hNode, hRole⟩ := sched.threaded.role_of_leads hRoot h.1
  have hStatus := h.2
  rw [statuses_of_node hNode, Option.some.injEq, Option.some.injEq] at hStatus
  rw [mem_parked hNode]
  rcases hStatus with hCreated | hSuspended
  · rcases hRole with ⟨-, hRole⟩ | ⟨parent, hRole⟩
    · exact .inr ⟨hCreated, hRole⟩
    · exact absurd hCreated ((sched.threaded.sound hNode).started hRole)
  · exact .inl hSuspended

theorem leaf_of_parked {root leaf : Nat} {node : Node} (hLeads : Leads (callees w.nodes) root leaf)
    (hNode : w.nodes leaf = some node) (hParked : node.Parked) : w.Leaf root leaf := by
  refine ⟨hLeads, ?_⟩
  rw [statuses_of_node hNode]
  rcases hParked with hStatus | ⟨hStatus, -⟩
  · exact .inr (congrArg some hStatus)
  · exact .inl (congrArg some hStatus)

theorem callees_of_leaf {root leaf : Nat} (h : w.Leaf root leaf) : callees w.nodes leaf = none := by
  have hStatus : ∃ status, statuses w.nodes leaf = some status ∧ status.callee = none := by
    rcases h.2 with hStatus | hStatus
    · exact ⟨_, hStatus, rfl⟩
    · exact ⟨_, hStatus, rfl⟩
  obtain ⟨status, hEq, hCallee⟩ := hStatus
  obtain ⟨node, hNode, rfl⟩ := Option.map_eq_some_iff.mp hEq
  rw [callees_of_node hNode, hCallee]

theorem occurrences_eq (sched : Scheduled False w) (h : Nat) [Decidable (h ∈ parked w.nodes)] :
    w.occurrences h = if h ∈ parked w.nodes then 1 else 0 := by
  apply (sched.kept.placed id).occurrences
  rintro ⟨fd, event⟩ a hSlot
  obtain ⟨waitSlot, hWait, -⟩ := Option.map_eq_some_iff.mp hSlot
  obtain ⟨st, hLookup, -⟩ := Option.bind_eq_some_iff.mp hWait
  refine Finset.mem_product.mpr ⟨Finmap.mem_keys.mpr (Finmap.mem_iff.mpr ⟨st, hLookup⟩), ?_⟩
  cases event <;> simp

/-- Between resumptions the innermost coroutine of each unfinished root is at exactly one place. -/
theorem handlesPlaced (sched : Scheduled False w) (hActive : w.control.active = none) :
    HandlesPlaced w := by
  classical
  have hThreaded := sched.threaded
  rw [hActive] at hThreaded
  have hUndone {root : Nat} (hDone : w.isDone root = false) : w.completedHead ≠ some root := by
    rw [Ne, ← sched.threaded.done, ← isDone_eq, hDone]
    simp
  constructor
  · intro root hRoot hDone
    obtain ⟨leaf, node, hLeads, hNode, hParked⟩ := hThreaded.exists_leaf hRoot (hUndone hDone)
    have hLeaf := leaf_of_parked hLeads hNode hParked
    exact ⟨leaf, hLeaf, fun other hOther =>
      tip_unique hOther.1 hLeaf.1 (callees_of_leaf hOther) (callees_of_leaf hLeaf)⟩
  · intro root leaf hRoot hLeaf
    rw [occurrences_eq sched, if_pos (mem_parked_of_leaf sched hRoot hLeaf)]
  · intro h hOccurs
    rw [occurrences_eq sched] at hOccurs
    obtain ⟨node, hNode, hParked⟩ : h ∈ parked w.nodes := by
      by_contra hNot
      exact hOccurs (if_neg hNot)
    obtain ⟨root, hRoot, hLeads⟩ := hThreaded.root_of_parked hNode hParked
    exact ⟨root, hRoot, leaf_of_parked hLeads hNode hParked⟩
  · intro root root' leaf hRoot hRoot' hLeaf hLeaf'
    exact hThreaded.hung.root_unique (hThreaded.roots.mp hRoot) (hThreaded.roots.mp hRoot') hLeaf.1
      hLeaf'.1
  · intro hDraining root _
    rw [Bool.eq_false_iff, Ne, isDone_eq, sched.threaded.done, sched.head hDraining]
    exact nofun

/-- What holds of every run in which `ready_` can always grow. -/
structure WellScheduled (w : World) (trace : List Obs) : Prop where
  placed : (∀ h left, w.control ≠ .running h left) → HandlesPlaced w
  wakes : .runThrew noWake ∉ trace
  /-- Between two resumptions of a coroutine it was created anew or it suspended. -/
  alternates : ∀ h, Alternates (Opens h) (Uses h) trace

/-- Between resumptions every root has one suspended leaf, and its handle occurs
exactly once among `ready_` and the wait slots, where nothing else occurs. `run`
never finds a root without a wake source, and nothing is resumed twice for one
suspension. -/
theorem wellScheduled_of_reaches (h : (machine wrap).Reaches w trace)
    (hReady : .fault .ready ∉ trace) : WellScheduled w trace where
  placed hControl := by
    refine handlesPlaced (scheduled_of_ready h hReady) ?_
    cases hNow : w.control with
    | running a left => exact absurd hNow (hControl a left)
    | _ => rfl
  wakes := no_noWake_of_reaches h hReady
  alternates := (history_of_reaches h).alternates

/-- One root awaits a child that waits for a descriptor, another has yielded. -/
theorem wellScheduled_of_reaches_two_roots :
    ∃ (w : World) (trace : List Obs), (machine .unbounded).Reaches w trace ∧
      w.control = .runReady 0 ∧ w.roots = {0, 1} ∧
      w.ready = [1] ∧ w.slots (3, .read) = some 2 ∧ callees w.nodes 0 = some 2 ∧
        WellScheduled w trace := by
  let labels : List Label :=
    [.create 0, .spawn (some 0) false, .create 1, .spawn (some 1) false, .run,
      .advance 0 none .none, .advance 0 none .none, .create 2, .await (some 2), .wait 3 .read (-1)
      100 .none,
      .advance 0 none .none, .advance 0 none .none, .yield false, .advance 0 none .none]
  have hRun : ((machine .unbounded).run (machine .unbounded).start labels).map
      (fun r => (r.2, (r.1.control,
      decide (r.1.roots = {0, 1} ∧ r.1.ready = [1] ∧ r.1.slots (3, .read) = some 2 ∧
        callees r.1.nodes 0 = some 2)))) =
        some ([.created 0, .created 1, .resumed 0, .created 2, .suspended 0, .resumed 2,
          .armed 1 3 .read, .suspended 2, .resumed 1, .suspended 1], (.runReady 0, true)) := by
    decide +kernel
  obtain ⟨⟨w, trace⟩, hRun, hEq⟩ := Option.map_eq_some_iff.mp hRun
  obtain ⟨rfl, hControl, hState⟩ : trace = _ ∧ _ ∧ _ := by
    simpa only [Prod.mk.injEq, decide_eq_true_eq] using hEq
  obtain ⟨hRoots, hReady, hSlot, hCallee⟩ := hState
  have hReaches := Machine.Reaches.start.run hRun
  exact ⟨w, _, hReaches, hControl, hRoots, hReady, hSlot, hCallee, wellScheduled_of_reaches hReaches
    (by decide)⟩

end Tinycoro.Io
