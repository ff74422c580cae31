import Tinycoro.Task.Task
import Tinycoro.Io.Resumption

/-! What the steps of the executor do to the roles of the frames and to `roots_`. Most
leave both alone. -/
namespace Tinycoro.Task

open Io Effect Transition World Threads

/-- No role changes, and no root comes or goes. -/
def Uncast (w w' : World) : Prop := roles w'.nodes = roles w.nodes ∧ w'.roots = w.roots

theorem uncast_of_elsewhere {w w' : World} {fd : Int} {A : Set Nat} (h : Elsewhere fd A w w') :
    Uncast w w' :=
  ⟨congrArg roles h.nodes, h.roots⟩

theorem Uncast.within {w : World} {o : IoOutcome} (h : Uncast w o.state) (control : Control) :
    Uncast w (World.within o control).1 := by
  unfold World.within
  cases o.error with
  | none => exact h
  | some => exact h

/-- A frame whose status changes keeps its role. -/
theorem roles_setStatus (w : World) (h : Nat) (status : Status) :
    roles (w.setStatus h status).nodes = roles w.nodes := by
  rw [setStatus, nodes_setFrame, roles_update, Option.map_map]
  refine Eq.trans ?_ (Function.update_eq_self h (roles w.nodes))
  simp only [roles, World.nodes, Option.map_map]
  rfl

section Step

variable {short : Prop} {wrap : Wrap} {w w' : World} {label : Io.Label} {events : List Obs}

variable {h left : Nat}

theorem roles_of_isFreeTask (inv : Scheduled short w) (hFree : w.isFreeTask h = true) :
    roles w.nodes h = some .free := by
  obtain ⟨frame, hFrame, hRole, -⟩ := inv.free_of_isFreeTask hFree
  rw [roles_of_node (Scheduled.nodes_of_frame hFrame)]
  exact congrArg some hRole

theorem isFreeTask_of_roles (inv : Scheduled short w) (hRole : roles w.nodes h = some .free) :
    w.isFreeTask h = true := by
  obtain ⟨node, hNode, hFree⟩ := Option.map_eq_some_iff.mp hRole
  obtain ⟨frame, hFrame, rfl⟩ := Option.map_eq_some_iff.mp hNode
  have hCreated : frame.status = .created := (inv.threaded.sound hNode).free hFree
  have hCompletion : frame.completion = false := by
    by_contra hTrue
    simp [Frame.node, Frame.role, Bool.eq_true_of_not_eq_false hTrue] at hFree
  simp [isFreeTask, hFrame, hCreated, hCompletion]

theorem roles_update_frame (h : Nat) (frame : Option Frame) :
    roles ({ w with frames := Function.update w.frames h frame } : World).nodes =
      Function.update (roles w.nodes) h (frame.map Frame.role) := by
  rw [Scheduled.nodes_update, roles_update, Option.map_map]
  rfl

/-- What `spawn` does with a valid `Task`. -/
theorem roles_spawn (inv : Scheduled short w) (hFree : w.isFreeTask h = true) (fails : Bool) :
    h ∉ w.roots ∧
      ((roles (w.spawn fails (some h)).state.nodes = Function.update (roles w.nodes) h (some .root)
          ∧ (w.spawn fails (some h)).state.roots = insert h w.roots) ∨
        ((w.spawn fails (some h)).state.frames h = none ∧
          roles (w.spawn fails (some h)).state.nodes = Function.update (roles w.nodes) h none ∧
          (w.spawn fails (some h)).state.roots = w.roots)) := by
  have hRole := roles_of_isFreeTask inv hFree
  have hNew : h ∉ w.roots := by
    rw [inv.threaded.roots, hRole]
    exact nofun
  refine ⟨hNew, ?_⟩
  simp only [World.spawn, hNew, if_false]
  split_ifs
  · exact .inr ⟨Function.update_self .., roles_update_frame h none, rfl⟩
  · refine .inl ⟨?_, rfl⟩
    obtain ⟨frame, hFrame, -, -⟩ := inv.free_of_isFreeTask hFree
    have hNodes := nodes_setFrame (w := w) (h := h) (fun frame => { frame with completion := true })
    rw [hFrame] at hNodes
    exact (congrArg roles hNodes).trans (roles_update _)

theorem roles_await (inv : Scheduled short w) {child : Nat} (hControl : w.control = .running h left)
    (hFree : w.isFreeTask child = true) :
    roles ((w.setStatus h (.awaiting child)).setFrame child
      (fun frame => { frame with status := .running, continuation := some h })).nodes =
      Function.update (roles w.nodes) child (some (.child h)) := by
  obtain ⟨frame, hFrame, -⟩ := inv.running_frame hControl
  obtain ⟨task, hTask, hRole, hCompletion⟩ := inv.free_of_isFreeTask hFree
  have hNe : child ≠ h := by
    rintro rfl
    rw [hFrame] at hTask
    cases hTask
    exact (inv.threaded_running hControl).active_role (Scheduled.nodes_of_frame hFrame) hRole
  rw [Scheduled.nodes_await hFrame hTask hNe hCompletion, roles_update,
    ← Scheduled.nodes_setStatus (Scheduled.nodes_of_frame hFrame), roles_setStatus]
  rfl

/-- The roles and the roots after a step that concerns no `Task`. -/
inductive Recast (w : World) (label : Io.Label) (w' : World) : Prop where
  | same (hLeaves : leaves w label = none) (hDrains : drains w label = none) (hSame : Uncast w w')
  | returns {h parent : Nat} (hLeaves : leaves w label = some h)
      (hRole : roles w.nodes h = some (.child parent))
      (hRoles : roles w'.nodes = Function.update (roles w.nodes) h none)
      (hRoots : w'.roots = w.roots)
  | drained {root : Nat} (hLeaves : leaves w label = none) (hDrains : drains w label = some root)
      (hUser : w'.UserCode) (hGone : w'.frames root = none)
      (hRole : roles w.nodes root = some .root)
      (hRoles : roles w'.nodes = Function.update (roles w.nodes) root none)
      (hRoots : w'.roots = w.roots.erase root)

/-- At its end a child is gone and its caller runs; a root stays until it is drained. -/
theorem recast_of_finish (inv : Scheduled short w) {frame : Frame}
    (hControl : w.control = .running h left) (hFrame : w.frames h = some frame)
    (exception : Option Nat) :
    Recast w (.finish exception)
      ((Scheduled.ended w h frame exception).finalSuspend h left
      { frame with status := .done, exception }).1 := by
  have hNode := Scheduled.nodes_of_frame hFrame
  cases hCompletion : frame.completion with
  | true =>
    have hNodes := @Scheduled.nodes_rootCompleted w h frame hCompletion
        (inv.head (by rw [hControl]; rfl)) exception
    have hRole : roles w.nodes h = some .root := by
      rw [roles_of_node hNode]
      simp [Frame.node, Frame.role, hCompletion]
    simp only [finalSuspend, if_true]
    refine .same (by simp [leaves, hControl, hFrame, hCompletion]) rfl
      ⟨(congrArg roles hNodes).trans ?_, rfl⟩
    rw [roles_update, Option.map_some, ← hRole, Function.update_eq_self]
  | false =>
    cases hContinuation : frame.continuation with
    | some parent =>
      have hRole : frame.node.role = .child parent := by
        simp [Frame.node, Frame.role, hCompletion, hContinuation]
      have hThreaded := inv.threaded_running hControl
      obtain ⟨caller, hCaller, hAwaiting⟩ := hThreaded.caller hNode hRole
      have hNe := hThreaded.caller_ne hNode hCaller hAwaiting
      have hNodes := Scheduled.nodes_returnTo hCaller hNe frame exception
      simp only [finalSuspend, Bool.false_eq_true, if_false]
      refine .returns (h := h) (by simp [leaves, hControl, hFrame, hCompletion])
        ((roles_of_node hNode).trans (congrArg some hRole)) ((congrArg roles hNodes).trans ?_) rfl
      rw [roles_update, ← Scheduled.nodes_setStatus hCaller, roles_setStatus]
      rfl
    | none =>
      have hFree : frame.node.role = .free := by
        simp [Frame.node, Frame.role, hCompletion, hContinuation]
      exact absurd hFree ((inv.threaded_running hControl).active_role hNode)

theorem recast_of_drained (inv : Scheduled short w) {root : Nat} {pick : Pick}
    {firstError : Option Nat} {frame : Frame} {batch : Option (List Int)} {faults : Faults}
    (hControl : w.control = .drain firstError left) (hHead : w.completedHead = some root)
    (hFrame : w.frames root = some frame) (control : Option Nat) :
    Recast w (.advance pick batch faults) { w with
      completedHead := frame.completedNext
      roots := w.roots.erase root
      frames := Function.update w.frames root none
      control := .drain control left } := by
  have hNode := Scheduled.nodes_of_frame hFrame
  have hRole := (inv.threaded.sound hNode).done ((inv.threaded.completed_eq hNode).mp hHead)
  exact .drained rfl (by simp [drains, hControl, hHead]) (.inr (.inr ⟨control, left, rfl⟩))
    (Function.update_self ..) ((roles_of_node hNode).trans (congrArg some hRole))
    (roles_update_frame root none) rfl

/-- Apart from the calls on `Task`s, a step changes no role but that of what ends. -/
theorem recast_of_step (inv : Scheduled short w) (hKeyed : w.AllKeyed)
    (hNeutral : neutral label = true) (h : Step wrap w label w' events) : Recast w label w' := by
  have hDrains {pick : Pick} {batch : Option (List Int)} {faults : Faults}
      (hInside : w.control.inside = true) : drains w (.advance pick batch faults) = none := by
    cases hControl : w.control with
    | drain =>
      rw [hControl] at hInside
      cases hInside
    | _ => simp [drains, hControl]
  cases h with
  | create | drop | spawn | await | awaitEmpty => cases hNeutral
  | cancel =>
    rw [toUser_state]
    exact .same rfl rfl (uncast_of_elsewhere (elsewhere_cancel (hKeyed _)))
  | @yield h left push =>
    have hElse := @elsewhere_schedule 0 ∅ push w h
    exact .same rfl rfl ⟨(roles_setStatus _ h .suspended).trans (congrArg roles hElse.nodes),
      hElse.roots⟩
  | yieldThrows => exact .same rfl rfl (uncast_of_elsewhere (@elsewhere_schedule 0 ∅ ..))
  | @wait h left address fd timeout event faults =>
    have hElse : Elsewhere fd _ w (w.armWait wrap faults address fd event timeout (some h)
        (some h)).state :=
      elsewhere_armWait (hKeyed fd) (Set.mem_univ _) ..
    exact .same rfl rfl ⟨(roles_setStatus _ h .suspended).trans (congrArg roles hElse.nodes),
      hElse.roots⟩
  | waitThrows =>
    exact .same rfl rfl (uncast_of_elsewhere (elsewhere_armWait (hKeyed _) (Set.mem_univ _) ..))
  | finish hControl hFrame => exact recast_of_finish inv hControl hFrame _
  | destroyRoot hControl hHead hFrame => exact recast_of_drained inv hControl hHead hFrame _
  | drained hControl hHead | drainThrows hControl hHead =>
    exact .same rfl (by simp [drains, hControl, hHead]) ⟨rfl, rfl⟩
  | @resume h left rest hControl =>
    exact .same rfl (hDrains (by rw [hControl]; rfl))
      ⟨roles_setStatus { w with ready := rest } h .running, rfl⟩
  | @expire now second pick timer faults hControl =>
    have hKeyed' : World.AllKeyed { w with timers := w.timers.eraseIdx pick } := hKeyed
    have hSame : Uncast { w with timers := w.timers.eraseIdx pick }
        (expireTimer faults _ timer).state :=
      uncast_of_elsewhere (elsewhere_expireTimer (hKeyed' timer.fd))
    exact .same rfl (hDrains (by rw [hControl]; rfl)) (hSame.within _)
  | unwatched hControl | turn hControl | batchDone hControl | skipDone hControl
  | expired hControl | noWakeSource hControl | pollFails hControl | epollWait hControl
  | dispatched hControl => exact .same rfl (hDrains (by rw [hControl]; rfl)) ⟨rfl, rfl⟩
  | unselected hAt => exact .same rfl (hDrains hAt.inside.1) ⟨rfl, rfl⟩
  | ready hAt =>
    exact .same rfl (hDrains hAt.inside.1) ((uncast_of_elsewhere
      (elsewhere_onReady (hKeyed _))).within _)
  | returned hControl =>
      exact .same rfl (hDrains (by rcases hControl with h | h <;> rw [h] <;> rfl)) ⟨rfl, rfl⟩
  | _ => exact .same rfl rfl ⟨rfl, rfl⟩

end Step

end Tinycoro.Task
