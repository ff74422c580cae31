import Tinycoro.Io.Registration
import Tinycoro.Library.Threads
import Tinycoro.Library.Placement

/-! Every root of the executor is a thread of coroutines that await each other,
and between resumptions the handle of its suspended tip is in exactly one place:
in `ready_` or in one wait slot. A handle that `ready_` had no room for is lost,
and the others are not concerned. -/
namespace Tinycoro.Io

open Effect Transition World Threads Placement

/-- What the scheduling of a frame depends on. -/
structure Node where
  role : Role Nat
  status : Status
  completedNext : Option Nat

/-- The final suspension looks for the completion callback first. -/
def Frame.role (frame : Frame) : Role Nat :=
  if frame.completion then .root
  else match frame.continuation with
    | some parent => .child parent
    | none => .free

def Frame.node (frame : Frame) : Node := ⟨frame.role, frame.status, frame.completedNext⟩

def Status.callee : Status → Option Nat
  | .awaiting child => some child
  | _ => none

namespace Node

/-- A task is free until it starts, and only roots stay behind when they are done. -/
structure Sound (node : Node) : Prop where
  free : node.role = .free → node.status = .created
  started : ∀ {parent}, node.role = .child parent → node.status ≠ .created
  done : node.status = .done → node.role = .root
  last : node.completedNext = none

/-- The frame's handle has to be kept somewhere. -/
def Parked (node : Node) : Prop :=
  node.status = .suspended ∨ node.status = .created ∧ node.role = .root

end Node

section Nodes

variable (nodes : Nat → Option Node)

def callees (h : Nat) : Option Nat := (nodes h).bind (fun node => node.status.callee)

def roles (h : Nat) : Option (Role Nat) := (nodes h).map Node.role

def statuses (h : Nat) : Option Status := (nodes h).map Node.status

def parked : Set Nat := { h | ∃ node, nodes h = some node ∧ node.Parked }

variable {nodes} {h : Nat} {node : Node}

theorem callees_update (new : Option Node) :
    callees (Function.update nodes h new) =
      Function.update (callees nodes) h (new.bind (fun node => node.status.callee)) := by
  funext a
  by_cases hEq : a = h
  · subst hEq
    simp [callees]
  · simp [callees, Function.update_of_ne hEq]

theorem roles_update (new : Option Node) :
    roles (Function.update nodes h new) = Function.update (roles nodes) h (new.map Node.role) := by
  funext a
  by_cases hEq : a = h
  · subst hEq
    simp [roles]
  · simp [roles, Function.update_of_ne hEq]

theorem statuses_update (new : Option Node) :
    statuses (Function.update nodes h new) = Function.update (statuses nodes) h
    (new.map Node.status) := by
  funext a
  by_cases hEq : a = h
  · subst hEq
    simp [statuses]
  · simp [statuses, Function.update_of_ne hEq]

theorem callees_of_node (hNode : nodes h = some node) : callees nodes h = node.status.callee := by
  rw [callees, hNode, Option.bind_some]

theorem roles_of_node (hNode : nodes h = some node) : roles nodes h = some node.role := by
  rw [roles, hNode, Option.map_some]

theorem statuses_of_node (hNode : nodes h = some node) : statuses nodes h = some node.status := by
  rw [statuses, hNode, Option.map_some]

theorem parked_insert (hParked : node.Parked) :
    parked (Function.update nodes h (some node)) = insert h (parked nodes) := by
  ext a
  by_cases hEq : a = h
  · subst hEq
    simp [parked, hParked]
  · simp [parked, hEq]

theorem parked_remove (new : Option Node) (hNew : ∀ {node}, new = some node → ¬node.Parked) :
    parked (Function.update nodes h new) = parked nodes \ {h} := by
  ext a
  by_cases hEq : a = h
  · subst hEq
    simp only [parked, Set.mem_ofPred_eq, Function.update_self, Set.mem_sdiff,
      Set.mem_singleton_iff, not_true_eq_false, and_false, iff_false]
    rintro ⟨node, hNode, hParked⟩
    exact hNew hNode hParked
  · simp [parked, hEq]

/-- A change at a frame whose handle is not kept, before and after. -/
theorem parked_same (new : Option Node) (hOld : h ∉ parked nodes)
    (hNew : ∀ {node}, new = some node → ¬node.Parked) :
    parked (Function.update nodes h new) = parked nodes := by
  rw [parked_remove new hNew, Set.sdiff_singleton_eq_self hOld]

theorem mem_parked (hNode : nodes h = some node) : h ∈ parked nodes ↔ node.Parked := by
  simp [parked, hNode]

end Nodes

/-- The frames, with the coroutine that runs and the root that is done. -/
structure Threaded (nodes : Nat → Option Node) (roots : Finset Nat)
  (active completed : Option Nat) : Prop where
  hung : Hung (callees nodes) (roles nodes)
  sound : ∀ {h node}, nodes h = some node → node.Sound
  roots : ∀ {h}, h ∈ roots ↔ roles nodes h = some .root
  running : ∀ {h}, statuses nodes h = some .running ↔ active = some h
  done : ∀ {h}, statuses nodes h = some .done ↔ completed = some h

namespace Threaded

variable {nodes : Nat → Option Node} {roots roots' : Finset Nat}
  {active active' completed completed' : Option Nat} {h : Nat} {node : Node}

/-- One frame that awaits nothing changes, comes or goes. -/
theorem change (inv : Threaded nodes roots active completed) {new : Option Node}
    (hTip : callees nodes h = none)
    (hNew : ∀ {node}, new = some node → node.Sound ∧ node.status.callee = none)
    (hChild : ∀ {parent}, new.map Node.role = some (.child parent) ↔
      roles nodes h = some (.child parent)) (hRoots : ∀ {a}, a ≠ h → (a ∈ roots' ↔ a ∈ roots))
    (hRoot : h ∈ roots' ↔ new.map Node.role = some .root)
    (hActive : ∀ {a}, a ≠ h → (active' = some a ↔ active = some a))
    (hRunning : active' = some h ↔ new.map Node.status = some .running)
    (hCompleted : ∀ {a}, a ≠ h → (completed' = some a ↔ completed = some a))
    (hDone : completed' = some h ↔ new.map Node.status = some .done) :
    Threaded (Function.update nodes h new) roots' active' completed' := by
  have hCallee : new.bind (fun node => node.status.callee) = none := by
    cases new with
    | none => rfl
    | some => exact (hNew rfl).2
  constructor
  · rw [callees_update, roles_update, hCallee, ← hTip, Function.update_eq_self]
    exact inv.hung.assign hTip hChild
  · intro a node hNode
    by_cases hEq : a = h
    · rw [hEq, Function.update_self] at hNode
      exact (hNew hNode).1
    · rw [Function.update_of_ne hEq] at hNode
      exact inv.sound hNode
  · intro a
    rw [roles_update]
    by_cases hEq : a = h
    · rw [hEq, Function.update_self, hRoot]
    · rw [Function.update_of_ne hEq, hRoots hEq, inv.roots]
  · intro a
    rw [statuses_update]
    by_cases hEq : a = h
    · rw [hEq, Function.update_self, hRunning]
    · rw [Function.update_of_ne hEq, hActive hEq, inv.running]
  · intro a
    rw [statuses_update]
    by_cases hEq : a = h
    · rw [hEq, Function.update_self, hDone]
    · rw [Function.update_of_ne hEq, hCompleted hEq, inv.done]

theorem active_eq (inv : Threaded nodes roots active completed) (hNode : nodes h = some node) :
    active = some h ↔ node.status = .running := by
  rw [← inv.running, statuses_of_node hNode, Option.some.injEq]

theorem completed_eq (inv : Threaded nodes roots active completed) (hNode : nodes h = some node) :
    completed = some h ↔ node.status = .done := by
  rw [← inv.done, statuses_of_node hNode, Option.some.injEq]

theorem mem_roots (inv : Threaded nodes roots active completed) (hNode : nodes h = some node) :
    h ∈ roots ↔ node.role = .root := by
  rw [inv.roots, roles_of_node hNode, Option.some.injEq]

theorem create (inv : Threaded nodes roots active completed) (hNone : nodes h = none) :
    Threaded (Function.update nodes h (some ⟨.free, .created, none⟩)) roots active completed := by
  have hRoles : roles nodes h = none := by rw [roles, hNone, Option.map_none]
  have hStatuses : statuses nodes h = none := by rw [statuses, hNone, Option.map_none]
  apply inv.change
  · rw [callees, hNone, Option.bind_none]
  · rintro _ ⟨⟩
    exact ⟨⟨fun _ => rfl, nofun, nofun, rfl⟩, rfl⟩
  · simp [hRoles]
  · exact fun _ => Iff.rfl
  · simp [inv.roots, hRoles]
  · exact fun _ => Iff.rfl
  · simp [← inv.running, hStatuses]
  · exact fun _ => Iff.rfl
  · simp [← inv.done, hStatuses]

theorem drop (inv : Threaded nodes roots active completed) (hNode : nodes h = some node)
    (hFree : node.role = .free) :
    Threaded (Function.update nodes h none) roots active completed := by
  have hCreated := (inv.sound hNode).free hFree
  apply inv.change
  · rw [callees_of_node hNode, hCreated]
    rfl
  · exact fun hNew => nomatch hNew
  · simp [roles_of_node hNode, hFree]
  · exact fun _ => Iff.rfl
  · simp [inv.mem_roots hNode, hFree]
  · exact fun _ => Iff.rfl
  · simp [inv.active_eq hNode, hCreated]
  · exact fun _ => Iff.rfl
  · simp [inv.completed_eq hNode, hCreated]

/-- A `Task` that nobody awaits becomes a root. -/
theorem spawn (inv : Threaded nodes roots active completed) (hNode : nodes h = some node)
    (hFree : node.role = .free) :
    Threaded (Function.update nodes h (some { node with role := .root })) (insert h roots)
      active completed := by
  have hSound := inv.sound hNode
  have hCreated := hSound.free hFree
  apply inv.change
  · rw [callees_of_node hNode, hCreated]
    rfl
  · rintro _ ⟨⟩
    refine ⟨⟨nofun, nofun, fun _ => rfl, hSound.last⟩, ?_⟩
    rw [hCreated]
    rfl
  · simp [roles_of_node hNode, hFree]
  · intro a hNe
    rw [Finset.mem_insert, or_iff_right hNe]
  · simp
  · exact fun _ => Iff.rfl
  · simp [inv.active_eq hNode]
  · exact fun _ => Iff.rfl
  · simp [inv.completed_eq hNode]

/-- A coroutine takes or gives back the thread. -/
theorem setStatus (inv : Threaded nodes roots active completed) (hNode : nodes h = some node)
    {status : Status} (hTip : node.status.callee = none) (hTip' : status.callee = none)
    (hRole : node.role ≠ .free) (hStarted : status ≠ .created) (hDone : node.status ≠ .done)
    (hDone' : status ≠ .done) (hActive : ∀ {a}, a ≠ h → (active' = some a ↔ active = some a))
    (hRunning : active' = some h ↔ status = .running) :
    Threaded (Function.update nodes h (some { node with status })) roots active' completed := by
  apply inv.change
  · rw [callees_of_node hNode, hTip]
  · rintro _ ⟨⟩
    exact ⟨⟨fun h => absurd h hRole, fun _ => hStarted, fun h => absurd h hDone',
      (inv.sound hNode).last⟩, hTip'⟩
  · simp [roles_of_node hNode]
  · exact fun _ => Iff.rfl
  · simp [inv.mem_roots hNode]
  · exact hActive
  · simp [hRunning]
  · exact fun _ => Iff.rfl
  · simp [inv.completed_eq hNode, hDone, hDone']

/-- The running coroutine is not a free task. -/
theorem active_role (inv : Threaded nodes roots (some h) completed) (hNode : nodes h = some node) :
    node.role ≠ .free := by
  intro hFree
  have hRunning := (inv.active_eq hNode).mp rfl
  rw [(inv.sound hNode).free hFree] at hRunning
  cases hRunning

theorem suspend (inv : Threaded nodes roots (some h) completed) (hNode : nodes h = some node) :
    Threaded (Function.update nodes h (some { node with status := .suspended }))
      roots none completed := by
  have hRunning := (inv.active_eq hNode).mp rfl
  refine inv.setStatus hNode (by rw [hRunning]; rfl) rfl (inv.active_role hNode) nofun
    (by rw [hRunning]; nofun) nofun ?_ ?_
  · intro a hNe
    simp [Ne.symm hNe]
  · simp

theorem resume (inv : Threaded nodes roots none completed) (hNode : nodes h = some node)
    (hParked : node.Parked) :
    Threaded (Function.update nodes h (some { node with status := .running })) roots
      (some h) completed := by
  have hRole : node.role ≠ .free := by
    intro hFree
    have hCreated := (inv.sound hNode).free hFree
    rcases hParked with hSuspended | ⟨-, hRoot⟩
    · rw [hCreated] at hSuspended
      cases hSuspended
    · rw [hFree] at hRoot
      cases hRoot
  have hStatus : node.status = .suspended ∨ node.status = .created := hParked.imp_right And.left
  refine inv.setStatus hNode (by rcases hStatus with h | h <;> rw [h] <;> rfl) rfl hRole nofun
    (by rcases hStatus with h | h <;> rw [h] <;> nofun) nofun ?_ ?_
  · intro a hNe
    simp [Ne.symm hNe]
  · simp

theorem finishRoot (inv : Threaded nodes roots (some h) none) (hNode : nodes h = some node)
    (hRole : node.role = .root) :
    Threaded (Function.update nodes h (some ⟨.root, .done, none⟩)) roots none (some h) := by
  have hRunning := (inv.active_eq hNode).mp rfl
  apply inv.change
  · rw [callees_of_node hNode, hRunning]
    rfl
  · rintro _ ⟨⟩
    exact ⟨⟨nofun, nofun, fun _ => rfl, rfl⟩, rfl⟩
  · simp [roles_of_node hNode, hRole]
  · exact fun _ => Iff.rfl
  · simp [inv.mem_roots hNode, hRole]
  · intro a hNe
    simp [Ne.symm hNe]
  · simp
  · intro a hNe
    simp [Ne.symm hNe]
  · simp

theorem destroyRoot (inv : Threaded nodes roots active (some h)) :
    Threaded (Function.update nodes h none) (roots.erase h) active none := by
  obtain ⟨node, hNode, hDone⟩ := Option.map_eq_some_iff.mp (inv.done.mpr rfl)
  have hRole := (inv.sound hNode).done hDone
  apply inv.change
  · rw [callees_of_node hNode, hDone]
    rfl
  · exact fun hNew => nomatch hNew
  · simp [roles_of_node hNode, hRole]
  · intro a hNe
    rw [Finset.mem_erase, and_iff_right hNe]
  · simp
  · exact fun _ => Iff.rfl
  · simp [inv.active_eq hNode, hDone]
  · intro a hNe
    simp [Ne.symm hNe]
  · simp

/-- The thread passes from the awaiting coroutine to the awaited one. -/
theorem await (inv : Threaded nodes roots (some h) completed) (hNode : nodes h = some node)
    {c : Nat} {child : Node} (hChild : nodes c = some child) (hFree : child.role = .free) :
    Threaded (Function.update (Function.update nodes h (some { node with status := .awaiting c })) c
      (some { child with role := .child h, status := .running })) roots (some c) completed := by
  have hRunning := (inv.active_eq hNode).mp rfl
  have hCreated := (inv.sound hChild).free hFree
  have hRole := inv.active_role hNode
  have hNe : c ≠ h := by
    rintro rfl
    rw [hNode] at hChild
    cases hChild
    exact hRole hFree
  have hTip : callees nodes h = none := by
    rw [callees_of_node hNode, hRunning]
    rfl
  have hTip' : callees nodes c = none := by
    rw [callees_of_node hChild, hCreated]
    rfl
  have hRoles : roles (Function.update nodes h (some { node with status := .awaiting c })) =
      roles nodes := by
    rw [roles_update, Option.map_some, ← roles_of_node hNode, Function.update_eq_self]
  have hCallees : callees (Function.update (Function.update nodes h
      (some { node with status := .awaiting c })) c
      (some { child with role := .child h, status := .running })) = Function.update (callees nodes)
      h (some c) := by
    rw [callees_update, callees_update]
    exact Function.update_eq_iff.mpr ⟨((Function.update_of_ne hNe ..).trans hTip').symm, fun _ _ =>
      rfl⟩
  constructor
  · rw [hCallees, roles_update, hRoles]
    refine inv.hung.call hTip ⟨?_, ?_⟩ (by rw [roles_of_node hChild, hFree]) hTip'
    · simp [roles_of_node hNode]
    · simpa [roles_of_node hNode] using hRole
  · intro a new hNew
    rcases Update.some_cases hNew with ⟨rfl, rfl⟩ | ⟨-, hNew⟩
    · exact ⟨nofun, nofun, nofun, (inv.sound hChild).last⟩
    · rcases Update.some_cases hNew with ⟨rfl, rfl⟩ | ⟨-, hNew⟩
      · exact ⟨fun hFree => absurd hFree hRole, nofun, nofun, (inv.sound hNode).last⟩
      · exact inv.sound hNew
  · intro a
    rw [roles_update, hRoles]
    by_cases hC : a = c
    · subst hC
      simp [inv.mem_roots hChild, hFree]
    · rw [Function.update_of_ne hC, inv.roots]
  · intro a
    rw [statuses_update, statuses_update]
    by_cases hC : a = c
    · simp [hC]
    · rw [Function.update_of_ne hC]
      by_cases hH : a = h
      · simp [hH, hNe]
      · rw [Function.update_of_ne hH, inv.running]
        simp [Ne.symm hC, Ne.symm hH]
  · intro a
    rw [statuses_update, statuses_update]
    by_cases hC : a = c
    · subst hC
      simp [inv.completed_eq hChild, hCreated]
    · rw [Function.update_of_ne hC]
      by_cases hH : a = h
      · subst hH
        simp [inv.completed_eq hNode, hRunning]
      · rw [Function.update_of_ne hH, inv.done]

/-- The coroutine a child returns to awaits it. -/
theorem caller (inv : Threaded nodes roots active completed) (hNode : nodes h = some node)
    {parent : Nat} (hRole : node.role = .child parent) :
    ∃ caller, nodes parent = some caller ∧ caller.status = .awaiting h := by
  have hCall := inv.hung.linked.mpr (show roles nodes h =
      some (.child parent) by rw [roles_of_node hNode, hRole])
  obtain ⟨caller, hCaller, hStatus⟩ := Option.bind_eq_some_iff.mp hCall
  refine ⟨caller, hCaller, ?_⟩
  cases hNow : caller.status with
  | awaiting =>
    rw [hNow] at hStatus
    rw [Option.some.inj hStatus]
  | _ =>
    rw [hNow] at hStatus
    cases hStatus

theorem caller_ne (inv : Threaded nodes roots (some h) completed) (hNode : nodes h = some node)
    {parent : Nat} {caller : Node} (hCaller : nodes parent = some caller)
    (hStatus : caller.status = .awaiting h) : parent ≠ h := by
  rintro rfl
  have hRunning := (inv.active_eq hNode).mp rfl
  rw [hNode] at hCaller
  cases hCaller
  rw [hRunning] at hStatus
  cases hStatus

/-- The thread passes back to the coroutine that awaited the one that ends. -/
theorem finishChild (inv : Threaded nodes roots (some h) completed) (hNode : nodes h = some node)
    {parent : Nat} (hRole : node.role = .child parent) {caller : Node}
    (hCaller : nodes parent = some caller) (hStatus : caller.status = .awaiting h) :
    Threaded (Function.update (Function.update nodes parent
      (some { caller with status := .running })) h none) roots (some parent) completed := by
  have hRunning := (inv.active_eq hNode).mp rfl
  have hNe := inv.caller_ne hNode hCaller hStatus
  have hTip : callees nodes h = none := by
    rw [callees_of_node hNode, hRunning]
    rfl
  have hCall : callees nodes parent = some h := by
    rw [callees_of_node hCaller, hStatus]
    rfl
  have hCallerRole : caller.role ≠ .free := by
    intro hFree
    rw [(inv.sound hCaller).free hFree] at hStatus
    cases hStatus
  have hRoles : roles (Function.update nodes parent (some { caller with status := .running })) =
      roles nodes := by
    rw [roles_update, Option.map_some, ← roles_of_node hCaller, Function.update_eq_self]
  have hCallees : callees (Function.update (Function.update nodes parent
      (some { caller with status := .running })) h none) = Function.update (callees nodes) parent
      none := by
    rw [callees_update, callees_update]
    exact Function.update_eq_iff.mpr ⟨((Function.update_of_ne hNe.symm ..).trans hTip).symm,
      fun _ _ => rfl⟩
  constructor
  · rw [hCallees, roles_update, hRoles]
    exact inv.hung.ret hCall hTip
  · intro a new hNew
    obtain ⟨-, hNew⟩ := Update.of_none hNew
    rcases Update.some_cases hNew with ⟨rfl, rfl⟩ | ⟨-, hNew⟩
    · exact ⟨fun hFree => absurd hFree hCallerRole, nofun, nofun, (inv.sound hCaller).last⟩
    · exact inv.sound hNew
  · intro a
    rw [roles_update, hRoles]
    by_cases hH : a = h
    · subst hH
      simp [inv.mem_roots hNode, hRole]
    · rw [Function.update_of_ne hH, inv.roots]
  · intro a
    rw [statuses_update, statuses_update]
    by_cases hH : a = h
    · simp [hH, hNe]
    · rw [Function.update_of_ne hH]
      by_cases hP : a = parent
      · simp [hP]
      · rw [Function.update_of_ne hP, inv.running]
        simp [Ne.symm hP, Ne.symm hH]
  · intro a
    rw [statuses_update, statuses_update]
    by_cases hH : a = h
    · subst hH
      simp [inv.completed_eq hNode, hRunning]
    · rw [Function.update_of_ne hH]
      by_cases hP : a = parent
      · subst hP
        simp [inv.completed_eq hCaller, hStatus]
      · rw [Function.update_of_ne hP, inv.done]

/-- What a root leads to is the root itself or a child. -/
theorem role_of_leads (inv : Threaded nodes roots active completed) {root : Nat}
    (hRoot : root ∈ roots) (hLeads : Leads (callees nodes) root h) :
    ∃ node, nodes h = some node ∧
      (h = root ∧ node.role = .root ∨ ∃ parent, node.role = .child parent) := by
  rcases Relation.ReflTransGen.cases_tail hLeads with hEq | ⟨parent, -, hCall⟩
  · subst hEq
    obtain ⟨node, hNode, hRole⟩ := Option.map_eq_some_iff.mp (inv.roots.mp hRoot)
    exact ⟨node, hNode, .inl ⟨rfl, hRole⟩⟩
  · obtain ⟨node, hNode, hRole⟩ := Option.map_eq_some_iff.mp (inv.hung.linked.mp hCall)
    exact ⟨node, hNode, .inr ⟨parent, hRole⟩⟩

/-- Between resumptions the tip of a root that is not done has its handle kept. -/
theorem exists_leaf (inv : Threaded nodes roots none completed) {root : Nat} (hRoot : root ∈ roots)
    (hDone : completed ≠ some root) :
    ∃ leaf node, Leads (callees nodes) root leaf ∧ nodes leaf = some node ∧ node.Parked := by
  obtain ⟨leaf, hLeads, hTip⟩ := inv.hung.tip (inv.roots.mp hRoot)
  obtain ⟨node, hNode, hRole⟩ := inv.role_of_leads hRoot hLeads
  have hSound := inv.sound hNode
  refine ⟨leaf, node, hLeads, hNode, ?_⟩
  rw [callees_of_node hNode] at hTip
  cases hStatus : node.status with
  | suspended => exact .inl hStatus
  | created =>
    refine .inr ⟨hStatus, ?_⟩
    rcases hRole with ⟨-, hRole⟩ | ⟨parent, hRole⟩
    · exact hRole
    · exact absurd hStatus (hSound.started hRole)
  | running => exact nomatch (inv.active_eq hNode).mpr hStatus
  | awaiting =>
    rw [hStatus] at hTip
    cases hTip
  | done =>
    rcases hRole with ⟨rfl, -⟩ | ⟨parent, hRole⟩
    · exact absurd ((inv.completed_eq hNode).mpr hStatus) hDone
    · rw [hSound.done hStatus] at hRole
      cases hRole

/-- A handle that is kept belongs to a root. -/
theorem root_of_parked (inv : Threaded nodes roots active completed) (hNode : nodes h = some node)
    (hParked : node.Parked) : ∃ root ∈ roots, Leads (callees nodes) root h := by
  cases hRole : node.role with
  | root => exact ⟨h, (inv.mem_roots hNode).mpr hRole, .refl h⟩
  | child parent =>
    obtain ⟨root, hRoot, hLeads⟩ := inv.hung.owned (show roles nodes h = some (.child parent) by
      rw [roles_of_node hNode, hRole])
    exact ⟨root, inv.roots.mpr hRoot, hLeads⟩
  | free =>
    have hCreated := (inv.sound hNode).free hRole
    rcases hParked with hStatus | ⟨-, hRoot⟩
    · rw [hCreated] at hStatus
      cases hStatus
    · rw [hRole] at hRoot
      cases hRoot

end Threaded

namespace World

/-- The handles in the wait slots. -/
def slots (w : World) (place : Int × Event) : Option Nat :=
  (w.slotAt place.1 place.2).map WaitSlot.continuation

def nodes (w : World) (h : Nat) : Option Node := (w.frames h).map Frame.node

end World

section Waits

variable {short : Prop} {w : World} {fd : Int} {event : Event} {faults : Faults} {h : Nat}
  {nodes : Nat → Option Node}

theorem nodes_setFrame (f : Frame → Frame) :
    (w.setFrame h f).nodes = Function.update w.nodes h
    ((w.frames h).map (fun frame => (f frame).node)) := by
  funext a
  by_cases hEq : a = h
  · subst hEq
    simp only [World.nodes, setFrame, Function.update_self, Option.map_map]
    rfl
  · simp only [World.nodes, setFrame, Function.update_of_ne hEq]

theorem nodes_setReady (ready : Bool) :
    (w.setFrame h (fun frame => { frame with ready })).nodes = w.nodes := by
  rw [nodes_setFrame]
  exact Function.update_eq_self h w.nodes

theorem isDone_eq : w.isDone h = true ↔ statuses w.nodes h = some .done := by
  simp [isDone, statuses, World.nodes, Frame.node, Option.any_eq_true]

theorem not_isDone_of_parked (hParked : h ∈ parked w.nodes) : w.isDone h = false := by
  obtain ⟨node, hNode, hSuspended⟩ := hParked
  rw [Bool.eq_false_iff]
  intro hDone
  rw [isDone_eq, statuses_of_node hNode, Option.some.injEq] at hDone
  rcases hSuspended with hStatus | ⟨hStatus, -⟩ <;>
  · rw [hDone] at hStatus
    cases hStatus

variable {w' : World}

theorem slots_ext (hSame : ∀ fd event, w'.slotAt fd event = w.slotAt fd event) :
    w'.slots = w.slots := by
  funext place
  rw [World.slots, hSame, World.slots]

theorem slots_clear (hClear : ∀ other direction, w'.slotAt other direction =
    if other = fd ∧ direction = event then none else w.slotAt other direction) :
    w'.slots = Function.update w.slots (fd, event) none := by
  funext ⟨other, direction⟩
  rw [World.slots, hClear]
  by_cases hEq : other = fd ∧ direction = event
  · simp [hEq]
  · rw [if_neg hEq, Function.update_of_ne (by simpa using hEq), World.slots]

/-- Nodes are as given and every handle that must be kept is in one place, unless
`ready_` was `short` of room. -/
def Keeps (short : Prop) (nodes : Nat → Option Node) (w : World) : Prop :=
  w.nodes = nodes ∧ Kept short w.slots w.ready (parked nodes)

/-- A handle that must be kept is about to be queued. -/
def Leaving (short : Prop) (nodes : Nat → Option Node) (h : Nat) (w : World) : Prop :=
  w.nodes = nodes ∧ Kept short w.slots (w.ready ++ [h]) (parked nodes)

/-- The failures of `schedule`, unless they are accounted for. -/
def shortages (short : Prop) : Set Obs := { o | o = .fault .ready ∧ ¬short }

theorem keeps_schedule (push : Bool) (hLeaving : Leaving short nodes h w) :
    (w.schedule push h).Ends (shortages short) (Keeps short nodes) (Keeps short nodes) := by
  obtain ⟨rfl, hKept⟩ := hLeaving
  have hMember : h ∈ parked w.nodes := hKept.mem_of_queue (by simp)
  simp only [schedule, not_isDone_of_parked hMember, Bool.false_eq_true, if_false]
  split_ifs
  · refine Outcome.ends_fail (fun hEvents => ⟨rfl, hKept.lose ?_⟩)
    by_contra hShort
    exact hEvents _ (List.mem_singleton_self _) ⟨rfl, hShort⟩
  · exact Outcome.ends_ok ⟨rfl, hKept⟩

/-- Completing a wait moves its handle from the slot to the queue. -/
theorem keeps_complete (push result : Bool) (hKeeps : Keeps short nodes w) :
    (w.complete push fd event result).Ends (shortages short) (Keeps short nodes)
    (Keeps short nodes) := by
  obtain ⟨rfl, hKept⟩ := hKeeps
  cases hSlot : w.slotAt fd event with
  | none =>
    rw [complete_of_empty push result hSlot]
    exact Outcome.ends_ok ⟨rfl, hKept⟩
  | some completed =>
    obtain ⟨st, hLookup, hSt⟩ := Option.bind_eq_some_iff.mp hSlot
    have hHandle : w.slots (fd, event) = some completed.continuation := by
      rw [World.slots, hSlot, Option.map_some]
    have hClear (other : Int) (direction : Event) :
        (w.complete push fd event result).state.slotAt other direction =
          if other = fd ∧ direction = event then none else w.slotAt other direction :=
          complete_slotAt push result
    rw [complete_of_slot push result hLookup hSt] at hClear ⊢
    simp only [Outcome.ok_andThen, schedule_slotAt] at hClear
    refine (Outcome.ends_ok ⟨nodes_setReady result, ?_⟩).andThen (keeps_schedule push)
    rw [slots_clear hClear]
    exact hKept.fire hHandle

/-- Nothing that scheduling depends on changed. -/
structure Same (w w' : World) : Prop where
  nodes : w'.nodes = w.nodes
  ready : w'.ready = w.ready
  slots : w'.slots = w.slots

theorem same_of_frames (hFrames : w'.frames = w.frames) (hReady : w'.ready = w.ready)
    (hSlots : ∀ fd event, w'.slotAt fd event = w.slotAt fd event) : Same w w' where
  nodes := by
    funext a
    rw [World.nodes, hFrames, World.nodes]
  ready := hReady
  slots := slots_ext hSlots

theorem same_refreshInterest (faults : Faults) (fd : Int) :
    Same w (w.refreshInterest faults fd).state := by
  refine same_of_frames ?_ ?_ (fun _ _ => refreshInterest_slotAt faults) <;>
  · unfold refreshInterest
    split
    · rfl
    · dsimp only
      split_ifs
      · rfl
      · rfl
      · split <;> rfl
      · split <;> rfl

theorem same_eraseIdle (fd : Int) : Same w (w.eraseIdle fd) := by
  refine same_of_frames ?_ ?_ (fun _ _ => eraseIdle_slotAt) <;>
  · unfold eraseIdle
    split
    · split_ifs <;> rfl
    · rfl

theorem Keeps.same (hKeeps : Keeps short nodes w) (hSame : Same w w') : Keeps short nodes w' := by
  rw [Keeps, hSame.nodes, hSame.slots, hSame.ready]
  exact hKeeps

theorem keeps_settle (result : Bool) (hKeeps : Keeps short nodes w) :
    (w.settle faults fd event result).Ends (shortages short) (Keeps short nodes)
    (Keeps short nodes) := by
  refine Outcome.Ends.andThen (Q := Keeps short nodes)
    ((keeps_complete faults.push result hKeeps).andThen ?_) ?_
  · intro w' hKeeps'
    exact fun _ => ⟨fun _ => hKeeps'.same (same_refreshInterest ..), fun _ =>
      hKeeps'.same (same_refreshInterest ..)⟩
  · exact fun hKeeps' => Outcome.ends_ok (hKeeps'.same (same_eraseIdle fd))

theorem keeps_onReady (hKeeps : Keeps short nodes w) :
    (w.onReady faults fd event).Ends (shortages short) (Keeps short nodes) (Keeps short nodes) := by
  unfold onReady
  split
  · exact Outcome.ends_ok hKeeps
  · exact keeps_settle true hKeeps

theorem keeps_expireTimer {timer : TimerEntry} (hKeeps : Keeps short nodes w) :
    (w.expireTimer faults timer).Ends (shortages short) (Keeps short nodes)
    (Keeps short nodes) := by
  unfold expireTimer
  split_ifs
  · exact keeps_settle false hKeeps
  · exact Outcome.ends_ok hKeeps

/-- Erasing an entry without waiters changes no slot. -/
theorem same_erase (hRead : w.slotAt fd .read = none) (hWrite : w.slotAt fd .write = none) :
    Same w { w with fdStates := w.fdStates.erase fd } := by
  refine same_of_frames rfl rfl (fun other event => ?_)
  by_cases hFd : other = fd
  · subst hFd
    have hNone : w.slotAt other event = none := by cases event <;> assumption
    rw [hNone]
    exact slotAt_of_lookup_none (Finmap.lookup_erase ..)
  · rw [slotAt, slotAt, Finmap.lookup_erase_ne hFd]

theorem complete_empties (push result : Bool) :
    (w.complete push fd event result).state.slotAt fd event = none :=
  (complete_slotAt push result).trans (if_pos ⟨rfl, rfl⟩)

theorem same_deregistered {st : FdState} (hLookup : w.fdStates.lookup fd = some st) :
    Same w (w.deregistered fd st) :=
  same_of_frames (deregistered_rest w fd st).2.2.2 (deregistered_rest w fd st).1
    (fun _ _ => deregistered_slotAt hLookup)

/-- `cancel` moves the handles of its waits to the queue. -/
theorem keeps_cancel (hKeeps : Keeps short nodes w) :
    (w.cancel faults fd).Ends (shortages short) (Keeps short nodes) (Keeps short nodes) := by
  cases hLookup : w.fdStates.lookup fd with
  | none =>
    rw [cancel_of_none faults hLookup]
    exact Outcome.ends_ok hKeeps
  | some =>
    have hRemoved := hKeeps.same (same_deregistered hLookup)
    rw [cancel_of_lookup faults hLookup]
    refine Outcome.Ends.andThen (Q := fun w' => Keeps short nodes w' ∧ w'.slotAt fd .read = none ∧
      w'.slotAt fd .write = none) ?_ ?_
    · refine Outcome.Ends.andThen (Q := fun w' => Keeps short nodes w' ∧ w'.slotAt fd .read = none)
        ?_ ?_
      · exact ((keeps_complete faults.push false hRemoved).and
          (complete_empties faults.push false)).weaken id And.left
      · rintro w' ⟨hKeeps', hRead⟩
        have hStill : (w'.complete faults.pushAgain fd .write false).state.slotAt fd .read =
            none := by
          rw [complete_slotAt, if_neg (by simp), hRead]
        exact ((keeps_complete faults.pushAgain false hKeeps').and
          ⟨hStill, complete_empties faults.pushAgain false⟩).weaken id And.left
    · exact fun ⟨hKeeps', hRead, hWrite⟩ => Outcome.ends_ok (hKeeps'.same (same_erase hRead hWrite))

theorem Same.refl (w : World) : Same w w := ⟨rfl, rfl, rfl⟩

/-- A handle has taken a slot. -/
structure Taken (fd : Int) (event : Event) (h : Nat) (w w' : World) : Prop where
  nodes : w'.nodes = w.nodes
  ready : w'.ready = w.ready
  slots : w'.slots = Function.update w.slots (fd, event) (some h)

theorem Taken.same {w'' : World} (hTaken : Taken fd event h w w') (hSame : Same w' w'') :
    Taken fd event h w w'' :=
  ⟨hSame.nodes.trans hTaken.nodes, hSame.ready.trans hTaken.ready, hSame.slots.trans hTaken.slots⟩

theorem rollback_rest :
    (w.rollback faults fd event).state.nodes = w.nodes ∧
      (w.rollback faults fd event).state.ready = w.ready := by
  unfold rollback
  split
  · exact ⟨rfl, rfl⟩
  · rename_i st hLookup
    have hSame := same_refreshInterest (w := w.setState fd (st.setSlot event none))
        { faults with mod := faults.remod } fd
    dsimp only
    split_ifs
    · exact ⟨rfl, rfl⟩
    · exact ⟨rfl, rfl⟩
    · exact ⟨hSame.nodes, hSame.ready⟩

/-- What was taken is given back. -/
theorem same_rollback (hFree : w.slots (fd, event) = none) (hTaken : Taken fd event h w w') :
    Same w (w'.rollback faults fd event).state where
  nodes := rollback_rest.1.trans hTaken.nodes
  ready := rollback_rest.2.trans hTaken.ready
  slots := by
    rw [slots_clear (fun _ _ => rollback_slotAt), hTaken.slots, Function.update_idem, ← hFree,
      Function.update_eq_self]

/-- Arming a wait puts the handle into the slot, or leaves everything as it was. -/
theorem taken_enterWait {wrap : Wrap} {address cell : Nat} {timeout : Int}
    (hFree : w.slots (fd, event) = none) :
    (w.enterWait wrap faults address fd event timeout h cell).Ends ∅ (Taken fd event h w)
      (Same w) := by
  unfold enterWait
  have hTaken : Taken fd event h w (({ w with nextToken := w.nextToken + 1 }.setFrame cell
      (fun frame => { frame with ready := false })).setState fd
        ((w.fdState address fd).setSlot event (some ⟨h, wrap w.nextToken, cell⟩))) := by
    refine ⟨nodes_setReady false, rfl, ?_⟩
    funext ⟨other, direction⟩
    simp only [World.slots]
    by_cases hFd : other = fd
    · subst hFd
      rw [slotAt_setState_self]
      by_cases hEvent : direction = event
      · simp [hEvent]
      · rw [FdState.slot_setSlot_of_ne _ hEvent, ← slotAt_eq_fdState, Function.update_of_ne
          (by simp [hEvent])]
        rfl
    · rw [slotAt_setState_of_ne hFd, Function.update_of_ne (by simp [hFd])]
      rfl
  refine Outcome.Ends.andThen (Q := Taken fd event h w) ?_ Outcome.ends_ok
  refine Outcome.Ends.rethrow (R := Taken fd event h w) ?_ ?_
  · refine Outcome.Ends.andThen (Q := Taken fd event h w) ?_ ?_
    · have hRefreshed := hTaken.same (same_refreshInterest faults fd)
      exact fun _ => ⟨fun _ => hRefreshed, fun _ => hRefreshed⟩
    · intro w' hTaken'
      split_ifs
      · unfold pushTimer
        split_ifs
        · exact Outcome.ends_fail (fun _ => hTaken')
        · exact Outcome.ends_ok ⟨hTaken'.nodes, hTaken'.ready, hTaken'.slots⟩
      · exact Outcome.ends_ok hTaken'
  · intro w' hTaken' _
    exact ⟨fun _ => same_rollback hFree hTaken', fun _ => same_rollback hFree hTaken'⟩

theorem taken_armWait {wrap : Wrap} {address cell : Nat} {timeout : Int} :
    (w.armWait wrap faults address fd event timeout (some h) (some cell)).Ends ∅
      (fun w' => w.slots (fd, event) = none ∧ Taken fd event h w w') (Same w) := by
  rcases armWait_cases (some h) (some cell) with ⟨e, hFail⟩ | ⟨h', cell', hHandle, hCell, -, -,
    hSlot, hEnter⟩
  · rw [hFail]
    exact Outcome.ends_fail (fun _ => Same.refl w)
  · cases hHandle
    cases hCell
    have hFree : w.slots (fd, event) = none := by rw [World.slots, hSlot, Option.map_none]
    rw [hEnter]
    exact (taken_enterWait hFree).weaken (fun hTaken => ⟨hFree, hTaken⟩) id

end Waits

/-- The coroutine that has the thread. -/
def Control.active : Control → Option Nat
  | .running h _ => some h
  | _ => none

def Control.draining : Control → Bool
  | .drain .. => true
  | _ => false

/-- The thread is in `run`, and neither in a coroutine nor behind one. -/
def Control.inside : Control → Bool
  | .idle | .running .. | .drain .. => false
  | _ => true

theorem World.Dispatches.inside {w : World} {fd : Int} {flags : EpollEvents} {channel : Nat}
    {event : Event} {after : Control} (h : w.Dispatches fd flags channel event after) :
    w.control.inside = true ∧ after.inside = true := by
  cases h with
  | read hControl | write hControl => exact ⟨by rw [hControl]; rfl, rfl⟩

theorem Control.of_inside {control : Control} (h : control.inside = true) :
    control.active = none ∧ control.draining = false ∧ control ≠ .idle := by
  cases control <;> simp_all [inside, active, draining]

/-- Frames hang together, handles are where they belong, and a root that is done
is in `completed_` until it is drained. -/
structure Scheduled (short : Prop) (w : World) : Prop where
  threaded : Threaded w.nodes w.roots w.control.active w.completedHead
  kept : Kept short w.slots w.ready (parked w.nodes)
  head : w.control.draining = false → w.completedHead = none
  flag : w.running = false ↔ w.control = .idle

namespace Scheduled

variable {short : Prop} {wrap : Wrap} {w w' : World} {fd : Int} {event : Event} {faults : Faults}
  {label : Label} {events : List Obs}

theorem start : Scheduled short .create where
  threaded := ⟨Hung.empty, nofun, by simp [World.create, World.nodes, roles],
    by simp [World.create, World.nodes, statuses, Control.active], by simp [World.create,
    World.nodes, statuses]⟩
  kept := by
    have hNone : parked World.create.nodes = ∅ := by
      ext h
      simp [parked, World.create, World.nodes]
    rw [hNone]
    exact Kept.empty
  head _ := rfl
  flag := by simp [World.create]

theorem keeps (inv : Scheduled short w) : Keeps short w.nodes w := ⟨rfl, inv.kept⟩

theorem mono {short' : Prop} (inv : Scheduled short w) (hShort : short → short') :
    Scheduled short' w :=
  { inv with kept := inv.kept.mono hShort }

variable {control : Control} {A : Set Nat} {h : Nat} {frame : Frame}

/-- Inside `run` the flag stays as it is. -/
theorem flag_inside (inv : Scheduled short w) (hIdle : w.control ≠ .idle)
    (hIdle' : control ≠ .idle) : w.running = false ↔ control = .idle :=
  ⟨fun hFalse => absurd (inv.flag.mp hFalse) hIdle, fun hEq => absurd hEq hIdle'⟩

/-- An operation on waits, and perhaps a move of the thread that is no resumption. -/
theorem of_elsewhere (inv : Scheduled short w) (hElse : Elsewhere fd A w w')
    (hKeeps : Keeps short w.nodes w') (control : Control) (running : Bool)
    (hActive : control.active = w.control.active)
    (hHead : control.draining = false → w.completedHead = none)
    (hFlag : running = false ↔ control = .idle) : Scheduled short { w' with control, running } where
  threaded := by
    have hThreaded := inv.threaded
    rw [← hKeeps.1, ← hElse.roots, ← hElse.completedHead, ← hActive] at hThreaded
    exact hThreaded
  kept := by
    have hKept := hKeeps.2
    rw [← hKeeps.1] at hKept
    exact hKept
  head hControl := hElse.completedHead.trans (hHead hControl)
  flag := hFlag

/-- The thread moves and nothing else. -/
theorem move (inv : Scheduled short w) (control : Control) (running : Bool)
    (hActive : control.active = w.control.active)
    (hHead : control.draining = false → w.completedHead = none)
    (hFlag : running = false ↔ control = .idle) : Scheduled short { w with control, running } :=
  inv.of_elsewhere (@Elsewhere.refl 0 ∅ w) inv.keeps control running hActive hHead hFlag

/-- Only what scheduling does not depend on changes. -/
theorem congr (inv : Scheduled short w) (hFrames : w'.frames = w.frames)
    (hStates : w'.fdStates = w.fdStates) (hReady : w'.ready = w.ready) (hRoots : w'.roots = w.roots)
    (hControl : w'.control = w.control) (hHead : w'.completedHead = w.completedHead)
    (hRunning : w'.running = w.running) : Scheduled short w' := by
  obtain ⟨⟩ := w
  obtain ⟨⟩ := w'
  subst hFrames hStates hReady hRoots hControl hHead hRunning
  exact ⟨inv.threaded, inv.kept, inv.head, inv.flag⟩

theorem within {o : IoOutcome} (inv : Scheduled short w) (hElse : Elsewhere fd A w o.state)
    (hKeeps : Keeps short w.nodes o.state) (hInside : w.control.inside = true)
    (hInside' : control.inside = true) : Scheduled short (within o control).1 := by
  obtain ⟨hActive, hDraining, hIdle⟩ := Control.of_inside hInside
  obtain ⟨hActive', -, hIdle'⟩ := Control.of_inside hInside'
  have hHead := inv.head hDraining
  unfold World.within
  cases o.error with
  | none =>
    have hRunning : o.state.running = true := by
      rw [hElse.running, ← Bool.not_eq_false, inv.flag]
      exact hIdle
    exact inv.of_elsewhere hElse hKeeps control o.state.running (hActive'.trans hActive.symm)
      (fun _ => hHead) (by simp [hRunning, hIdle'])
  | some => exact inv.of_elsewhere hElse hKeeps .idle false hActive.symm (fun _ => hHead) (by simp)

/-- The thread moves inside `run`, between resumptions. -/
theorem inside (inv : Scheduled short w) (hInside : w.control.inside = true)
    (hInside' : control.inside = true) : Scheduled short { w with control } := by
  obtain ⟨hActive, hDraining, hIdle⟩ := Control.of_inside hInside
  obtain ⟨hActive', -, hIdle'⟩ := Control.of_inside hInside'
  exact inv.move control w.running (hActive'.trans hActive.symm) (fun _ => inv.head hDraining)
    (inv.flag_inside hIdle hIdle')

theorem leave (inv : Scheduled short w) (hInside : w.control.inside = true) :
    Scheduled short { w with running := false, control := .idle } := by
  obtain ⟨hActive, hDraining, -⟩ := Control.of_inside hInside
  exact inv.move .idle false hActive.symm (fun _ => inv.head hDraining) (by simp)

/-- An operation on waits that leaves the thread where it is. -/
theorem stay (inv : Scheduled short w) (hElse : Elsewhere fd A w w')
    (hKeeps : Keeps short w.nodes w') : Scheduled short w' := by
  have hStill := inv.of_elsewhere hElse hKeeps w.control w.running rfl inv.head inv.flag
  rw [← hElse.control, ← hElse.running] at hStill
  exact hStill

theorem nodes_update (h : Nat) (frame : Option Frame) :
    ({ w with frames := Function.update w.frames h frame } : World).nodes =
      Function.update w.nodes h (frame.map Frame.node) := by
  funext a
  by_cases hEq : a = h
  · subst hEq
    simp [World.nodes]
  · simp [World.nodes, Function.update_of_ne hEq]

theorem nodes_of_frame (hFrame : w.frames h = some frame) : w.nodes h = some frame.node := by
  rw [World.nodes, hFrame, Option.map_some]

theorem nodes_setStatus {node : Node} (hNode : w.nodes h = some node) (status : Status) :
    (w.setStatus h status).nodes = Function.update w.nodes h (some { node with status }) := by
  obtain ⟨frame, hFrame, rfl⟩ := Option.map_eq_some_iff.mp hNode
  rw [setStatus, nodes_setFrame, hFrame]
  rfl

/-- The frame's coroutine has ended. -/
def ended (w : World) (h : Nat) (frame : Frame) (exception : Option Nat) : World :=
  { w with frames := Function.update w.frames h (some { frame with status := .done, exception }) }

section Frames

variable {h : Nat} {frame : Frame}

theorem nodes_await {child : Nat} {task : Frame} (hFrame : w.frames h = some frame)
    (hTask : w.frames child = some task) (hNe : child ≠ h) (hCompletion : task.completion = false) :
    ((w.setStatus h (.awaiting child)).setFrame child
      (fun frame => { frame with status := .running, continuation := some h })).nodes =
      Function.update (Function.update w.nodes h (some
        { frame.node with status := .awaiting child })) child
        (some { task.node with role := .child h, status := .running }) := by
  have hSame : (w.setStatus h (.awaiting child)).frames child = some task :=
    (Function.update_of_ne hNe ..).trans hTask
  rw [nodes_setFrame, hSame, nodes_setStatus (nodes_of_frame hFrame), Option.map_some]
  simp [Frame.node, Frame.role, hCompletion]

theorem nodes_rootCompleted (hCompletion : frame.completion = true) (hNone : w.completedHead = none)
    (exception : Option Nat) :
    ((ended w h frame exception).rootCompleted h).nodes = Function.update w.nodes h
      (some ⟨.root, .done, none⟩) := by
  have hSet : ((ended w h frame exception).rootCompleted h).nodes = _ :=
    nodes_setFrame (w := ended w h frame exception)
    (fun frame => { frame with completedNext := w.completedHead })
  simp only [ended, nodes_update, Function.update_self, Function.update_idem] at hSet
  refine hSet.trans ?_
  simp [Frame.node, Frame.role, hCompletion, hNone]

theorem nodes_returnTo {parent : Nat} {caller : Node} (hCaller : w.nodes parent = some caller)
    (hNe : parent ≠ h) (frame : Frame) (exception : Option Nat) :
    (((ended w h frame exception).setStatus parent .running).destroyFrame h).nodes =
      Function.update
        (Function.update w.nodes parent (some { caller with status := .running })) h none := by
  have hCaller' : (ended w h frame exception).nodes parent = some caller := by
    rw [ended, nodes_update, Function.update_of_ne hNe, hCaller]
  rw [destroyFrame, nodes_update, nodes_setStatus hCaller', ended, nodes_update,
    Function.update_comm hNe.symm, Function.update_idem]
  rfl

end Frames

/-- A free task of user code has a role of its own. -/
theorem free_of_isFreeTask (inv : Scheduled short w) (hFree : w.isFreeTask h = true) :
    ∃ frame, w.frames h = some frame ∧ frame.role = .free ∧ frame.completion = false := by
  obtain ⟨frame, hFrame, hTask⟩ := (Option.any_eq_true ..).mp hFree
  simp only [Bool.and_eq_true, decide_eq_true_eq, Bool.not_eq_true'] at hTask
  refine ⟨frame, hFrame, ?_, hTask.2⟩
  have hSound := inv.threaded.sound (nodes_of_frame hFrame)
  cases hContinuation : frame.continuation with
  | none => simp [Frame.role, hTask.2, hContinuation]
  | some parent =>
    have hRole : frame.node.role = .child parent := by
      simp [Frame.node, Frame.role, hTask.2, hContinuation]
    exact absurd hTask.1 (hSound.started hRole)

theorem create (inv : Scheduled short w) {h : Nat} (hNone : w.frames h = none) :
    Scheduled short { w with frames := Function.update w.frames h (some .create) } := by
  have hNodes := @nodes_update w h (some .create)
  have hAbsent : w.nodes h = none := by rw [World.nodes, hNone, Option.map_none]
  refine ⟨?_, ?_, inv.head, inv.flag⟩
  · rw [hNodes]
    exact inv.threaded.create hAbsent
  · rw [hNodes, parked_same]
    · exact inv.kept
    · rintro ⟨node, hNode, -⟩
      rw [hAbsent] at hNode
      cases hNode
    · rintro _ ⟨⟩ (hStatus | ⟨-, hRole⟩)
      · cases hStatus
      · cases hRole

theorem not_parked_of_free (inv : Scheduled short w) (hFrame : w.frames h = some frame)
    (hRole : frame.role = .free) : h ∉ parked w.nodes := by
  rw [mem_parked (nodes_of_frame hFrame)]
  have hCreated := (inv.threaded.sound (nodes_of_frame hFrame)).free hRole
  rintro (hStatus | ⟨-, hRoot⟩)
  · rw [hCreated] at hStatus
    cases hStatus
  · rw [show frame.node.role = .free from hRole] at hRoot
    cases hRoot

theorem drop (inv : Scheduled short w) (hFrame : w.frames h = some frame)
    (hRole : frame.role = .free) : Scheduled short (w.destroyFrame h) := by
  have hNodes : (w.destroyFrame h).nodes = _ := @nodes_update w h none
  refine ⟨?_, ?_, inv.head, inv.flag⟩
  · rw [hNodes]
    exact inv.threaded.drop (nodes_of_frame hFrame) hRole
  · rw [hNodes, parked_same _ (inv.not_parked_of_free hFrame hRole) (fun hNew => by cases hNew)]
    exact inv.kept

/-- `spawn` puts the handle of a new root into the queue, or throws and leaves the `Task` alone. -/
theorem spawn (inv : Scheduled short w) {task : Option Nat} (hFree : task.all w.isFreeTask = true)
    (fails : Bool) : Scheduled short (w.spawn fails task).state := by
  cases task with
  | none => exact inv
  | some h =>
    obtain ⟨frame, hFrame, hRole, -⟩ := inv.free_of_isFreeTask (by simpa using hFree)
    have hNode := nodes_of_frame hFrame
    have hNotRoot : h ∉ w.roots := by
      rw [inv.threaded.mem_roots hNode]
      simp [Frame.node, hRole]
    simp only [World.spawn, hNotRoot, if_false]
    split_ifs
    · exact inv.drop hFrame hRole
    · have hNodes : (w.setFrame h (fun frame => { frame with completion := true })).nodes =
          Function.update w.nodes h (some { frame.node with role := .root }) := by
        rw [nodes_setFrame, hFrame]
        rfl
      have hCreated := (inv.threaded.sound hNode).free hRole
      refine ⟨?_, ?_, inv.head, inv.flag⟩
      · exact hNodes ▸ inv.threaded.spawn hNode hRole
      · have hKept := inv.kept.enqueue (inv.not_parked_of_free hFrame hRole)
        rw [← parked_insert (show { frame.node with role := .root : Node }.Parked from .inr
          ⟨hCreated, rfl⟩), ← hNodes] at hKept
        exact hKept

section Running

variable {h left : Nat} {frame : Frame}

theorem running_frame (inv : Scheduled short w) (hControl : w.control = .running h left) :
    ∃ frame, w.frames h = some frame ∧ frame.status = .running := by
  have hActive : w.control.active = some h := by rw [hControl]; rfl
  have hStatus := inv.threaded.running.mpr hActive
  simp only [statuses, World.nodes, Option.map_map, Option.map_eq_some_iff] at hStatus
  exact hStatus

theorem threaded_running (inv : Scheduled short w) (hControl : w.control = .running h left) :
    Threaded w.nodes w.roots (some h) w.completedHead := by
  have hThreaded := inv.threaded
  rw [show w.control.active = some h by rw [hControl]; rfl] at hThreaded
  exact hThreaded

theorem not_parked_of_running {node : Node} (hNode : w.nodes h = some node)
    (hStatus : node.status = .running) : h ∉ parked w.nodes := by
  rw [mem_parked hNode]
  rintro (hOther | ⟨hOther, -⟩) <;>
  · rw [hStatus] at hOther
    cases hOther

/-- The running coroutine suspends, with its handle in a new place. -/
theorem suspend (inv : Scheduled short w) (hControl : w.control = .running h left)
    (hNodes : w'.nodes = w.nodes) (hKept : Kept short w'.slots w'.ready (insert h (parked w.nodes)))
    (hRoots : w'.roots = w.roots) (hHead : w'.completedHead = w.completedHead)
    (hRunning : w'.running = w.running) :
    Scheduled short { w'.setStatus h .suspended with control := .drain none left } := by
  obtain ⟨frame, hFrame, -⟩ := inv.running_frame hControl
  have hNode := nodes_of_frame hFrame
  have hSuspended := nodes_setStatus (hNodes ▸ hNode) .suspended
  rw [hNodes] at hSuspended
  refine ⟨?_, ?_, nofun, ?_⟩
  · have hThreaded := (inv.threaded_running hControl).suspend hNode
    rw [← hSuspended, ← hRoots, ← hHead] at hThreaded
    exact hThreaded
  · rw [← parked_insert (show { frame.node with status := .suspended : Node }.Parked from .inl rfl),
      ← hSuspended] at hKept
    exact hKept
  · have hFlag : w.running = false ↔ Control.drain none left = .idle :=
      inv.flag_inside (by rw [hControl]; nofun) nofun
    exact hRunning ▸ hFlag

theorem not_parked_running (inv : Scheduled short w) (hControl : w.control = .running h left) :
    h ∉ parked w.nodes := by
  obtain ⟨frame, hFrame, hStatus⟩ := inv.running_frame hControl
  exact not_parked_of_running (nodes_of_frame hFrame) hStatus

theorem not_done_running (inv : Scheduled short w) (hControl : w.control = .running h left) :
    w.isDone h = false := by
  obtain ⟨frame, hFrame, hStatus⟩ := inv.running_frame hControl
  simp [isDone, hFrame, hStatus]

theorem yield (inv : Scheduled short w) (hControl : w.control = .running h left) {push : Bool}
    (hOk : (w.schedule push h).error = none) :
    Scheduled short
      { (w.schedule push h).state.setStatus h .suspended with control := .drain none left } := by
  revert hOk
  simp only [schedule, inv.not_done_running hControl, Bool.false_eq_true, if_false]
  split_ifs
  · exact nofun
  · intro _
    exact inv.suspend hControl rfl (inv.kept.enqueue (inv.not_parked_running hControl)) rfl rfl rfl

theorem await (inv : Scheduled short w) (hControl : w.control = .running h left) {child : Nat}
    (hFree : w.isFreeTask child = true) :
    Scheduled short { (w.setStatus h (.awaiting child)).setFrame child
        (fun frame => { frame with status := .running, continuation := some h }) with
      control := .running child left } := by
  obtain ⟨frame, hFrame, hStatus⟩ := inv.running_frame hControl
  obtain ⟨task, hTask, hRole, hCompletion⟩ := inv.free_of_isFreeTask hFree
  have hThreaded := inv.threaded_running hControl
  have hNe : child ≠ h := by
    rintro rfl
    rw [hFrame] at hTask
    cases hTask
    exact hThreaded.active_role (nodes_of_frame hFrame) hRole
  have hNodes := nodes_await hFrame hTask hNe hCompletion
  refine ⟨?_, ?_, fun _ => inv.head (by rw [hControl]; rfl), ?_⟩
  · have hAwaiting := hThreaded.await (nodes_of_frame hFrame) (nodes_of_frame hTask) hRole
    rw [← hNodes] at hAwaiting
    exact hAwaiting
  · have hFirst : parked (Function.update w.nodes h
        (some { frame.node with status := .awaiting child })) = parked w.nodes := by
      apply parked_same _ (not_parked_of_running (nodes_of_frame hFrame) hStatus)
      rintro _ ⟨⟩ (hOther | ⟨hOther, -⟩) <;> cases hOther
    have hSecond : child ∉ parked (Function.update w.nodes h
        (some { frame.node with status := .awaiting child })) :=
      hFirst ▸ inv.not_parked_of_free hTask hRole
    have hParked := inv.kept
    rw [← hFirst, ← parked_same (some { task.node with role := .child h, status := .running })
      hSecond (by
      rintro _ ⟨⟩ (hOther | ⟨hOther, -⟩) <;> cases hOther), ← hNodes] at hParked
    exact hParked
  · exact inv.flag_inside (by rw [hControl]; nofun) nofun

theorem finishRoot (inv : Scheduled short w) (hControl : w.control = .running h left)
    (hFrame : w.frames h = some frame) (hCompletion : frame.completion = true)
    (exception : Option Nat) :
    Scheduled short { (ended w h frame exception).rootCompleted h with control := .drain none left }
      := by
  have hNode := nodes_of_frame hFrame
  have hRole : frame.node.role = .root := by simp [Frame.node, Frame.role, hCompletion]
  have hNone := inv.head (by rw [hControl]; rfl)
  have hThreaded := inv.threaded_running hControl
  have hStatus := (hThreaded.active_eq hNode).mp rfl
  have hNodes := @nodes_rootCompleted w h frame hCompletion hNone exception
  refine ⟨?_, ?_, nofun, ?_⟩
  · rw [hNone] at hThreaded
    exact hNodes ▸ hThreaded.finishRoot hNode hRole
  · have hKept := inv.kept
    rw [← parked_same (some ⟨.root, .done, none⟩) (not_parked_of_running hNode hStatus) (by
      rintro _ ⟨⟩ (hOther | ⟨hOther, -⟩) <;> cases hOther), ← hNodes] at hKept
    exact hKept
  · exact inv.flag_inside (by rw [hControl]; nofun) nofun

theorem finishChild (inv : Scheduled short w) (hControl : w.control = .running h left)
    (hFrame : w.frames h = some frame) (hCompletion : frame.completion = false) {parent : Nat}
    (hContinuation : frame.continuation = some parent) (exception : Option Nat) :
    Scheduled short { ((ended w h frame exception).setStatus parent .running).destroyFrame h with
      control := .running parent left } := by
  have hNode := nodes_of_frame hFrame
  have hRole : frame.node.role = .child parent := by
    simp [Frame.node, Frame.role, hCompletion, hContinuation]
  have hThreaded := inv.threaded_running hControl
  have hStatus := (hThreaded.active_eq hNode).mp rfl
  obtain ⟨caller, hCaller, hAwaiting⟩ := hThreaded.caller hNode hRole
  have hNe := hThreaded.caller_ne hNode hCaller hAwaiting
  have hNodes := nodes_returnTo hCaller hNe frame exception
  refine ⟨?_, ?_, fun _ => inv.head (by rw [hControl]; rfl), ?_⟩
  · exact hNodes ▸ hThreaded.finishChild hNode hRole hCaller hAwaiting
  · have hFirst : parked (Function.update w.nodes parent (some { caller with status := .running }))
        = parked w.nodes := by
      apply parked_same
      · rw [mem_parked hCaller]
        rintro (hOther | ⟨hOther, -⟩) <;>
        · rw [hAwaiting] at hOther
          cases hOther
      · rintro _ ⟨⟩ (hOther | ⟨hOther, -⟩) <;> cases hOther
    have hSecond := not_parked_of_running hNode hStatus
    rw [← hFirst] at hSecond
    have hKept := inv.kept
    rw [← hFirst, ← parked_same none hSecond nofun, ← hNodes] at hKept
    exact hKept
  · exact inv.flag_inside (by rw [hControl]; nofun) nofun

theorem finish (inv : Scheduled short w) (hControl : w.control = .running h left)
    (hFrame : w.frames h = some frame) (exception : Option Nat) :
    Scheduled short ((ended w h frame exception).finalSuspend h left
      { frame with status := .done, exception }).1 := by
  cases hCompletion : frame.completion with
  | true =>
    simp only [finalSuspend, if_true]
    exact inv.finishRoot hControl hFrame hCompletion exception
  | false =>
    cases hContinuation : frame.continuation with
    | some =>
      simp only [finalSuspend, Bool.false_eq_true, if_false]
      exact inv.finishChild hControl hFrame hCompletion hContinuation exception
    | none =>
      have hFree : frame.node.role = .free := by
        simp [Frame.node, Frame.role, hCompletion, hContinuation]
      exact absurd hFree ((inv.threaded_running hControl).active_role (nodes_of_frame hFrame))

end Running

theorem resume (inv : Scheduled short w) {h left : Nat} {rest : List Nat}
    (hControl : w.control = .runReady (left + 1)) (hReady : w.ready = h :: rest) :
    Scheduled short
      { { w with ready := rest }.setStatus h .running with control := .running h left } := by
  have hKept := inv.kept
  rw [hReady] at hKept
  obtain ⟨node, hNode, hParked⟩ := hKept.mem_of_queue List.mem_cons_self
  have hThreaded := inv.threaded
  rw [show w.control.active = none by rw [hControl]; rfl] at hThreaded
  have hNodes : ({ w with ready := rest }.setStatus h .running).nodes =
      Function.update w.nodes h (some { node with status := .running }) :=
    nodes_setStatus (w := { w with ready := rest }) hNode .running
  refine ⟨?_, ?_, fun _ => inv.head (by rw [hControl]; rfl), ?_⟩
  · exact hNodes ▸ hThreaded.resume hNode hParked
  · have hLeft := hKept.dequeue
    rw [← parked_remove (some { node with status := .running }) (by
      rintro _ ⟨⟩ (hOther | ⟨hOther, -⟩) <;> cases hOther), ← hNodes] at hLeft
    exact hLeft
  · exact inv.flag_inside (by rw [hControl]; nofun) nofun

/-- A root that `drain_completed` destroys is neither queued nor awaited. -/
theorem destroyRoot (inv : Scheduled short w) {root left : Nat} {firstError : Option Nat}
    {frame : Frame} (hControl : w.control = .drain firstError left)
    (hHead : w.completedHead = some root) (hFrame : w.frames root = some frame)
    (control : Option Nat) :
    Scheduled short { w with
      completedHead := frame.completedNext
      roots := w.roots.erase root
      frames := Function.update w.frames root none
      control := .drain control left } := by
  have hNode := nodes_of_frame hFrame
  have hThreaded := inv.threaded
  rw [hHead, show w.control.active = none by rw [hControl]; rfl] at hThreaded
  have hLast : frame.completedNext = none := (hThreaded.sound hNode).last
  have hDone := (hThreaded.completed_eq hNode).mp rfl
  have hNodes := @nodes_update w root none
  refine ⟨?_, ?_, nofun, ?_⟩
  · rw [hLast]
    exact hNodes ▸ hThreaded.destroyRoot
  · have hKept := inv.kept
    have hOut : root ∉ parked w.nodes := by
      rw [mem_parked hNode]
      rintro (hOther | ⟨hOther, -⟩) <;>
      · rw [hDone] at hOther
        cases hOther
    rw [← parked_same none hOut nofun] at hKept
    exact hNodes ▸ hKept
  · exact inv.flag_inside (by rw [hControl]; nofun) nofun

theorem onReady (inv : Scheduled short w) (hKeyed : w.AllKeyed) {o : Obs} {direction : Event}
    (hInside : w.control.inside = true) (hInside' : control.inside = true)
    (hReady : .fault .ready ∈ o :: (World.within (w.onReady faults fd direction) control).2 → short)
      : Scheduled short (World.within (w.onReady faults fd direction) control).1 := by
  refine inv.within (elsewhere_onReady (hKeyed fd)) ?_ hInside hInside'
  refine (keeps_onReady inv.keeps).state (fun e he hEq => hEq.2 (hReady ?_))
  exact List.mem_cons_of_mem _ (mem_within (hEq.1 ▸ he))

/-- Every step keeps each suspended coroutine at one place. Where `ready_` could not grow, the
handle is lost and `short` says so. -/
theorem step (inv : Scheduled short w) (hKeyed : w.AllKeyed) (h : Step wrap w label w' events)
    (hReady : .fault .ready ∈ events → short) : Scheduled short w' := by
  have hPruned (timers : List TimerEntry) : Scheduled short { w with timers } :=
    inv.congr rfl rfl rfl rfl rfl rfl rfl
  cases h with
  | change | close | tick | stop => exact inv.congr rfl rfl rfl rfl rfl rfl rfl
  | rerun => exact inv
  | awaitEmpty => exact inv
  | create hUser hNew => exact inv.create hNew
  | drop hUser hFree =>
    obtain ⟨frame, hFrame, hRole, -⟩ := inv.free_of_isFreeTask hFree
    exact inv.drop hFrame hRole
  | @spawn task fails hUser hFree =>
    rw [toUser_state]
    exact inv.spawn hFree fails
  | cancel =>
    rw [toUser_state]
    refine inv.stay (elsewhere_cancel (hKeyed _)) ((keeps_cancel inv.keeps).state
      (fun e he hEq => hEq.2 (hReady ?_)))
    exact List.mem_cons_of_mem _ (mem_toUser (hEq.1 ▸ he))
  | run hUser hRunning =>
    have hIdle := inv.flag.mp hRunning
    have hMoved := inv.move .turn true (by rw [hIdle]; rfl) (fun _ => inv.head (by rw [hIdle]; rfl))
        (by simp)
    exact hMoved.congr rfl rfl rfl rfl rfl rfl rfl
  | await hControl hFree => exact inv.await hControl hFree
  | yield hControl hOk => exact inv.yield hControl hOk
  | yieldThrows hControl hError =>
    rw [schedule_of_error (by simp [hError])]
    exact inv
  | @wait h left address fd timeout event faults hControl hFresh hOk =>
    obtain ⟨hFree, hTaken⟩ := (taken_armWait (fun _ _ => Set.notMem_empty _)).1 hOk
    have hElse : Elsewhere fd _ w (w.armWait wrap faults address fd event timeout (some h)
        (some h)).state :=
      elsewhere_armWait (hKeyed fd) (Set.mem_univ _) ..
    refine inv.suspend hControl hTaken.nodes ?_ hElse.roots hElse.completedHead hElse.running
    rw [hTaken.slots, hTaken.ready]
    exact inv.kept.fill hFree (inv.not_parked_running hControl)
  | waitThrows hControl hFresh hError =>
    have hThrown := ne_of_eq_of_ne hError (Option.some_ne_none _)
    have hSame := (taken_armWait (fun _ _ => Set.notMem_empty _)).2 hThrown
    exact inv.stay (elsewhere_armWait (hKeyed _) (Set.mem_univ _) ..) (inv.keeps.same hSame)
  | finish hControl hFrame => exact inv.finish hControl hFrame _
  | skipDone hControl hFront hDone =>
    -- a handle in the queue is not done
    have hParked := inv.kept.mem_of_queue (hFront ▸ List.mem_cons_self)
    rw [not_isDone_of_parked hParked] at hDone
    cases hDone
  | resume hControl hFront => exact inv.resume hControl hFront
  | drained hControl hHead =>
    exact inv.move _ w.running (by rw [hControl]; rfl) (fun _ => hHead)
      (inv.flag_inside (by rw [hControl]; nofun) nofun)
  | drainThrows hControl hHead =>
      exact inv.move .idle false (by rw [hControl]; rfl) (fun _ => hHead) (by simp)
  | destroyRoot hControl hHead hFrame => exact inv.destroyRoot hControl hHead hFrame _
  | @expire now second pick timer faults hControl =>
    have inv' : Scheduled short { w with timers := w.timers.eraseIdx pick } := hPruned _
    have hKeyed' : World.AllKeyed { w with timers := w.timers.eraseIdx pick } := hKeyed
    refine inv'.within (elsewhere_expireTimer (hKeyed' _)) ?_ (by rw [hControl]; rfl) rfl
    refine (keeps_expireTimer inv'.keeps).state (fun e he hEq => hEq.2 (hReady ?_))
    exact List.mem_cons_of_mem _ (mem_within (hEq.1 ▸ he))
  | unwatched hControl | turn hControl | batchDone hControl | dispatched hControl => exact inv.inside (by rw [hControl]; rfl) rfl
  | unselected hAt => exact inv.inside hAt.inside.1 hAt.inside.2
  | ready hAt => exact inv.onReady hKeyed hAt.inside.1 hAt.inside.2 hReady
  | @expired now second hControl =>
    exact inv.inside (by rw [hControl]; rfl) (by cases second <;> rfl)
  | @epollWait timers timeout batch kernel reports hControl =>
    have hSame : Scheduled short { w with timers, loop := { w.loop with kernel } } :=
      inv.congr rfl rfl rfl rfl rfl rfl rfl
    have hInside : (Control.dispatch reports).inside = true := rfl
    exact hSame.inside (by rw [hControl]; rfl) hInside
  | returned hControl => exact inv.leave (by rcases hControl with h | h <;> rw [h] <;> rfl)
  | noWakeSource hControl | pollFails hControl => exact (hPruned _).leave (by rw [hControl]; rfl)

end Scheduled

end Tinycoro.Io
