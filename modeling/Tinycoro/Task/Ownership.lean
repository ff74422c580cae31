import Tinycoro.Task.Owned
import Tinycoro.Library.Ledger

/-! Every operation on `Task` objects, and every step of the executor, leaves each frame
with one owner until it is destroyed, also when a destructor makes it, as long as it uses
no object whose `reset` is under way and spawns nothing while `~IoContext` runs. -/
namespace Tinycoro.Task

open Io Transition World Threads Placement

namespace State

def cells (s : State) (o : Nat) : Option Object := s.objects.lookup o

/-- The frames that were created and not destroyed. -/
def live (s : State) : Set Nat := Task.live (roles s.world.nodes) s.detached

end State

theorem cells_insert (objects : Finmap (fun _ : Nat => Object)) (o : Nat) (x : Object) :
    (fun a => (objects.insert o x).lookup a) = Function.update (fun a => objects.lookup a) o
    (some x) := by
  funext a
  by_cases hEq : a = o
  · rw [hEq, Finmap.lookup_insert, Function.update_self]
  · rw [Finmap.lookup_insert_of_ne _ hEq, Function.update_of_ne hEq]

theorem cells_erase (objects : Finmap (fun _ : Nat => Object)) (o : Nat) :
    (fun a => (objects.erase o).lookup a) = Function.update (fun a => objects.lookup a) o none := by
  funext a
  by_cases hEq : a = o
  · rw [hEq, Finmap.lookup_erase, Function.update_self]
  · rw [Finmap.lookup_erase_ne hEq, Function.update_of_ne hEq]

/-- An object whose `reset` is not under way is in memory what it is. -/
theorem memory_eq {s : State} {o : Nat} (h : s.held o = false) : s.memory o = s.cells o := by
  have hNone : s.stale.find? (fun e => e.object = o) = none := by
    simpa [State.held] using h
  rw [State.memory, hNone]
  rfl

theorem cells_of_memory {s : State} {o : Nat} (h : s.memory o = none) : s.cells o = none := by
  unfold State.memory at h
  split at h
  · cases h
  · exact h

theorem userCode_iff {w : World} : userCode w = true ↔ w.UserCode := by
  unfold userCode UserCode
  cases w.control <;> simp

/-- Owners and frames agree, with these handles in the hands of running code. The executor
is in a state it can reach, or nothing is left of it but roots. -/
structure Holds (wrap : Wrap) (s : State) (queue : List Nat) : Prop where
  owned : Owned (roles s.world.nodes) s.world.roots s.cells s.detached queue
  executor : s.destructed = false → ∃ trace, (Io.machine wrap).Reaches s.world trace
  cleared : s.destructed = true → s.world.ready = [] ∧ s.world.fdStates = ∅ ∧
    s.world.control = .idle
  created : ∀ {h node}, s.world.nodes h = some node → node.role = .free → node.status = .created

namespace Holds

variable {wrap : Wrap} {s : State} {queue : List Nat} {o h : Nat} {x : Object}
  {handle scope : Option Nat}

theorem scheduled (inv : Holds wrap s queue) (hAlive : s.destructed = false) :
    Scheduled True s.world := by
  obtain ⟨trace, hReaches⟩ := inv.executor hAlive
  exact (scheduled_of_reaches hReaches).mono fun _ => trivial

theorem alive_of_running (inv : Holds wrap s queue) {left : Nat}
    (hControl : s.world.control = .running h left) : s.destructed = false := by
  by_contra hDestructed
  have hIdle := (inv.cleared (Bool.eq_true_of_not_eq_false hDestructed)).2.2
  rw [hControl] at hIdle
  cases hIdle

/-- A coroutine that has begun is not one that a `Task` owns. -/
theorem begun (inv : Holds wrap s queue) (hLive : h ∈ s.live) (hBegun : s.begun h = true) :
    Begun (roles s.world.nodes) s.detached h := by
  rcases hLive with hRole | hDetached
  · cases hNode : s.world.nodes h with
    | none => exact absurd (by rw [roles, hNode]; rfl) hRole
    | some node =>
      refine .inr ⟨node.role, roles_of_node hNode, fun hFree => ?_⟩
      have hCreated := inv.created hNode hFree
      obtain ⟨frame, hFrame, rfl⟩ := Option.map_eq_some_iff.mp hNode
      have hStatus : frame.status = .created := hCreated
      simp [State.begun, hFrame, hStatus] at hBegun
  · exact .inl hDetached

theorem begun_of_places (inv : Holds wrap s queue) (hPlaces : s.places scope = true) {p : Nat}
    (hP : scope = some p) : Begun (roles s.world.nodes) s.detached p := by
  subst hP
  cases hControl : s.world.control with
  | running current =>
    obtain rfl : current = p := by simpa [State.places, hControl] using hPlaces
    have hSched := inv.scheduled (inv.alive_of_running hControl)
    obtain ⟨frame, hFrame, -⟩ := hSched.running_frame hControl
    have hNode := Scheduled.nodes_of_frame hFrame
    exact .inr ⟨_, roles_of_node hNode, (hSched.threaded_running hControl).active_role hNode⟩
  | _ => simp [State.places, hControl] at hPlaces

/-- What `named` has tested. -/
theorem named (inv : Holds wrap s queue) (hNamed : s.named o = some x) (hHeld : s.held o = false) :
    s.cells o = some x ∧ x.kind = .task ∧
      ∀ {p}, x.scope = some p → Begun (roles s.world.nodes) s.detached p := by
  simp only [State.named, Option.bind_eq_bind, Option.bind_eq_some_iff, memory_eq hHeld] at hNamed
  obtain ⟨y, hLookup, hTest⟩ := hNamed
  split_ifs at hTest with hIf
  cases hTest
  refine ⟨hLookup, hIf.1, fun {p} hP => inv.begun (inv.owned.around hLookup hP) ?_⟩
  have hBegun := hIf.2
  rw [hP] at hBegun
  exact hBegun

theorem release (inv : Holds wrap s queue) (hCell : s.cells o = some x) :
    Holds wrap (s.release o x) (x.handle.toList ++ queue) := by
  refine ⟨?_, inv.executor, inv.cleared, inv.created⟩
  rw [show (s.release o x).cells = _ from cells_insert ..]
  exact inv.owned.release hCell

theorem discard (inv : Holds wrap s queue) (hCell : s.cells o = some x) :
    Holds wrap { s with objects := s.objects.erase o } (x.handle.toList ++ queue) := by
  refine ⟨?_, inv.executor, inv.cleared, inv.created⟩
  rw [show ({ s with objects := s.objects.erase o } : State).cells = _ from cells_erase ..]
  exact inv.owned.discard hCell

theorem store (inv : Holds wrap s (handle.toList ++ queue)) (hCell : s.cells o = some x)
    (hEmpty : x.handle = none) (hKind : x.kind = .task)
    (hFree : ∀ {h}, handle = some h → roles s.world.nodes h = some .free)
    (hScope : ∀ {p}, x.scope = some p → Begun (roles s.world.nodes) s.detached p) :
    Holds wrap { s with objects := s.objects.insert o { x with handle } } queue := by
  refine ⟨?_, inv.executor, inv.cleared, inv.created⟩
  rw [show ({ s with objects := s.objects.insert o { x with handle } } : State).cells =
    _ from cells_insert ..]
  exact inv.owned.store hCell hEmpty hKind hFree fun hP => .inl (hScope hP)

theorem construct {s' : State} (inv : Holds wrap s (handle.toList ++ queue))
    (hDeclare : s.declare o ⟨.task, scope, handle⟩ = some s')
    (hFree : ∀ {h}, handle = some h → roles s.world.nodes h = some .free)
    (hScope : ∀ {p}, scope = some p → Begun (roles s.world.nodes) s.detached p ∨ p ∈ queue) :
    Holds wrap s' queue := by
  unfold State.declare at hDeclare
  split_ifs at hDeclare with hNew
  cases hDeclare
  refine ⟨?_, inv.executor, inv.cleared, inv.created⟩
  rw [show ({ s with objects := s.objects.insert o ⟨.task, scope, handle⟩ } : State).cells =
    _ from cells_insert ..]
  exact inv.owned.construct (cells_of_memory hNew) hFree hScope

end Holds

/-- Between the operations, the handles in hand are those that are being destroyed. -/
structure Inv (wrap : Wrap) (s : State) : Prop where
  holds : Holds wrap s s.dying
  doomed : ∀ {h}, h ∈ s.dying → h ∈ s.detached
  user : s.dying ≠ [] → s.world.UserCode

section Destroy

variable {wrap : Wrap} {s : State} {queue : List Nat} {h : Nat}

theorem roles_destroyFrame (w : World) (h : Nat) :
    roles (w.destroyFrame h).nodes = Function.update (roles w.nodes) h none :=
  roles_update_frame h none

theorem destroyFrame_of_none {w : World} (hNone : w.frames h = none) : w.destroyFrame h = w := by
  unfold destroyFrame
  rw [← hNone, Function.update_eq_self]

theorem frames_eq_none {w : World} (hRole : roles w.nodes h = none) : w.frames h = none := by
  simpa [roles, World.nodes] using hRole

theorem live_destroy (hLive : h ∈ s.live) : (s.destroy h).live = s.live := by
  unfold State.live State.destroy
  rw [roles_destroyFrame]
  exact Owned.live_detach hLive

/-- A handle that was taken from its owner is destroyed. -/
theorem Holds.destroy (inv : Holds wrap s (h :: s.dying))
    (hDoomed : ∀ {a}, a ∈ s.dying → a ∈ s.detached) (hUser : s.world.UserCode)
    (hKind : s.destructed = true ∨ roles s.world.nodes h = some .free ∨ h ∈ s.detached) :
    Inv wrap (s.destroy h) := by
  have hLive : h ∈ s.live := inv.owned.placed.mem_iff.mpr (.inl List.mem_cons_self)
  refine ⟨⟨?_, fun hAlive => ?_, fun hDestructed => inv.cleared hDestructed, ?_⟩, ?_, fun _ =>
    hUser⟩
  · have hOwned := inv.owned.detach hLive fun hObject _ => inv.owned.not_held hObject
    rw [← roles_destroyFrame] at hOwned
    exact hOwned
  · obtain ⟨trace, hReaches⟩ := inv.executor hAlive
    have hNotDestructed : s.destructed = false := hAlive
    rcases hKind with hDestructed | hFree | hDetached
    · rw [hNotDestructed] at hDestructed
      cases hDestructed
    · have hTask := isFreeTask_of_roles (inv.scheduled hAlive) hFree
      have hDrop : s.world.next wrap (.drop h) = some (s.world.destroyFrame h, []) := by
        rcases hUser with hControl | ⟨a, left, hControl⟩ | ⟨firstError, left, hControl⟩ <;>
          simp [World.next, outsideStep, userStep, hControl, hTask]
      exact ⟨_, hReaches.step (a := Io.Label.drop h) hDrop⟩
    · have hSame := destroyFrame_of_none (frames_eq_none (inv.owned.apart hDetached))
      exact ⟨trace, by rw [State.destroy, hSame]; exact hReaches⟩
  · intro a node hNode hFree
    have hNodes : (s.destroy h).world.nodes = Function.update s.world.nodes h none :=
      Scheduled.nodes_update h none
    rw [hNodes] at hNode
    obtain ⟨-, hNode⟩ := Update.of_none hNode
    exact inv.created hNode hFree
  · intro a hMem
    rcases List.mem_cons.mp hMem with rfl | hMem
    · exact Finset.mem_insert_self ..
    · exact Finset.mem_insert_of_mem (hDoomed hMem)

/-- What is still in memory does not matter to the owners. -/
theorem Inv.stale (inv : Inv wrap s) (stale : List Stale) (root : Option Nat) :
    Inv wrap { s with stale, root } :=
  ⟨⟨inv.holds.owned, inv.holds.executor, inv.holds.cleared, inv.holds.created⟩, inv.doomed,
    inv.user⟩

theorem Holds.reset {handle : Option Nat} (kept : List (Nat × Object))
    (inv : Holds wrap s (handle.toList ++ s.dying)) (hDoomed : ∀ {a}, a ∈ s.dying → a ∈ s.detached)
    (hUser : s.world.UserCode) (hKind : ∀ {h}, handle = some h →
      s.destructed = true ∨ roles s.world.nodes h = some .free ∨ h ∈ s.detached) :
    Inv wrap (s.reset kept handle) ∧ (s.reset kept handle).live = s.live := by
  cases handle with
  | none => exact ⟨⟨inv, hDoomed, fun _ => hUser⟩, rfl⟩
  | some h =>
    have hLive : h ∈ s.live := inv.owned.placed.mem_iff.mpr (.inl List.mem_cons_self)
    exact ⟨(Holds.destroy inv hDoomed hUser (hKind rfl)).stale .., live_destroy hLive⟩

end Destroy

section Operations

variable {wrap : Wrap} {s s' : State} {events : List Event} {o other h : Nat} {scope : Option Nat}

/-- What an operation does to the frames that are there. -/
inductive Account (s s' : State) : List Event → Prop where
  | same (hLive : s'.live = s.live) : Account s s' []
  | created {h : Nat} (hNew : h ∉ s.live) (hLive : s'.live = insert h s.live) :
      Account s s' [.created h]
  | destroyed {h : Nat} (hOld : h ∈ s.live) (hLive : s'.live = s.live \ {h}) :
      Account s s' [.destroyed h]

/-- An operation that only concerns objects. -/
theorem Inv.of_holds (inv : Inv wrap s) (hHolds : Holds wrap s' s.dying)
    (hWorld : s'.world = s.world) (hDetached : s'.detached = s.detached)
    (hDying : s'.dying = s.dying) : Inv wrap s' ∧ s'.live = s.live := by
  refine ⟨⟨hDying ▸ hHolds, ?_, ?_⟩, by rw [State.live, hWorld, hDetached, State.live]⟩
  · rw [hDying, hDetached]
    exact inv.doomed
  · rw [hDying, hWorld]
    exact inv.user

theorem declare_fields {x : Object} (h : s.declare o x = some s') :
    s'.world = s.world ∧ s'.detached = s.detached ∧ s'.dying = s.dying ∧ s'.held = s.held := by
  unfold State.declare at h
  split_ifs at h
  cases h
  exact ⟨rfl, rfl, rfl, rfl⟩

theorem Inv.construct (inv : Inv wrap s) (hPlaces : s.places scope = true)
    (h : s.declare o ⟨.task, scope, none⟩ = some s') : Inv wrap s' ∧ s'.live = s.live := by
  obtain ⟨hWorld, hDetached, hDying, -⟩ := declare_fields h
  refine inv.of_holds ?_ hWorld hDetached hDying
  have hNothing : Holds wrap s ((none : Option Nat).toList ++ s.dying) := inv.holds
  exact hNothing.construct h nofun fun hP => .inl (inv.holds.begun_of_places hPlaces hP)

theorem Inv.moveConstruct (inv : Inv wrap s) (hHeld : s.held other = false)
    (h : s.moveConstruct o other scope = some s') : Inv wrap s' ∧ s'.live = s.live := by
  unfold State.moveConstruct at h
  split_ifs at h with hPlaces
  simp only [Option.bind_eq_bind, Option.bind_eq_some_iff] at h
  obtain ⟨x, hNamed, hDeclare⟩ := h
  obtain ⟨hWorld, hDetached, hDying, -⟩ := declare_fields hDeclare
  obtain ⟨hCell, hKind, -⟩ := inv.holds.named hNamed hHeld
  refine inv.of_holds ?_ hWorld hDetached hDying
  apply (inv.holds.release hCell).construct hDeclare
  · exact fun hHandle => inv.holds.owned.task hCell hKind hHandle
  · exact fun hP => .inl (inv.holds.begun_of_places hPlaces hP)

theorem reset_cells (s : State) (kept : List (Nat × Object)) (handle : Option Nat) :
    (s.reset kept handle).cells = s.cells := by
  cases handle <;> rfl

variable {p : Nat} {queue : List Nat} {w : World} {label : Io.Label}
  {objects : Finmap (fun _ : Nat => Object)} {arguments : List (Nat × Nat)}

theorem begun_reset {kept : List (Nat × Object)} {handle : Option Nat}
    (h : Begun (roles s.world.nodes) s.detached p) :
    Begun (roles (s.reset kept handle).world.nodes) (s.reset kept handle).detached p := by
  cases handle with
  | none => exact h
  | some =>
    simp only [State.reset, State.destroy, roles_destroyFrame]
    exact Owned.begun_detach h

/-- Move assignment destroys the frame the target had and takes over the other. -/
theorem Inv.moveAssign (inv : Inv wrap s) (hUser : s.world.UserCode) (hHeld : s.held o = false)
    (hHeld' : s.held other = false) (h : s.moveAssign o other = some s') :
    Inv wrap s' ∧ s'.live = s.live := by
  simp only [State.moveAssign, Option.bind_eq_bind, Option.bind_eq_some_iff] at h
  obtain ⟨x, hNamed, h⟩ := h
  split_ifs at h with hSelf
  · cases h
    exact ⟨inv, rfl⟩
  · obtain ⟨y, hOther, hEq⟩ := Option.bind_eq_some_iff.mp h
    cases hEq
    obtain ⟨hCell, hKind, hScope⟩ := inv.holds.named hNamed hHeld
    obtain ⟨hCellOther, hKindOther, -⟩ := inv.holds.named hOther hHeld'
    -- what the target owned is destroyed
    obtain ⟨invReset, hLive⟩ := Holds.reset [(o, x), (other, y)] (inv.holds.release hCell)
      inv.doomed hUser fun hHandle => .inr (.inl (inv.holds.owned.task hCell hKind hHandle))
    have hEmptied : ((s.release o x).reset [(o, x), (other, y)] x.handle).cells =
        Function.update s.cells o (some { x with handle := none }) :=
      (reset_cells ..).trans (cells_insert ..)
    have hBegun : ∀ {p}, x.scope = some p →
        Begun (roles ((s.release o x).reset [(o, x), (other, y)] x.handle).world.nodes)
          ((s.release o x).reset [(o, x), (other, y)] x.handle).detached p :=
      fun hP => begun_reset (hScope hP)
    generalize (s.release o x).reset [(o, x), (other, y)] x.handle = middle at *
    have hStill : middle.cells other = some y := by
      rw [hEmptied, Function.update_of_ne (Ne.symm hSelf), hCellOther]
    -- the handle goes from one object to the other
    have hReleased := invReset.holds.release hStill
    have hTarget : (middle.release other y).cells o = some { x with handle := none } := by
      refine (congrFun (cells_insert ..) o).trans ?_
      rw [Function.update_of_ne hSelf]
      exact (congrFun hEmptied o).trans (Function.update_self ..)
    have hStored := hReleased.store hTarget rfl hKind
      (fun hHandle => invReset.holds.owned.task hStill hKindOther hHandle) hBegun
    obtain ⟨invStored, hSame⟩ := invReset.of_holds hStored rfl rfl rfl
    exact ⟨invStored, hSame.trans hLive⟩

theorem Inv.destroyTask (inv : Inv wrap s) (hUser : s.world.UserCode) (hHeld : s.held o = false)
    (h : s.destroyTask o = some s') : Inv wrap s' ∧ s'.live = s.live := by
  simp only [State.destroyTask, Option.bind_eq_bind, Option.bind_eq_some_iff] at h
  obtain ⟨x, hNamed, hEq⟩ := h
  cases hEq
  obtain ⟨hCell, hKind, -⟩ := inv.holds.named hNamed hHeld
  exact (inv.holds.discard hCell).reset _ inv.doomed hUser fun hHandle =>
    .inr (.inl (inv.holds.owned.task hCell hKind hHandle))

/-- A child whose coroutine has not ended is awaited, and its caller does not run. -/
theorem Holds.not_child (inv : Holds wrap s queue) {left c : Nat}
    (hControl : s.world.control = .running p left) : roles s.world.nodes c ≠ some (.child p) := by
  intro hRole
  have hSched := inv.scheduled (inv.alive_of_running hControl)
  have hCallee := hSched.threaded.hung.linked.mpr hRole
  obtain ⟨frame, hFrame, hStatus⟩ := hSched.running_frame hControl
  rw [callees_of_node (Scheduled.nodes_of_frame hFrame), show frame.node.status = .running
    from hStatus] at hCallee
  cases hCallee

theorem Inv.endAwait (inv : Inv wrap s) (hUser : s.world.UserCode) (h : s.endAwait o = some s') :
    Inv wrap s' ∧ s'.live = s.live := by
  cases hControl : s.world.control with
  | running =>
    simp only [State.endAwait, hControl, Option.bind_eq_bind, Option.bind_eq_some_iff] at h
    obtain ⟨x, hCell, h⟩ := h
    split_ifs at h with hOwn
    cases h
    obtain ⟨p', hScope, -, hChild⟩ := inv.holds.owned.awaiter hCell hOwn.1
    rw [hOwn.2] at hScope
    cases hScope
    exact (inv.holds.discard hCell).reset _ inv.doomed hUser fun hHandle =>
      .inr (.inr ((hChild hHandle).resolve_right (inv.holds.not_child hControl)))
  | _ => simp [State.endAwait, hControl] at h

theorem nodes_eq_none (hRole : roles w.nodes h = none) : w.nodes h = none := by
  simpa [roles] using hRole

/-- One more object of the frame that is destroyed goes. -/
theorem Inv.unwindObject (inv : Inv wrap s) {x : Object} (hDying : p ∈ s.dying)
    (hCell : s.cells o = some x) (hScope : x.scope = some p) :
    Inv wrap ({ s with objects := s.objects.erase o }.reset [(o, x)] x.handle) ∧
      ({ s with objects := s.objects.erase o }.reset [(o, x)] x.handle).live = s.live := by
  have hUser := inv.user (List.ne_nil_of_mem hDying)
  refine (inv.holds.discard hCell).reset _ inv.doomed hUser fun {c} hHandle => ?_
  cases hKind : x.kind with
  | task => exact .inr (.inl (inv.holds.owned.task hCell hKind hHandle))
  | awaiter =>
    obtain ⟨p', hScope', -, hChild⟩ := inv.holds.owned.awaiter hCell hKind
    rw [hScope] at hScope'
    cases hScope'
    rcases hChild hHandle with hDetached | hRole
    · exact .inr (.inr hDetached)
    · -- a frame that is gone from the executor awaits nobody
      refine .inl ?_
      by_contra hAlive
      have hSched := inv.holds.scheduled (Bool.eq_false_of_not_eq_true hAlive)
      have hCallee := hSched.threaded.hung.linked.mpr hRole
      rw [callees, nodes_eq_none (inv.holds.owned.apart (inv.doomed hDying))] at hCallee
      cases hCallee

theorem Inv.free (inv : Inv wrap s) {rest : List Nat} (hDying : s.dying = h :: rest)
    (hVacant : s.vacant h = true) :
    Inv wrap (s.returned h rest) ∧ h ∈ s.live ∧ (s.returned h rest).live = s.live \ {h} := by
  have hDetached : h ∈ s.detached := inv.doomed (by rw [hDying]; exact List.mem_cons_self)
  have hHolds := inv.holds
  rw [hDying] at hHolds
  have hOwned := hHolds.owned.free hDetached (fun {a y} hCell hScope => by
    have hAll := (decide_eq_true_eq.mp hVacant) a (Finmap.mem_keys.mpr
    (Finmap.mem_iff.mpr ⟨y, hCell⟩))
    simp [show s.objects.lookup a = some y from hCell, hScope] at hAll)
  have hNodup := hHolds.owned.placed.nodup
  refine ⟨⟨⟨hOwned, hHolds.executor, hHolds.cleared, hHolds.created⟩, fun {a} hMem => ?_, fun _ =>
    ?_⟩, .inr hDetached, ?_⟩
  · have hOld : a ∈ s.dying := by rw [hDying]; exact List.mem_cons_of_mem h hMem
    refine Finset.mem_erase_of_ne_of_mem ?_ (inv.doomed hOld)
    rintro rfl
    exact (List.nodup_cons.mp hNodup).1 hMem
  · exact inv.user (by rw [hDying]; exact List.cons_ne_nil _ _)
  · exact Owned.live_free hHolds.owned hDetached

theorem Inv.destroyRoot (inv : Inv wrap s) (h' : s.destroyRoot h = some s') :
    Inv wrap s' ∧ s'.live = s.live := by
  unfold State.destroyRoot at h'
  split_ifs at h' with hReady
  obtain ⟨hDestructed, -, hRoot⟩ := hReady
  cases h'
  obtain ⟨hQueue, hStates, hIdle⟩ := inv.holds.cleared hDestructed
  have hHolds :
      Holds wrap { s with world := { s.world with roots := s.world.roots.erase h }, root := some h }
      (h :: s.dying) :=
    ⟨inv.holds.owned.unroot hRoot, fun hAlive => absurd hDestructed
      (by rw [show s.destructed = false from hAlive]; nofun), fun _ => ⟨hQueue, hStates, hIdle⟩,
      inv.holds.created⟩
  have hLive : h ∈ s.live := hHolds.owned.placed.mem_iff.mpr (.inl List.mem_cons_self)
  exact ⟨hHolds.destroy inv.doomed (.inl hIdle) (.inl hDestructed),
    live_destroy (s := { s with world := _, root := _ }) hLive⟩

theorem Inv.destruct (inv : Inv wrap s) (hIdle : s.dying = []) (h : s.destruct = some s') :
    Inv wrap s' ∧ s'.live = s.live := by
  unfold State.destruct at h
  split_ifs at h with hControl
  cases h
  refine ⟨⟨⟨inv.holds.owned, nofun, fun _ => ⟨rfl, rfl, hControl⟩, inv.holds.created⟩, inv.doomed,
    ?_⟩, rfl⟩
  exact fun hDying => absurd hIdle hDying

/-- A step of the executor is part of its run. -/
theorem Holds.reaches (inv : Holds wrap s queue) (hAlive : s.destructed = false) {later : List Obs}
    (hNext : s.world.next wrap label = some (w, later)) :
    ∃ trace, (Io.machine wrap).Reaches w trace := by
  obtain ⟨trace, hReaches⟩ := inv.executor hAlive
  exact ⟨_, hReaches.step (a := label) hNext⟩

theorem Holds.keyed (inv : Holds wrap s queue) (hAlive : s.destructed = false) :
    s.world.AllKeyed := by
  obtain ⟨trace, hReaches⟩ := inv.executor hAlive
  exact allKeyed_of_reaches hReaches

/-- The executor has moved on, and the owners agree with it. -/
theorem inv_of_reaches {detached : Finset Nat} (hDoomed : ∀ {a}, a ∈ s.dying → a ∈ s.detached)
    (hUser : s.dying ≠ [] → w.UserCode) (hAlive : s.destructed = false)
    (hReaches : ∃ trace, (Io.machine wrap).Reaches w trace) (hDetached : s.detached ⊆ detached)
    (hOwned : Owned (roles w.nodes) w.roots (fun o => objects.lookup o) detached s.dying) :
    Inv wrap { s with world := w, objects, detached } := by
  obtain ⟨trace, hReach⟩ := hReaches
  refine ⟨⟨hOwned, fun _ => ⟨trace, hReach⟩, fun hDestructed => ?_, ?_⟩,
    fun hMem => hDetached (hDoomed hMem), hUser⟩
  · rw [show s.destructed = true from hDestructed] at hAlive
    cases hAlive
  · exact fun hNode => ((scheduled_of_reaches hReach).threaded.sound hNode).free

/-- The executor has let go of a frame, which is destroyed. -/
theorem inv_of_gone (hDoomed : ∀ {a}, a ∈ s.dying → a ∈ s.detached) (hAlive : s.destructed = false)
    (hReaches : ∃ trace, (Io.machine wrap).Reaches w trace) (hUser : w.UserCode)
    (hGone : w.frames h = none)
    (hOwned : Owned (roles w.nodes) w.roots (fun o => objects.lookup o) (insert h s.detached)
      (h :: s.dying)) : Inv wrap ({ s with world := w, objects }.destroy h) := by
  obtain ⟨trace, hReach⟩ := hReaches
  unfold State.destroy
  rw [destroyFrame_of_none hGone]
  refine ⟨⟨hOwned, fun _ => ⟨trace, hReach⟩, fun hDestructed => ?_, ?_⟩, fun {a} hMem => ?_,
    fun _ => hUser⟩
  · rw [show s.destructed = true from hDestructed] at hAlive
    cases hAlive
  · exact fun hNode => ((scheduled_of_reaches hReach).threaded.sound hNode).free
  · rcases List.mem_cons.mp hMem with rfl | hMem
    · exact Finset.mem_insert_self ..
    · exact Finset.mem_insert_of_mem (hDoomed hMem)

theorem live_gone (hGone : w.frames h = none)
    (hRoles : roles w.nodes = Function.update (roles s.world.nodes) h none) (hLive : h ∈ s.live) :
    ({ s with world := w, objects }.destroy h).live = s.live := by
  unfold State.destroy
  rw [destroyFrame_of_none hGone, State.live, hRoles]
  exact Owned.live_detach hLive

/-- `co_await` hands the frame over to the awaiter. -/
theorem Inv.await (inv : Inv wrap s) (hIdle : s.dying = []) (hHeld : s.held o = false)
    (h : s.await wrap o other = some s') : Inv wrap s' ∧ s'.live = s.live := by
  cases hControl : s.world.control with
  | running p =>
    simp only [State.await, hControl, Option.bind_eq_bind, Option.bind_eq_some_iff] at h
    obtain ⟨x, hNamed, ⟨w, later⟩, hNext, hDeclare⟩ := h
    have hAlive := inv.holds.alive_of_running hControl
    have hReaches := inv.holds.reaches hAlive hNext
    obtain ⟨hCell, hKind, -⟩ := inv.holds.named hNamed hHeld
    unfold State.declare at hDeclare
    split_ifs at hDeclare with hNew
    cases hDeclare
    have hPlaces : s.places (some p) = true := by simp [State.places, hControl]
    have hBegun := inv.holds.begun_of_places hPlaces rfl
    have hReleased := inv.holds.owned.release hCell
    have hDeclared := hReleased.declare (o := other) (x := ⟨.awaiter, some p, none⟩)
      ((congrFun (cells_insert ..) other).symm.trans (cells_of_memory hNew)) rfl
      (fun hP => by cases hP; exact Owned.begun_live hBegun) (fun _ => ⟨p, rfl, hBegun⟩)
    have hCells (y : Object) : (fun a => ((s.objects.insert o { x with handle := none }).insert
        other y).lookup a) = Function.update (Function.update s.cells o
        (some { x with handle := none })) other (some y) := by
      rw [cells_insert, cells_insert]
      rfl
    cases hHandle : x.handle with
    | none =>
      rw [hHandle] at hNext hDeclared
      cases Io.step_of_next hNext
      rw [← hCells] at hDeclared
      exact ⟨inv_of_reaches inv.doomed (absurd hIdle) hAlive hReaches (subset_refl _) hDeclared,
        rfl⟩
    | some c =>
      rw [hHandle] at hNext hDeclared
      have hFree := inv.holds.owned.task hCell hKind hHandle
      cases Io.step_of_next hNext with
      | await hControl' hTask =>
        rw [hControl] at hControl'
        cases hControl'
        have hRoles := roles_await (inv.holds.scheduled hAlive) hControl hTask
        have hAdopted := hDeclared.adopt (Function.update_self ..) rfl rfl hFree rfl
        rw [Function.update_idem, ← hCells, ← hRoles] at hAdopted
        refine ⟨inv_of_reaches inv.doomed (absurd hIdle) hAlive hReaches (subset_refl _) hAdopted,
          ?_⟩
        have hLive : c ∈ s.live := .inl (by rw [hFree]; nofun)
        exact (congrArg (Task.live · s.detached) hRoles).trans
          (Owned.live_update hLive (Option.some_ne_none _))
  | _ => simp [State.await, hControl] at h

/-- `spawn` hands the frame over to `roots_`, or gives it back where it throws. -/
theorem Inv.spawn (inv : Inv wrap s) (hUser : s.world.UserCode) (hAlive : s.destructed = false)
    (hHeld : s.held o = false) {fails : Bool} (h : s.spawn wrap o fails = some s') :
    Inv wrap s' ∧ s'.live = s.live := by
  simp only [State.spawn, Option.bind_eq_bind, Option.bind_eq_some_iff] at h
  obtain ⟨x, hNamed, ⟨w, later⟩, hNext, h⟩ := h
  have hReaches := inv.holds.reaches hAlive hNext
  obtain ⟨hCell, hKind, -⟩ := inv.holds.named hNamed hHeld
  have hReleased := inv.holds.owned.release hCell
  rw [show Function.update s.cells o _ = _ from (cells_insert ..).symm] at hReleased
  cases hHandle : x.handle with
  | none =>
    rw [hHandle] at hNext hReleased h
    cases Io.step_of_next hNext
    cases h
    exact ⟨inv_of_reaches inv.doomed inv.user hAlive hReaches (subset_refl _) hReleased, rfl⟩
  | some c =>
    rw [hHandle] at hNext hReleased h
    have hFree := inv.holds.owned.task hCell hKind hHandle
    have hLive : c ∈ s.live := .inl (by rw [hFree]; nofun)
    have hStill : (World.spawn fails s.world (some c)).state.UserCode := by
      rw [UserCode, spawn_control]
      exact hUser
    cases Io.step_of_next hNext with
    | spawn hUser' hTask =>
      obtain ⟨hNew, ⟨hRoles, hRoots⟩ | ⟨hGone, hRoles, hRoots⟩⟩ :=
        roles_spawn (inv.holds.scheduled hAlive) (by simpa using hTask) fails
      · rw [toUser_state] at h hReaches
        simp only [hRoots, Finset.mem_insert_self, if_true] at h
        cases h
        have hRooted := (hReleased.recast hFree .root nofun).root hNew
        rw [← hRoles, ← hRoots] at hRooted
        refine ⟨inv_of_reaches inv.doomed (fun _ => hStill) hAlive hReaches (subset_refl _) hRooted,
          ?_⟩
        exact (congrArg (Task.live · s.detached) hRoles).trans
          (Owned.live_update hLive (Option.some_ne_none _))
      · rw [toUser_state] at h hReaches
        simp only [hRoots, hNew, if_false] at h
        cases h
        have hDetached := hReleased.detach hLive fun hObject _ => hReleased.not_held hObject
        rw [← hRoles, ← hRoots] at hDetached
        exact ⟨inv_of_gone inv.doomed hAlive hReaches hStill hGone hDetached, live_gone hGone hRoles
          hLive⟩

/-- `spawn` on an empty object while `~IoContext` runs. -/
theorem Inv.spawnLate (inv : Inv wrap s) {fails : Bool} (hLate : ∀ a, .spawnedLate a ∉ events)
    (h : s.spawnLate o fails = some (s', events)) : Inv wrap s' ∧ Account s s' events := by
  simp only [State.spawnLate, Option.bind_eq_bind, Option.bind_eq_some_iff] at h
  obtain ⟨x, -, h⟩ := h
  cases hHandle : x.handle with
  | none =>
    rw [hHandle] at h
    cases h
    exact ⟨inv, .same rfl⟩
  | some a =>
    rw [hHandle] at h
    cases h
    exact absurd (List.mem_singleton_self _) (hLate a)

theorem bind_fields (h' : State.bind h arguments s = some s') :
    s'.world = s.world ∧ s'.detached = s.detached ∧ s'.dying = s.dying := by
  induction arguments generalizing s with
  | nil =>
    cases h'
    exact ⟨rfl, rfl, rfl⟩
  | cons argument arguments ih =>
    simp only [State.bind, Option.bind_eq_bind, Option.bind_eq_some_iff] at h'
    obtain ⟨x, -, middle, hDeclare, hRest⟩ := h'
    obtain ⟨hWorld, hDetached, hDying, -⟩ := declare_fields hDeclare
    obtain ⟨hWorld', hDetached', hDying'⟩ := ih hRest
    exact ⟨hWorld'.trans hWorld, hDetached'.trans hDetached, hDying'.trans hDying⟩

/-- The arguments are in the new frame, whose handle is still in hand. -/
theorem Holds.bind (inv : Holds wrap s (h :: queue))
    (hHeld : ∀ o ∈ arguments.map Prod.fst, s.held o = false)
    (h' : State.bind h arguments s = some s') : Holds wrap s' (h :: queue) := by
  induction arguments generalizing s with
  | nil =>
    cases h'
    exact inv
  | cons argument arguments ih =>
    simp only [State.bind, Option.bind_eq_bind, Option.bind_eq_some_iff] at h'
    obtain ⟨x, hNamed, middle, hDeclare, hRest⟩ := h'
    rw [List.map_cons, List.forall_mem_cons] at hHeld
    obtain ⟨hCell, hKind, -⟩ := inv.named hNamed hHeld.1
    refine ih ((inv.release hCell).construct hDeclare ?_ ?_) ?_ hRest
    · exact fun hHandle => inv.owned.task hCell hKind hHandle
    · rintro p ⟨⟩
      exact .inr List.mem_cons_self
    · rw [(declare_fields hDeclare).2.2.2]
      exact hHeld.2

/-- The frame of a coroutine that was called, with its handle in hand. -/
theorem Holds.create {queue : List Nat} (inv : Holds wrap s queue) {w : World} {later : List Obs}
    (hNext : s.world.next wrap (.create h) = some (w, later)) (hDetached : h ∉ s.detached) :
    h ∉ s.live ∧ w.control = s.world.control ∧ roles w.nodes = Function.update (roles s.world.nodes)
      h (some .free) ∧ Holds wrap { s with world := w } (h :: queue) := by
  have hReaches (hAlive : s.destructed = false) := inv.reaches hAlive hNext
  cases Io.step_of_next hNext with
  | create hUser hNew =>
    have hNotLive : h ∉ s.live := by
      rintro (hRole | hMem)
      · exact hRole (by simp [roles, World.nodes, hNew])
      · exact hDetached hMem
    have hRoles := roles_update_frame (w := s.world) h (some .create)
    refine ⟨hNotLive, rfl, hRoles, ?_, hReaches, inv.cleared, ?_⟩
    · rw [hRoles]
      exact inv.owned.create hNotLive
    · intro a node hNode hFree
      rw [Scheduled.nodes_update] at hNode
      rcases Update.some_cases hNode with ⟨rfl, rfl⟩ | ⟨-, hNode⟩
      · rfl
      · exact inv.created hNode hFree

theorem Inv.call (inv : Inv wrap s) (hHeld : ∀ o ∈ arguments.map Prod.fst, s.held o = false)
    (h' : s.call wrap h o scope arguments = some (s', events)) :
    Inv wrap s' ∧ Account s s' events := by
  unfold State.call at h'
  split_ifs at h' with hGuard
  simp only [Option.bind_eq_bind, Option.bind_eq_some_iff] at h'
  obtain ⟨⟨w, later⟩, hNext, middle, hBind, last, hDeclare, hEq⟩ := h'
  cases hEq
  obtain ⟨hNew, hControl, hRoles, hCreated⟩ := inv.holds.create hNext hGuard.2
  obtain ⟨hWorld, hDetached, hDying⟩ := bind_fields hBind
  obtain ⟨hWorld', hDetached', hDying', -⟩ := declare_fields hDeclare
  have hLast : s'.world = w := hWorld'.trans hWorld
  have hPlaces : middle.places scope = true := by
    have hSame : middle.world.control = s.world.control := by rw [hWorld, hControl]
    unfold State.places
    rw [hSame]
    exact hGuard.1
  have hBound : Holds wrap middle ((some h).toList ++ s.dying) := hCreated.bind hHeld hBind
  have hHolds := hBound.construct hDeclare (by rintro _ ⟨⟩; rw [hWorld, hRoles,
    Function.update_self]) fun hP => .inl (hBound.begun_of_places hPlaces hP)
  refine ⟨⟨?_, ?_, ?_⟩, .created hNew ?_⟩
  · rw [hDying', hDying]
    exact hHolds
  · rw [hDying', hDying, hDetached', hDetached]
    exact inv.doomed
  · rw [hDying', hDying, hLast, UserCode, hControl]
    exact inv.user
  · rw [State.live, hLast, hRoles, hDetached', hDetached]
    exact Owned.live_create

/-- `stop` and `cancel` leave the control where it is. -/
theorem userCode_reentrant {w' : World} {later : List Obs} (hKeyed : w.AllKeyed)
    (hLabel : (Label.io label).reentrant = true) (hUser : w.UserCode)
    (hNext : w.next wrap label = some (w', later)) : w'.UserCode := by
  cases label with
  | stop =>
    cases Io.step_of_next hNext
    exact hUser
  | cancel fd =>
    cases Io.step_of_next hNext
    rw [UserCode, toUser_state, (elsewhere_cancel (hKeyed fd)).control]
    exact hUser
  | _ => cases hLabel

/-- A step of the executor that concerns no `Task`. -/
theorem Inv.io (inv : Inv wrap s) (hAlive : s.destructed = false)
    (hIdle : s.dying = [] ∨ (Label.io label).reentrant = true) (hNeutral : neutral label = true)
    (h : s.io wrap label = some s') : Inv wrap s' ∧ s'.live = s.live := by
  simp only [State.io, Option.bind_eq_bind, Option.bind_eq_some_iff] at h
  obtain ⟨⟨w, later⟩, hNext, h⟩ := h
  have hReaches := inv.holds.reaches hAlive hNext
  have hUser : s.dying ≠ [] → w.UserCode := fun hDying =>
    userCode_reentrant (inv.holds.keyed hAlive) (hIdle.resolve_left hDying) (inv.user hDying) hNext
  cases recast_of_step (inv.holds.scheduled hAlive) (inv.holds.keyed hAlive) hNeutral
    (Io.step_of_next hNext) with
  | same hLeaves hDrains hSame =>
    simp only [hLeaves, hDrains] at h
    cases h
    have hOwned := inv.holds.owned
    rw [← hSame.1, ← hSame.2] at hOwned
    exact ⟨inv_of_reaches inv.doomed hUser hAlive hReaches (subset_refl _) hOwned,
      congrArg (Task.live · s.detached) hSame.1⟩
  | @returns a parent hLeaves hRole hRoles hRoots =>
    simp only [hLeaves] at h
    cases h
    have hLive : a ∈ s.live := .inl (by rw [hRole]; nofun)
    have hOwned := inv.holds.owned.detach hLive fun hObject hKind hHandle => by
      rw [inv.holds.owned.task hObject hKind hHandle] at hRole
      cases hRole
    rw [← hRoles, ← hRoots] at hOwned
    refine ⟨inv_of_reaches inv.doomed hUser hAlive hReaches (Finset.subset_insert ..) hOwned, ?_⟩
    exact (congrArg (Task.live · (insert a s.detached)) hRoles).trans (Owned.live_detach hLive)
  | @drained root hLeaves hDrains hCode hGone hRole hRoles hRoots =>
    simp only [hLeaves, hDrains] at h
    cases h
    have hLive : root ∈ s.live := .inl (by rw [hRole]; nofun)
    have hRoot : root ∈ s.world.roots := (inv.holds.scheduled hAlive).threaded.roots.mpr hRole
    have hTaken := inv.holds.owned.unroot hRoot
    have hOwned := hTaken.detach hLive fun hObject _ => hTaken.not_held hObject
    rw [← hRoles, ← hRoots] at hOwned
    exact ⟨inv_of_gone inv.doomed hAlive hReaches hCode hGone hOwned, live_gone hGone hRoles hLive⟩

end Operations

section Run

variable {wrap : Wrap} {s s' : State} {label : Label} {events : List Event}

/-- The account of an operation that creates and destroys nothing by itself. -/
theorem account_of_map {result : Option State}
    (h : result.map (·, ([] : List Event)) = some (s', events))
    (hInv : result = some s' → Inv wrap s' ∧ s'.live = s.live) :
    Inv wrap s' ∧ Account s s' events := by
  obtain ⟨last, hLast, hEq⟩ := Option.map_eq_some_iff.mp h
  cases hEq
  obtain ⟨inv, hLive⟩ := hInv hLast
  exact ⟨inv, .same hLive⟩

theorem Inv.unwind (inv : Inv wrap s) {object : Option Nat}
    (h : s.unwind object = some (s', events)) : Inv wrap s' ∧ Account s s' events := by
  unfold State.unwind at h
  split at h
  · cases h
  · rename_i p rest o hDying
    simp only [Option.bind_eq_bind, Option.bind_eq_some_iff] at h
    obtain ⟨x, hCell, h⟩ := h
    split_ifs at h with hScope
    cases h
    obtain ⟨inv', hLive⟩ := inv.unwindObject (by rw [hDying]; exact List.mem_cons_self) hCell hScope
    exact ⟨inv', .same hLive⟩
  · rename_i p rest hDying
    split_ifs at h with hVacant
    cases h
    obtain ⟨inv', hOld, hLive⟩ := inv.free hDying hVacant
    exact ⟨inv', .destroyed hOld hLive⟩

theorem dying_of_not_busy (h : s.busy = false) : s.dying = [] := by
  simp only [State.busy, decide_eq_false_iff_not, not_or, not_not] at h
  exact h.1

/-- What is not a step of the executor or of a destructor is one of user code. -/
theorem userCode_of_enabled (hEnabled : s.enabled label = true)
    (hIo : ∀ ioLabel, label ≠ .io ioLabel) (hUnwind : ∀ object, label ≠ .unwind object)
    (hRoot : ∀ a, label ≠ .destroyRoot a) :
    s.world.UserCode ∧ (label.reentrant = false → s.dying = []) := by
  have hGuard : userCode s.world ∧ (s.busy = false ∨ s.dying ≠ [] ∧ label.reentrant) := by
    cases label with
    | io ioLabel => exact absurd rfl (hIo ioLabel)
    | unwind object => exact absurd rfl (hUnwind object)
    | destroyRoot a => exact absurd rfl (hRoot a)
    | _ => exact decide_eq_true_eq.mp hEnabled
  refine ⟨userCode_iff.mp hGuard.1, fun hLabel => ?_⟩
  rcases hGuard.2 with hBusy | ⟨-, hReentrant⟩
  · exact dying_of_not_busy hBusy
  · rw [hLabel] at hReentrant
    cases hReentrant

/-- Every label keeps the owners, and accounts for what it creates and destroys. -/
theorem Inv.perform (inv : Inv wrap s) (hEnabled : s.enabled label = true)
    (hHeld : ∀ o ∈ label.uses, s.held o = false) (hLate : ∀ a, .spawnedLate a ∉ events)
    (h : s.perform wrap label = some (s', events)) : Inv wrap s' ∧ Account s s' events := by
  unfold State.perform at h
  cases label with
  | io =>
    dsimp only at h
    split_ifs at h with hNeutral hDestructed
    · cases h
      exact ⟨inv, .same rfl⟩
    · have hAlive : s.destructed = false := Bool.eq_false_of_not_eq_true hDestructed
      refine account_of_map h (inv.io hAlive ?_ (Bool.eq_true_of_not_eq_false hNeutral))
      exact (decide_eq_true_eq.mp hEnabled).imp dying_of_not_busy And.right
  | call => exact inv.call hHeld h
  | construct =>
    dsimp only at h
    split_ifs at h with hPlaces
    exact account_of_map h (inv.construct hPlaces)
  | moveConstruct object other =>
    exact account_of_map h (inv.moveConstruct (hHeld other (by simp [Label.uses])))
  | moveAssign object other =>
    have hUser := (userCode_of_enabled hEnabled (by simp) (by simp) (by simp)).1
    exact account_of_map h (inv.moveAssign hUser (hHeld object (by simp [Label.uses]))
      (hHeld other (by simp [Label.uses])))
  | destroy object =>
    have hUser := (userCode_of_enabled hEnabled (by simp) (by simp) (by simp)).1
    exact account_of_map h (inv.destroyTask hUser (hHeld object (by simp [Label.uses])))
  | await object =>
    have hIdle := (userCode_of_enabled hEnabled (by simp) (by simp) (by simp)).2 rfl
    exact account_of_map h (inv.await hIdle (hHeld object (by simp [Label.uses])))
  | endAwait =>
    have hUser := (userCode_of_enabled hEnabled (by simp) (by simp) (by simp)).1
    exact account_of_map h (inv.endAwait hUser)
  | spawn object =>
    have hUser := (userCode_of_enabled hEnabled (by simp) (by simp) (by simp)).1
    dsimp only at h
    split_ifs at h with hDestructed
    · exact inv.spawnLate hLate h
    · exact account_of_map h (inv.spawn hUser (Bool.eq_false_of_not_eq_true hDestructed)
        (hHeld object (by simp [Label.uses])))
  | destruct =>
    have hIdle := (userCode_of_enabled hEnabled (by simp) (by simp) (by simp)).2 rfl
    dsimp only at h
    split_ifs at h
    exact account_of_map h (inv.destruct hIdle)
  | destroyRoot => exact account_of_map h inv.destroyRoot
  | unwind => exact inv.unwind h

theorem Inv.next (inv : Inv wrap s) (hTouched : ∀ o, .touched o ∉ events)
    (hLate : ∀ a, .spawnedLate a ∉ events) (h : s.next wrap label = some (s', events)) :
    Inv wrap s' ∧ Account s s' events := by
  unfold State.next at h
  split_ifs at h with hEnabled
  obtain ⟨⟨last, own⟩, hPerform, hEq⟩ := Option.map_eq_some_iff.mp h
  cases hEq
  have hHeld : ∀ o ∈ label.uses, s.held o = false := by
    intro o hMem
    by_contra hHeld
    apply hTouched o
    apply List.mem_append_left
    exact List.mem_map_of_mem (List.mem_filter.mpr ⟨hMem, Bool.eq_true_of_not_eq_false hHeld⟩)
  have hNone : label.uses.filter s.held = [] := by
    rw [List.filter_eq_nil_iff]
    exact fun o hMem => by simp [hHeld o hMem]
  rw [hNone, List.map_nil, List.nil_append] at hLate ⊢
  exact inv.perform hEnabled hHeld hLate hPerform

end Run

end Tinycoro.Task
