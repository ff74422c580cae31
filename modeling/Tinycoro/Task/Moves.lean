import Tinycoro.Task.Activations

/-! Everything that can happen to the frames and their code, with what each branch has
tested. What is proved of coroutines is proved by cases on this relation. -/
namespace Tinycoro.Coroutine

open Io Effect Transition Calls World Threads

variable {ε : Type} {φ : ε → Type} {υ : Type}

namespace State

variable (s : State φ υ) (h : Nat) (a : Option (Activation φ υ))

@[simp] theorem put_world : (s.put h a).world = s.world := rfl

@[simp] theorem put_self : (s.put h a).code h = a := Function.update_self ..

theorem put_of_ne {t : Nat} (hNe : t ≠ h) : (s.put h a).code t = s.code t :=
  Function.update_of_ne hNe ..

end State

/-- What a frame that was called has to do. -/
def bodyOf (code : Nat → Option (Activation φ υ)) (h : Nat) : Option (Body φ υ) :=
  (code h).bind (fun a => a.point.body)

/-- The programs behind the `Task` variables of a coroutine. -/
def closures (code : Nat → Option (Activation φ υ)) (tasks : List (Option Nat)) :
    List (Option (Body φ υ)) :=
  tasks.map (fun task => task.bind (bodyOf code))

section Closures

variable {code code' : Nat → Option (Activation φ υ)} {tasks : List (Option Nat)}

theorem held_closures (x : Nat) :
    held (closures code tasks) x = (held tasks x).bind (bodyOf code) := by
  unfold held closures
  rw [List.getElem?_map]
  cases tasks[x]? <;> rfl

theorem closures_congr (h : ∀ {i c}, held tasks i = some c → code' c = code c) :
    closures code' tasks = closures code tasks := by
  apply List.map_congr_left
  intro task hTask
  cases task with
  | none => rfl
  | some c =>
    obtain ⟨i, hGet⟩ := List.mem_iff_getElem?.mp hTask
    have hHeld : held tasks i = some c := by rw [held, hGet, Option.join_some]
    simp only [Option.bind_some, bodyOf, h hHeld]

theorem closures_set (x : Nat) :
    closures code (tasks.set x none) = (closures code tasks).set x none := by
  rw [closures, List.map_set]
  rfl

end Closures

/-- The exception in the promise of a frame. -/
def promised (w : World) (h : Nat) : Option Nat := (w.frames h).bind (fun frame => frame.exception)

/-- `drain_completed` has found no exception. -/
def Calm (w : World) : Prop := ∀ e left, w.control ≠ .drain (some e) left

/-- The executor is not in `drain_completed`, stays in it, or leaves it, with the exception it
has found. -/
inductive Passes (w w' : World) (obs : List Obs) : Prop where
  | apart (hBefore : w.control.draining = false) (hAfter : w'.control.draining = false)
  | stays (hControl : w'.control = w.control) (hPromised : promised w' = promised w)
  | leaves {left : Nat} (hBefore : w.control = .drain none left)
      (hAfter : w'.control.draining = false)
  | throws {e left : Nat} (hBefore : w.control = .drain (some e) left)
      (hAfter : w'.control.draining = false) (hThrown : .runThrew (.task e) ∈ obs)

/-- The coroutine at `h` has the thread. -/
structure Current (s : State φ υ) (h : Nat) (a : Activation φ υ) (node : Node) : Prop where
  code : s.code h = some a
  frame : s.world.nodes h = some node
  running : node.status = .running

/-- What a step does to the frames and their code, with the coroutine that takes it if one
does. -/
inductive Moved (s : State φ υ) : Option Nat → State φ υ → List (Event φ υ) → Prop where
  | idle {w : World} (obs : List Obs) (hNodes : w.nodes = s.world.nodes)
      (hPasses : Passes s.world w obs) :
      Moved s none { s with world := w } (obs.map .io)
  | resumed {w : World} {h : Nat} {node : Node} (obs : List Obs)
      (hNode : s.world.nodes h = some node) (hParked : node.Parked)
      (hNodes : w.nodes = Function.update s.world.nodes h (some { node with status := .running }))
      (hBefore : s.world.control.draining = false) (hAfter : w.control.draining = false) :
      Moved s none { s with world := w } (obs.map .io)
  | drained {w : World} {root : Nat} {node : Node} (obs : List Obs)
      (hNode : s.world.nodes root = some node) (hDone : node.status = .done)
      (hNodes : w.nodes = Function.update s.world.nodes root none) {left : Nat} {found : Option Nat}
      (hBefore : s.world.control = .drain found left)
      (hAfter : w.control = .drain (found.or (promised s.world root)) left) :
      Moved s none ({ s with world := w }.put root none)
        (obs.map .io ++ (s.code root).toList.map (fun a => .destroyed a.root))
  | spawned {w : World} {frame : Nat} {body : Body φ υ} (obs : List Obs)
      (hNew : s.world.nodes frame = none)
      (hNodes : w.nodes = Function.update s.world.nodes frame (some ⟨.root, .created, none⟩))
      (hBefore : s.world.control.draining = false) (hAfter : w.control.draining = false) :
      Moved s none ⟨w, Function.update s.code frame (some ⟨.at body, [], s.spawned⟩), s.spawned + 1⟩
        (obs.map .io ++ [.spawned s.spawned body])
  /-- within the body: no child comes, starts or ends -/
  | went {w : World} {h : Nat} {a new : Activation φ υ} {node : Node} {status : Status}
      {body body' : Body φ υ} (obs : List Obs) (acts : List (Act φ Request Answer))
      (hCurrent : Current s h a node) (hBody : a.point.body = some body)
      (hBody' : new.point.body = some body') (hRoot : new.root = a.root) (hFits : new.Fits status)
      (hLive : status ≠ .done)
      (hTasks : ∀ {i c}, held new.tasks i = some c ↔ held a.tasks i = some c)
      (hStep : ∀ callers, acts = [] ∧ body' = body ∧ new.tasks = a.tasks ∨
        Config.Step ⟨closures s.code a.tasks, body, callers⟩ acts
          ⟨closures s.code new.tasks, body', callers⟩)
      (hNodes : w.nodes = Function.update s.world.nodes h (some { node with status }))
      (hCalm : Calm w) :
      Moved s (some h) ({ s with world := w }.put h (some new))
        (obs.map .io ++ acts.map (.acted a.root))
  | made {w : World} {h frame : Nat} {a : Activation φ υ} {node : Node} {callee rest : Body φ υ}
      (obs : List Obs) (hCurrent : Current s h a node) (hPoint : a.point = .at (.make callee rest))
      (hNew : s.world.nodes frame = none)
      (hNodes : w.nodes = Function.update s.world.nodes frame (some ⟨.free, .created, none⟩))
      (hCalm : Calm w) :
      Moved s (some h) (({ s with world := w }.put frame (some ⟨.at callee, [], a.root⟩)).put h
        (some { a with point := .at rest, tasks := a.tasks ++ [some frame] })) (obs.map .io)
  | dropped {w : World} {h child x : Nat} {a : Activation φ υ} {node : Node}
      {tasks : List (Option Nat)} {body rest : Body φ υ} (obs : List Obs)
      (hCurrent : Current s h a node) (hPoint : a.point = .at body)
      (hHeld : held a.tasks x = some child)
      (hTasks : ∀ {i c}, held tasks i = some c ↔ i ≠ x ∧ held a.tasks i = some c)
      (hStep : ∀ callers, Config.Step ⟨closures s.code a.tasks, body, callers⟩ []
        ⟨closures s.code tasks, rest, callers⟩)
      (hNodes : w.nodes = Function.update s.world.nodes child none) (hCalm : Calm w) :
      Moved s (some h) (({ s with world := w }.put child none).put h
        (some { a with point := .at rest, tasks })) (obs.map .io)
  | awaited {w : World} {h child x : Nat} {a : Activation φ υ} {node task : Node}
      {rest : Option (Result υ) → Body φ υ} (obs : List Obs) (hCurrent : Current s h a node)
      (hPoint : a.point = .at (.call x rest)) (hHeld : held a.tasks x = some child)
      (hChild : s.world.nodes child = some task)
      (hNodes : w.nodes = Function.update
        (Function.update s.world.nodes h (some { node with status := .awaiting child })) child
        (some { task with role := .child h, status := .running })) (hCalm : Calm w) :
      Moved s (some h)
        ({ s with world := w }.put h
        (some { a with point := .awaits child rest, tasks := a.tasks.set x none }))
        (obs.map .io ++ [.started child h])
  | returned {w : World} {h parent : Nat} {a b : Activation φ υ} {node caller : Node}
      {result : Result υ} {rest : Option (Result υ) → Body φ υ} (obs : List Obs)
      (hCurrent : Current s h a node) (hPoint : a.point = .at (.finish result))
      (hTasks : a.tasks = []) (hRole : node.role = .child parent)
      (hCaller : s.world.nodes parent = some caller) (hParent : s.code parent = some b)
      (hAwaits : b.point = .awaits h rest)
      (hNodes : w.nodes = Function.update
        (Function.update s.world.nodes parent (some { caller with status := .running })) h none)
      {left : Nat} (hBefore : s.world.control = .running h left)
      (hAfter : w.control = .running parent left) :
      Moved s (some h) (({ s with world := w }.put h none).put parent
        (some { b with point := .at (rest (some result)) }))
        (obs.map .io ++ [.delivered h parent result])
  | completed {w : World} {h : Nat} {a : Activation φ υ} {node : Node} {result : Result υ}
      (obs : List Obs) (hCurrent : Current s h a node) (hPoint : a.point = .at (.finish result))
      (hTasks : a.tasks = []) (hRole : node.role = .root)
      (hNodes : w.nodes = Function.update s.world.nodes h (some { node with status := .done }))
      {left : Nat} (hAfter : w.control = .drain none left)
      (hPromised : promised w h = result.exception) :
      Moved s (some h) ({ s with world := w }.put h (some { a with point := .ended result }))
        (obs.map .io ++ [.completed a.root result])

section Executor

variable {short : Prop} {wrap : Wrap} {w w' : World} {label : Io.Label} {events : List Obs}

/-- What the executor does to the frames when no coroutine acts. -/
inductive Stirred (w : World) (label : Io.Label) (w' : World) (obs : List Obs) : Prop where
  | same (hDrains : Task.drains w label = none) (hNodes : w'.nodes = w.nodes)
      (hPasses : Passes w w' obs)
  | resumed {h : Nat} {node : Node} (hDrains : Task.drains w label = none)
      (hNode : w.nodes h = some node) (hParked : node.Parked)
      (hNodes : w'.nodes = Function.update w.nodes h (some { node with status := .running }))
      (hBefore : w.control.draining = false) (hAfter : w'.control.draining = false)
  | drained {root left : Nat} {found : Option Nat} {node : Node}
      (hDrains : Task.drains w label = some root) (hNode : w.nodes root = some node)
      (hDone : node.status = .done) (hNodes : w'.nodes = Function.update w.nodes root none)
      (hBefore : w.control = .drain found left)
      (hAfter : w'.control = .drain (found.or (promised w root)) left)

/-- The executor and code that is not a coroutine. -/
def outer : Io.Label → Bool
  | .change .. | .close .. | .tick .. | .advance .. | .cancel .. | .stop | .run => true
  | _ => false

theorem nodes_within {o : IoOutcome} (h : o.state.nodes = w.nodes) (control : Control) :
    (World.within o control).1.nodes = w.nodes := by
  unfold World.within
  cases o.error with
  | none => exact h
  | some => exact h

theorem promised_of_cores (h : ∀ a, (w'.frames a).map Frame.core = (w.frames a).map Frame.core) :
    promised w' = promised w := by
  funext a
  have hCore := congrArg (fun frame => Option.bind frame (fun frame => frame.exception)) (h a)
  rw [Option.bind_map, Option.bind_map] at hCore
  exact hCore

variable {faults : Faults} {h : Nat}

/-- A step of `run` that is not in `drain_completed`. -/
theorem stirred_inside {pick : Pick} {batch : Option (List Int)} (hInside : w.control.inside = true)
    (hNodes : w'.nodes = w.nodes) (hAfter : w'.control.draining = false) :
    Stirred w (.advance pick batch faults) w' events := by
  obtain ⟨-, hBefore, -⟩ := Control.of_inside hInside
  refine .same ?_ hNodes (.apart hBefore hAfter)
  cases hControl : w.control with
  | drain =>
    rw [hControl] at hInside
    cases hInside
  | _ => simp [Task.drains, hControl]

theorem draining_within (o : IoOutcome) {control : Control} (h : control.draining = false) :
    (World.within o control).1.control.draining = false := by
  rcases within_control o control with hSame | hIdle
  · rw [hSame, h]
  · rw [hIdle]
    rfl

/-- What the executor and its environment do to the frames. -/
theorem stirred_of_step (inv : Scheduled short w) (hKeyed : w.AllKeyed)
    (hOuter : outer label = true) (h : Step wrap w label w' events) :
    Stirred w label w' events := by
  cases h with
  | create | drop | spawn | await | awaitEmpty | yield | yieldThrows | wait | waitThrows | finish =>
    cases hOuter
  | change | close | tick | stop | rerun => exact .same rfl rfl (.stays rfl rfl)
  | run hUser hRunning =>
    refine .same rfl rfl (.apart ?_ rfl)
    rw [inv.flag.mp hRunning]
    rfl
  | @cancel fd faults =>
    have hElse : Elsewhere fd _ w (w.cancel faults fd).state := elsewhere_cancel (hKeyed _)
    rw [toUser_state]
    exact .same rfl hElse.nodes (.stays hElse.control (promised_of_cores hElse.frames))
  | @destroyRoot root left firstError frame hControl hHead hFrame =>
    have hNode := Scheduled.nodes_of_frame hFrame
    refine .drained (by simp [Task.drains, hControl, hHead]) hNode
      ((inv.threaded.completed_eq hNode).mp hHead) (@Scheduled.nodes_update w root none) hControl ?_
    rw [promised, hFrame, Option.bind_some]
  | drained hControl hHead =>
      exact .same (by simp [Task.drains, hControl, hHead]) rfl (.leaves hControl rfl)
  | drainThrows hControl hHead =>
    exact .same (by simp [Task.drains, hControl, hHead]) rfl
      (.throws hControl rfl (List.mem_singleton_self _))
  | @resume h left rest hControl hReady =>
    obtain ⟨node, hNode, hParked⟩ := inv.kept.mem_of_queue (hReady ▸ List.mem_cons_self)
    exact .resumed (by simp [Task.drains, hControl]) hNode hParked
      (Scheduled.nodes_setStatus (w := { w with ready := rest }) hNode .running)
      (by rw [hControl]; rfl) rfl
  | @expire now second pick timer faults hControl =>
    have hKeyed' : World.AllKeyed { w with timers := w.timers.eraseIdx pick } := hKeyed
    have hSame : (expireTimer faults { w with timers := w.timers.eraseIdx pick } timer).state.nodes
        = w.nodes :=
      (elsewhere_expireTimer (hKeyed' timer.fd)).nodes
    exact stirred_inside (by rw [hControl]; rfl) (nodes_within hSame _) (draining_within _ rfl)
  | unwatched hControl | turn hControl | batchDone hControl | skipDone hControl
  | noWakeSource hControl | pollFails hControl | epollWait hControl | dispatched hControl =>
    exact stirred_inside (by rw [hControl]; rfl) rfl rfl
  | unselected hAt => exact stirred_inside hAt.inside.1 rfl (Control.of_inside hAt.inside.2).2.1
  | ready hAt =>
    exact stirred_inside hAt.inside.1 (nodes_within (elsewhere_onReady (hKeyed _)).nodes _)
      (draining_within _ (Control.of_inside hAt.inside.2).2.1)
  | returned hControl =>
    exact stirred_inside (by rcases hControl with h | h <;> rw [h] <;> rfl) rfl rfl
  | @expired now second hControl =>
    exact stirred_inside (by rw [hControl]; rfl) rfl (by cases second <;> rfl)

theorem calm_of_running {left : Nat} (hControl : w.control = .running h left) : Calm w := by
  intro e left'
  rw [hControl]
  simp

theorem calm_of_drain {left : Nat} (hControl : w.control = .drain none left) : Calm w := by
  intro e left'
  rw [hControl]
  simp

/-- A coroutine that calls the executor does not make it throw. -/
theorem calm_of_ask (hKeyed : w.AllKeyed) {left address : Nat} {request : Request}
    (hControl : w.control = .running h left)
    (hStep : Step wrap w (State.label address faults request) w' events) : Calm w' := by
  cases request with
  | yield =>
    cases hStep with
    | yield => exact calm_of_drain rfl
    | yieldThrows => exact calm_of_running ((@elsewhere_schedule 0 ∅ ..).control.trans hControl)
  | wait fd =>
    cases hStep with
    | wait => exact calm_of_drain rfl
    | waitThrows =>
      exact calm_of_running ((elsewhere_armWait (hKeyed fd) (Set.mem_univ _) ..).control.trans
        hControl)
  | cancel fd =>
    cases hStep with
    | cancel =>
      rw [toUser_state]
      exact calm_of_running ((elsewhere_cancel (hKeyed fd)).control.trans hControl)
  | stop =>
    cases hStep with
    | stop => exact calm_of_running hControl

theorem nodes_eq_none (hNone : w.frames h = none) : w.nodes h = none := by
  rw [World.nodes, hNone, Option.map_none]

theorem nodes_create :
    ({ w with frames := Function.update w.frames h (some .create) } : World).nodes =
    Function.update w.nodes h (some ⟨.free, .created, none⟩) :=
  Scheduled.nodes_update h (some .create)

/-- `spawn` of a coroutine that has just been called. -/
theorem nodes_spawn (inv : Scheduled short w) (hNone : w.frames h = none) (fails : Bool) :
    let made := { w with frames := Function.update w.frames h (some .create) }
    ((made.spawn fails (some h)).error = none ∧
        (made.spawn fails (some h)).state.nodes = Function.update w.nodes h
        (some ⟨.root, .created, none⟩)) ∨
      (∃ e, (made.spawn fails (some h)).error = some e) ∧ (made.spawn fails (some h)).state.nodes =
        w.nodes := by
  have hAbsent := nodes_eq_none hNone
  have hNew : h ∉ w.roots := by
    rw [inv.threaded.roots, roles, hAbsent]
    simp
  dsimp only
  simp only [World.spawn, hNew, if_false]
  split_ifs
  · refine .inr ⟨⟨.badAlloc, rfl⟩, ?_⟩
    refine (Scheduled.nodes_update h none).trans ?_
    rw [nodes_create, Function.update_idem, Option.map_none, ← hAbsent, Function.update_eq_self]
  · refine .inl ⟨rfl, ?_⟩
    refine (nodes_setFrame _).trans ?_
    rw [nodes_create, Function.update_idem]
    simp [Frame.node, Frame.role, Frame.create]

theorem control_spawn (fails : Bool) (task : Option Nat) :
    (w.spawn fails task).state.control = w.control := by
  cases task with
  | none => rfl
  | some =>
    simp only [World.spawn]
    split_ifs <;> rfl

/-- The final suspension of a child or of a root. -/
theorem nodes_finalSuspend (inv : Scheduled short w) {left : Nat} {frame : Frame}
    (hControl : w.control = .running h left) (hFrame : w.frames h = some frame)
    (exception : Option Nat) (hEnd : ((Scheduled.ended w h frame exception).finalSuspend h left
      { frame with status := .done, exception }).1 = w') :
    (∃ parent caller, frame.role = .child parent ∧ w.nodes parent = some caller ∧
        caller.status = .awaiting h ∧ w'.control = .running parent left ∧
        w'.nodes = Function.update (Function.update w.nodes parent
        (some { caller with status := .running })) h none) ∨
      frame.role = .root ∧ w'.control = .drain none left ∧ promised w' h = exception ∧
        w'.nodes = Function.update w.nodes h (some { frame.node with status := .done }) := by
  subst hEnd
  have hNode := Scheduled.nodes_of_frame hFrame
  have hThreaded := inv.threaded_running hControl
  cases hCompletion : frame.completion with
  | true =>
    have hRole : frame.role = .root := by simp [Frame.role, hCompletion]
    have hLast : frame.completedNext = none := (hThreaded.sound hNode).last
    have hNodes := @Scheduled.nodes_rootCompleted w h frame hCompletion
        (inv.head (by rw [hControl]; rfl)) exception
    simp only [finalSuspend, if_true]
    refine .inr ⟨hRole, trivial, ?_, hNodes.trans ?_⟩
    · simp [promised, rootCompleted, setFrame, Scheduled.ended]
    · rw [Frame.node, hRole, hLast]
  | false =>
    cases hContinuation : frame.continuation with
    | some parent =>
      have hRole : frame.role = .child parent := by simp [Frame.role, hCompletion, hContinuation]
      obtain ⟨caller, hCaller, hAwaiting⟩ := hThreaded.caller hNode hRole
      have hNe := hThreaded.caller_ne hNode hCaller hAwaiting
      simp only [finalSuspend, Bool.false_eq_true, if_false]
      exact .inl ⟨parent, caller, hRole, hCaller, hAwaiting, rfl,
        Scheduled.nodes_returnTo hCaller hNe frame exception⟩
    | none =>
      have hFree : frame.node.role = .free := by
        simp [Frame.node, Frame.role, hCompletion, hContinuation]
      exact absurd hFree (hThreaded.active_role hNode)

theorem nodes_finish (inv : Scheduled short w) {left : Nat} {node : Node}
    (hControl : w.control = .running h left) (hNode : w.nodes h = some node)
    {exception : Option Nat} (hStep : Step wrap w (.finish exception) w' events) :
    (∃ parent caller, node.role = .child parent ∧ w.nodes parent = some caller ∧
        caller.status = .awaiting h ∧ w'.control = .running parent left ∧
        w'.nodes = Function.update (Function.update w.nodes parent
        (some { caller with status := .running })) h none) ∨
      node.role = .root ∧ w'.control = .drain none left ∧ promised w' h = exception ∧
        w'.nodes = Function.update w.nodes h (some { node with status := .done }) := by
  cases hStep with
  | finish hControl' hFrame =>
    cases hControl.symm.trans hControl'
    cases hNode.symm.trans (Scheduled.nodes_of_frame hFrame)
    exact nodes_finalSuspend inv hControl hFrame exception rfl

/-- A request that is refused leaves the frames as they are, and one that suspends parks
the coroutine. -/
theorem nodes_ask (hKeyed : w.AllKeyed) {left address : Nat} {node : Node} {request : Request}
    (hControl : w.control = .running h left) (hNode : w.nodes h = some node)
    (hStep : Step wrap w (State.label address faults request) w' events) :
    w'.nodes = if State.refusal wrap w h address faults request = none ∧ request.suspends = true
      then Function.update w.nodes h (some { node with status := .suspended }) else w.nodes := by
  have hParks {w₁ : World} (hSame : w₁.nodes = w.nodes) :
      (w₁.setStatus h .suspended).nodes = Function.update w.nodes h
      (some { node with status := .suspended }) := by
    rw [Scheduled.nodes_setStatus (hSame ▸ hNode), hSame]
  cases request with
  | yield =>
    have hElse := @elsewhere_schedule 0 ∅ faults.push w h
    cases hStep with
    | yield hControl' hOk =>
      cases hControl.symm.trans hControl'
      rw [if_pos ⟨hOk, rfl⟩]
      exact hParks hElse.nodes
    | yieldThrows hControl' hError =>
      cases hControl.symm.trans hControl'
      rw [if_neg (by simp [State.refusal, hError])]
      exact hElse.nodes
  | wait fd event timeout =>
    have hElse : Elsewhere fd _ w (w.armWait wrap faults address fd event timeout (some h)
        (some h)).state :=
      elsewhere_armWait (hKeyed fd) (Set.mem_univ _) ..
    cases hStep with
    | wait hControl' hFresh hOk =>
      cases hControl.symm.trans hControl'
      rw [if_pos ⟨hOk, rfl⟩]
      exact hParks hElse.nodes
    | waitThrows hControl' hFresh hError =>
      cases hControl.symm.trans hControl'
      rw [if_neg (by simp [State.refusal, hError])]
      exact hElse.nodes
  | cancel =>
    rw [if_neg (by simp [Request.suspends])]
    cases hStep with
    | cancel =>
      rw [toUser_state]
      exact (elsewhere_cancel (hKeyed _)).nodes
  | stop =>
    rw [if_neg (by simp [Request.suspends])]
    cases hStep with
    | stop => rfl

end Executor

section Steps

variable {short : Prop} {wrap : Wrap} {s s' : State φ υ} {h left frame address : Nat}
  {a : Activation φ υ} {node : Node} {faults : Faults} {events : List (Event φ υ)}

theorem Current.nodes_self (hCurrent : Current s h a node) :
    s.world.nodes = Function.update s.world.nodes h (some { node with status := .running }) := by
  rw [← hCurrent.running, ← hCurrent.frame, Function.update_eq_self]

variable {body : Body φ υ}

/-- A step within the body after which the coroutine still has the thread. -/
theorem Moved.on {w : World} {tasks : List (Option Nat)} {body' : Body φ υ}
    {acts : List (Act φ Request Answer)} (hCurrent : Current s h a node)
    (hBody : a.point.body = some body)
    (hTasks : ∀ {i c}, held tasks i = some c ↔ held a.tasks i = some c)
    (hStep : ∀ callers, Config.Step ⟨closures s.code a.tasks, body, callers⟩ acts
      ⟨closures s.code tasks, body', callers⟩) (hNodes : w.nodes = s.world.nodes) (hCalm : Calm w)
    (obs : List Obs) :
    Moved s (some h) ({ s with world := w }.put h (some { a with point := .at body', tasks }))
      (obs.map .io ++ acts.map (.acted a.root)) :=
  .went obs acts hCurrent hBody rfl rfl (.inr rfl) (by simp) hTasks
    (fun callers => .inr (hStep callers)) (hNodes.trans hCurrent.nodes_self) hCalm

theorem moved_of_ask (hKeyed : s.world.AllKeyed) (hControl : s.world.control = .running h left)
    (hCurrent : Current s h a node) {request : Request} {rest : Answer → Body φ υ}
    (hPoint : a.point = .at (.ask request rest))
    (hAsk : s.ask wrap h a address faults request rest = some (s', events)) :
    Moved s (some h) s' events := by
  have hBody : a.point.body = some (.ask request rest) := by rw [hPoint, Point.body]
  simp only [State.ask, Option.bind_eq_bind, Option.bind_eq_some_iff] at hAsk
  obtain ⟨⟨w, obs⟩, hNext, hAsk⟩ := hAsk
  have hNodes := nodes_ask hKeyed hControl hCurrent.frame (step_of_next hNext)
  have hCalm := calm_of_ask hKeyed hControl (step_of_next hNext)
  cases hRefusal : State.refusal wrap s.world h address faults request with
  | some e =>
    simp only [hRefusal] at hAsk
    rw [hRefusal, if_neg (by simp)] at hNodes
    cases hAsk
    exact .on hCurrent hBody .rfl (fun callers => .ask request rest (.threw e)) hNodes hCalm obs
  | none =>
    simp only [hRefusal] at hAsk
    cases hSuspends : request.suspends with
    | true =>
      rw [hSuspends, if_pos rfl] at hAsk
      rw [if_pos ⟨hRefusal, hSuspends⟩] at hNodes
      cases hAsk
      have hFits : Activation.Fits { a with point := .asked request rest } .suspended := .inl rfl
      have hMoved := Moved.went obs [] hCurrent hBody (by rfl) (by rfl) hFits (by simp) .rfl
        (fun callers => .inl ⟨rfl, rfl, rfl⟩) hNodes hCalm
      rwa [List.map_nil, List.append_nil] at hMoved
    | false =>
      rw [hSuspends, if_neg (by simp)] at hAsk
      rw [if_neg (by simp [hSuspends])] at hNodes
      cases hAsk
      exact .on hCurrent hBody .rfl (fun callers => .ask request rest .done) hNodes hCalm obs

/-- `spawn` with a new coroutine makes a root, or leaves the frames as they were. -/
theorem launch_cases (sched : Scheduled short s.world) {fails : Bool} {e : Option Exception}
    (hLaunch : s.launch wrap body frame fails = some (s', e, events)) :
    s.world.nodes frame = none ∧ s'.world.control = s.world.control ∧ ∃ obs : List Obs,
      (e = none ∧ s'.world.nodes = Function.update s.world.nodes frame
        (some ⟨.root, .created, none⟩) ∧ s' = ⟨s'.world, Function.update s.code frame
        (some ⟨.at body, [], s.spawned⟩), s.spawned + 1⟩ ∧
        events = obs.map .io ++ [.spawned s.spawned body]) ∨
      (e ≠ none ∧ s'.world.nodes = s.world.nodes ∧ s' = { s with world := s'.world } ∧
        events = obs.map .io) := by
  simp only [State.launch, Option.bind_eq_bind, Option.bind_eq_some_iff] at hLaunch
  obtain ⟨⟨w, made⟩, hCreate, ⟨w', obs⟩, hSpawn, hLaunch⟩ := hLaunch
  cases step_of_next hCreate with
  | create hUser hNew =>
    cases step_of_next hSpawn with
    | spawn =>
      rw [toUser_state] at hLaunch
      rcases nodes_spawn sched hNew fails with ⟨hOk, hNodes⟩ | ⟨⟨x, hError⟩, hNodes⟩
      · rw [hOk] at hLaunch
        cases hLaunch
        exact ⟨nodes_eq_none hNew, control_spawn .., _, .inl ⟨rfl, hNodes, rfl,
          congrArg (· ++ [Event.spawned s.spawned body]) List.map_append.symm⟩⟩
      · rw [hError] at hLaunch
        cases hLaunch
        exact ⟨nodes_eq_none hNew, control_spawn .., _,
          .inr ⟨by simp, hNodes, rfl, List.map_append.symm⟩⟩

/-- The running coroutine is at a point of its body or of an awaiter. -/
theorem current_of_control (sched : Scheduled short s.world) (frames : s.Framed)
    (hControl : s.world.control = .running h left) : ∃ a node, Current s h a node := by
  obtain ⟨frame, hFrame, hRunning⟩ := sched.running_frame hControl
  have hNode := Scheduled.nodes_of_frame hFrame
  obtain ⟨a, hCode⟩ := frames.code_of_node hNode
  exact ⟨a, frame.node, hCode, hNode, hRunning⟩

theorem moved_of_io (sched : Scheduled short s.world) (hKeyed : s.world.AllKeyed) {label : Io.Label}
    (hOuter : outer label = true) (hIo : s.io wrap label = some (s', events)) :
    Moved s none s' events := by
  simp only [State.io, Option.bind_eq_bind, Option.bind_eq_some_iff] at hIo
  obtain ⟨⟨w, obs⟩, hNext, hIo⟩ := hIo
  cases stirred_of_step sched hKeyed hOuter (step_of_next hNext) with
  | same hDrains hNodes hPasses =>
    simp only [hDrains] at hIo
    cases hIo
    exact .idle obs hNodes hPasses
  | resumed hDrains hNode hParked hNodes hBefore hAfter =>
    simp only [hDrains] at hIo
    cases hIo
    exact .resumed obs hNode hParked hNodes hBefore hAfter
  | drained hDrains hNode hDone hNodes hBefore hAfter =>
    simp only [hDrains] at hIo
    cases hIo
    exact .drained obs hNode hDone hNodes hBefore hAfter

theorem outer_of_allows {label : Io.Label} (hAllows : s.allows label = true) :
    outer label = true := by
  cases label <;> first | rfl | cases hAllows

theorem moved_of_make (hControl : s.world.control = .running h left) (hCurrent : Current s h a node)
    {callee rest : Body φ υ} (hPoint : a.point = .at (.make callee rest))
    (hMake : s.make wrap h a frame callee rest = some (s', events)) :
    Moved s (some h) s' events := by
  simp only [State.make, Option.bind_eq_bind, Option.bind_eq_some_iff] at hMake
  obtain ⟨⟨w, obs⟩, hNext, hMake⟩ := hMake
  cases step_of_next hNext with
  | create hUser hNew =>
    cases hMake
    exact .made [.created frame] hCurrent hPoint (nodes_eq_none hNew) nodes_create
      (calm_of_running hControl)

/-- A variable goes, and what it held. -/
theorem moved_of_drop (hControl : s.world.control = .running h left) (hCurrent : Current s h a node)
    {x : Nat} {tasks : List (Option Nat)} {rest : Body φ υ} (hPoint : a.point = .at body)
    (hTasks : ∀ {i c}, held tasks i = some c ↔ i ≠ x ∧ held a.tasks i = some c)
    (hStep : ∀ callers, Config.Step ⟨closures s.code a.tasks, body, callers⟩ []
      ⟨closures s.code tasks, rest, callers⟩)
    (hDrop : s.drop wrap h a (held a.tasks x) tasks rest = some (s', events)) :
    Moved s (some h) s' events := by
  have hBody : a.point.body = some body := by rw [hPoint, Point.body]
  cases hHeld : held a.tasks x with
  | none =>
    rw [hHeld] at hDrop
    cases hDrop
    have hSame {i c : Nat} : held tasks i = some c ↔ held a.tasks i = some c := by
      refine hTasks.trans ⟨And.right, fun hOther => ⟨?_, hOther⟩⟩
      rintro rfl
      rw [hHeld] at hOther
      cases hOther
    exact .on hCurrent hBody hSame hStep rfl (calm_of_running hControl) []
  | some child =>
    rw [hHeld] at hDrop
    simp only [State.drop, Option.bind_eq_bind, Option.bind_eq_some_iff] at hDrop
    obtain ⟨⟨w, obs⟩, hNext, hDrop⟩ := hDrop
    cases step_of_next hNext with
    | drop =>
      cases hDrop
      have hMoved := Moved.dropped [] hCurrent hPoint hHeld hTasks hStep
        (Scheduled.nodes_update child none) (calm_of_running hControl)
      exact hMoved

/-- `co_await` starts the child, or throws where the variable is empty. -/
theorem moved_of_await (sched : Scheduled short s.world)
    (hControl : s.world.control = .running h left) (hCurrent : Current s h a node) {x : Nat}
    {rest : Option (Result υ) → Body φ υ} (hPoint : a.point = .at (.call x rest))
    (hAwait : s.await wrap h a x rest = some (s', events)) : Moved s (some h) s' events := by
  have hBody : a.point.body = some (.call x rest) := by rw [hPoint, Point.body]
  cases hHeld : held a.tasks x with
  | none =>
    simp only [State.await, hHeld, Option.bind_eq_bind, Option.bind_eq_some_iff] at hAwait
    obtain ⟨⟨w, obs⟩, hNext, hAwait⟩ := hAwait
    cases step_of_next hNext with
    | awaitEmpty =>
      cases hAwait
      have hMoved := Moved.on hCurrent hBody .rfl
        (fun callers => Config.Step.callEmpty rest (by rw [held_closures, hHeld, Option.bind_none]))
        rfl
        (calm_of_running hControl) [.threw (.logicError "cannot await an empty Task")]
      rwa [List.map_nil, List.append_nil] at hMoved
  | some child =>
    simp only [State.await, hHeld, Option.bind_eq_bind, Option.bind_eq_some_iff] at hAwait
    obtain ⟨⟨w, obs⟩, hNext, hAwait⟩ := hAwait
    cases step_of_next hNext with
    | await hControl' hFree =>
      cases hControl.symm.trans hControl'
      cases hAwait
      obtain ⟨frame, hFrame, -⟩ := sched.running_frame hControl
      obtain ⟨task, hTask, hRole, hCompletion⟩ := sched.free_of_isFreeTask hFree
      cases hCurrent.frame.symm.trans (Scheduled.nodes_of_frame hFrame)
      have hNe : child ≠ h := by
        rintro rfl
        cases hFrame.symm.trans hTask
        exact (sched.threaded_running hControl).active_role (Scheduled.nodes_of_frame hFrame) hRole
      exact .awaited [.suspended h, .resumed child] hCurrent hPoint hHeld
        (Scheduled.nodes_of_frame hTask) (Scheduled.nodes_await hFrame hTask hNe hCompletion)
        (calm_of_running rfl)

theorem moved_of_finish (sched : Scheduled short s.world) (frames : s.Framed)
    (hControl : s.world.control = .running h left) (hCurrent : Current s h a node)
    {result : Result υ} (hPoint : a.point = .at (.finish result)) (hTasks : a.tasks = [])
    (hFinish : s.finish wrap h a result = some (s', events)) : Moved s (some h) s' events := by
  simp only [State.finish, Option.bind_eq_bind, Option.bind_eq_some_iff] at hFinish
  obtain ⟨⟨w, obs⟩, hNext, hFinish⟩ := hFinish
  rcases nodes_finish sched hControl hCurrent.frame (step_of_next hNext) with
    ⟨parent, caller, hRole, hCaller, hAwaiting, hRunning, hNodes⟩ | ⟨hRole, hDrain, hPromised,
    hNodes⟩
  · obtain ⟨b, hParent⟩ := frames.code_of_node hCaller
    obtain ⟨rest, hAwaits⟩ := (hAwaiting ▸ frames.fits hParent hCaller).awaits
    simp only [hRunning, hParent, Option.bind_some, hAwaits] at hFinish
    cases hFinish
    exact .returned obs hCurrent hPoint hTasks hRole hCaller hParent hAwaits hNodes hControl
      hRunning
  · simp only [hDrain] at hFinish
    cases hFinish
    exact .completed obs hCurrent hPoint hTasks hRole hNodes hDrain hPromised

/-- The running coroutine goes on, in one move or, when it spawns, in two. -/
theorem moved_of_perform (sched : Scheduled short s.world) (hKeyed : s.world.AllKeyed)
    (frames : s.Framed) (hControl : s.world.control = .running h left)
    (hCurrent : Current s h a node) (hPoint : a.point = .at body)
    (hPerform : s.perform wrap h a frame address faults replies body = some (s', events)) :
    Moved s (some h) s' events ∨ ∃ s₁ events₁ n act, s₁.world = s'.world ∧ Moved s none s₁ events₁ ∧
      Moved s₁ (some h) s' [.acted n act] ∧ events = events₁ ++ [.acted n act] := by
  have hBody : a.point.body = some body := by rw [hPoint, Point.body]
  cases body with
  | act effect rest =>
    cases hPerform
    exact .inl (.on hCurrent hBody .rfl (fun callers => .act effect rest (replies effect)) rfl
      (calm_of_running hControl) [])
  | ask => exact .inl (moved_of_ask hKeyed hControl hCurrent hPoint hPerform)
  | make => exact .inl (moved_of_make hControl hCurrent hPoint hPerform)
  | call => exact .inl (moved_of_await sched hControl hCurrent hPoint hPerform)
  | discard x rest =>
    refine .inl (moved_of_drop hControl hCurrent hPoint held_of_set (fun callers => ?_) hPerform)
    rw [closures_set]
    exact .discard x rest
  | finish result =>
    simp only [State.perform] at hPerform
    cases hLast : a.tasks.getLast? with
    | none =>
      rw [hLast] at hPerform
      exact .inl (moved_of_finish sched frames hControl hCurrent hPoint
        (List.getLast?_eq_none_iff.mp hLast) hPerform)
    | some =>
      rw [hLast, ← held_last hLast] at hPerform
      exact .inl (moved_of_drop hControl hCurrent hPoint held_of_dropLast
        (fun callers => .release result) hPerform)
  | launch other rest =>
    simp only [State.perform, Option.bind_eq_bind, Option.bind_eq_some_iff] at hPerform
    obtain ⟨⟨s₁, e, events₁⟩, hLaunch, hPerform⟩ := hPerform
    cases hPerform
    obtain ⟨hNew, hSame, obs, ⟨rfl, hNodes, hEq, rfl⟩ | ⟨hError, hNodes, hEq, rfl⟩⟩ :=
      launch_cases sched hLaunch
    · have hNe : h ≠ frame := by
        rintro rfl
        rw [hCurrent.frame] at hNew
        cases hNew
      have hCurrent' : Current s₁ h a node := by
        refine ⟨?_, ?_, hCurrent.running⟩
        · rw [hEq]
          exact (Function.update_of_ne hNe ..).trans hCurrent.code
        · rw [hNodes]
          exact (Function.update_of_ne hNe ..).trans hCurrent.frame
      refine .inr ⟨s₁, _, _, _, rfl, ?_, .on hCurrent' hBody .rfl
        (fun callers => .launch other rest .done) rfl (calm_of_running (hSame.trans hControl)) [],
        rfl⟩
      rw [hEq]
      exact .spawned obs hNew hNodes (by rw [hControl]; rfl) (by rw [hSame, hControl]; rfl)
    · refine .inl ?_
      rw [hEq]
      exact .on hCurrent hBody .rfl (fun callers => .launch other rest _) hNodes
        (calm_of_running (hSame.trans hControl)) obs

/-- Everything that can happen next. -/
theorem moved_of_next (sched : Scheduled short s.world) (hKeyed : s.world.AllKeyed)
    (frames : s.Framed) {label : Label φ υ} (hNext : s.next wrap label = some (s', events)) :
    ∃ actor, Moved s actor s' events ∨ ∃ s₁ events₁ n act, s₁.world = s'.world ∧
      Moved s none s₁ events₁ ∧ Moved s₁ actor s' [.acted n act] ∧
      events = events₁ ++ [.acted n act] := by
  cases label with
  | io =>
    simp only [State.next] at hNext
    split_ifs at hNext with hAllows
    exact ⟨none, .inl (moved_of_io sched hKeyed (outer_of_allows hAllows) hNext)⟩
  | spawn body frame fails =>
    simp only [State.next] at hNext
    split at hNext
    · rename_i hControl
      obtain ⟨⟨s₁, e, events₁⟩, hLaunch, hEq⟩ := Option.map_eq_some_iff.mp hNext
      cases hEq
      obtain ⟨hNew, hSame, obs, ⟨rfl, hNodes, hEq, rfl⟩ | ⟨hError, hNodes, hEq, rfl⟩⟩ :=
        launch_cases sched hLaunch
      · rw [hEq]
        exact ⟨none, .inl (.spawned obs hNew hNodes (by rw [hControl]; rfl)
          (by rw [hSame, hControl]; rfl))⟩
      · rw [hEq]
        exact ⟨none, .inl (.idle obs hNodes (.apart (by rw [hControl]; rfl)
          (by rw [hSame, hControl]; rfl)))⟩
    · cases hNext
  | go frame address faults replies =>
    simp only [State.next, State.go] at hNext
    split at hNext
    · rename_i h left hControl
      obtain ⟨a, node, hCurrent⟩ := current_of_control sched frames hControl
      simp only [hCurrent.code, Option.bind_eq_bind, Option.bind_some] at hNext
      split at hNext
      · rename_i body hPoint
        exact ⟨some h, moved_of_perform sched hKeyed frames hControl hCurrent hPoint hNext⟩
      · rename_i request rest hPoint
        obtain ⟨answer, -, hEq⟩ := Option.bind_eq_some_iff.mp hNext
        cases hEq
        have hBody : a.point.body = some (.ask request rest) := by rw [hPoint, Point.body]
        exact ⟨some h, .inl (.on hCurrent hBody .rfl (fun callers => .ask request rest answer) rfl
          (calm_of_running hControl) [])⟩
      · cases hNext
    · cases hNext

end Steps

/-- What the executor reports in a run. -/
def obsOf (trace : List (Event φ υ)) : List Obs :=
  trace.filterMap fun
    | .io o => some o
    | _ => none

theorem mem_of_obsOf {trace : List (Event φ υ)} {o : Obs} (h : o ∈ obsOf trace) :
    .io o ∈ trace := by
  obtain ⟨event, hMem, hEq⟩ := List.mem_filterMap.mp h
  cases event with
  | io => exact Option.some.inj hEq ▸ hMem
  | _ => cases hEq

section Drives

variable {wrap : Wrap} {s s' : State φ υ} {events : List (Event φ υ)} {h frame address : Nat}
  {a : Activation φ υ} {faults : Faults}

theorem obsOf_append (trace events : List (Event φ υ)) :
    obsOf (trace ++ events) = obsOf trace ++ obsOf events :=
  List.filterMap_append

theorem obsOf_io (obs : List Obs) : obsOf (obs.map (.io : Obs → Event φ υ)) = obs := by
  simp [obsOf, List.filterMap_map]

theorem obsOf_io_append (obs : List Obs) {later : List (Event φ υ)} (hLater : obsOf later = []) :
    obsOf (obs.map (.io : Obs → Event φ υ) ++ later) = obs := by
  rw [obsOf_append, obsOf_io, hLater, List.append_nil]

/-- The executor takes some steps. -/
def Drives (wrap : Wrap) (s s' : State φ υ) (events : List (Event φ υ)) : Prop :=
  ∃ labels, (Io.machine wrap).run s.world labels = some (s'.world, obsOf events)

theorem drives_none (hWorld : s'.world = s.world) (hSilent : obsOf events = []) :
    Drives wrap s s' events :=
  ⟨[], by rw [hWorld, hSilent]; rfl⟩

theorem drives_one {label : Io.Label} {w : World} {obs : List Obs}
    (hNext : s.world.next wrap label = some (w, obs)) (hWorld : s'.world = w)
    (hEvents : obsOf events = obs) : Drives wrap s s' events := by
  refine ⟨[label], ?_⟩
  rw [hWorld, hEvents, ← List.append_nil obs]
  exact Machine.run_cons hNext rfl

theorem drives_of_ask {request : Request} {rest : Answer → Body φ υ}
    (hAsk : s.ask wrap h a address faults request rest = some (s', events)) :
    Drives wrap s s' events := by
  simp only [State.ask, Option.bind_eq_bind, Option.bind_eq_some_iff] at hAsk
  obtain ⟨⟨w, obs⟩, hNext, hAsk⟩ := hAsk
  split at hAsk
  · cases hAsk
    exact drives_one hNext rfl (obsOf_io_append obs rfl)
  · split_ifs at hAsk with hSuspends
    · cases hAsk
      exact drives_one hNext rfl (obsOf_io obs)
    · cases hAsk
      exact drives_one hNext rfl (obsOf_io_append obs rfl)

theorem drives_of_launch {body : Body φ υ} {fails : Bool} {e : Option Exception}
    (hLaunch : s.launch wrap body frame fails = some (s', e, events)) :
    Drives wrap s s' events := by
  simp only [State.launch, Option.bind_eq_bind, Option.bind_eq_some_iff] at hLaunch
  obtain ⟨⟨w, made⟩, hCreate, ⟨w', obs⟩, hSpawn, hLaunch⟩ := hLaunch
  have hRun : (Io.machine wrap).run s.world [.create frame, .spawn (some frame) fails] =
      some (w', made ++ (obs ++ [])) :=
    Machine.run_cons hCreate (Machine.run_cons hSpawn rfl)
  split at hLaunch
  · cases hLaunch
    refine ⟨_, hRun.trans ?_⟩
    rw [obsOf_append, obsOf_io, obsOf_io, List.append_nil]
  · cases hLaunch
    refine ⟨_, hRun.trans ?_⟩
    rw [List.append_assoc, obsOf_append, obsOf_io, obsOf_io_append obs rfl, List.append_nil]

theorem drives_of_drop {task : Option Nat} {tasks : List (Option Nat)} {rest : Body φ υ}
    (hDrop : s.drop wrap h a task tasks rest = some (s', events)) : Drives wrap s s' events := by
  cases task with
  | none =>
    cases hDrop
    exact drives_none rfl rfl
  | some =>
    simp only [State.drop, Option.bind_eq_bind, Option.bind_eq_some_iff] at hDrop
    obtain ⟨⟨w, obs⟩, hNext, hDrop⟩ := hDrop
    cases hDrop
    exact drives_one hNext rfl (obsOf_io obs)

theorem drives_of_await {x : Nat} {rest : Option (Result υ) → Body φ υ}
    (hAwait : s.await wrap h a x rest = some (s', events)) : Drives wrap s s' events := by
  simp only [State.await] at hAwait
  split at hAwait
  · simp only [Option.bind_eq_bind, Option.bind_eq_some_iff] at hAwait
    obtain ⟨⟨w, obs⟩, hNext, hAwait⟩ := hAwait
    cases hAwait
    exact drives_one hNext rfl (obsOf_io obs)
  · simp only [Option.bind_eq_bind, Option.bind_eq_some_iff] at hAwait
    obtain ⟨⟨w, obs⟩, hNext, hAwait⟩ := hAwait
    cases hAwait
    exact drives_one hNext rfl (obsOf_io_append obs rfl)

theorem drives_of_finish {result : Result υ}
    (hFinish : s.finish wrap h a result = some (s', events)) : Drives wrap s s' events := by
  simp only [State.finish, Option.bind_eq_bind, Option.bind_eq_some_iff] at hFinish
  obtain ⟨⟨w, obs⟩, hNext, hFinish⟩ := hFinish
  split at hFinish
  · simp only [Option.bind_eq_some_iff] at hFinish
    obtain ⟨b, -, hFinish⟩ := hFinish
    split at hFinish
    · cases hFinish
      exact drives_one hNext rfl (obsOf_io_append obs rfl)
    · cases hFinish
  · cases hFinish
    exact drives_one hNext rfl (obsOf_io_append obs rfl)

theorem drives_of_perform {body : Body φ υ}
    (hPerform : s.perform wrap h a frame address faults replies body = some (s', events)) :
    Drives wrap s s' events := by
  cases body with
  | act =>
    cases hPerform
    exact drives_none rfl rfl
  | ask => exact drives_of_ask hPerform
  | discard => exact drives_of_drop hPerform
  | call => exact drives_of_await hPerform
  | make =>
    simp only [State.perform, State.make, Option.bind_eq_bind, Option.bind_eq_some_iff] at hPerform
    obtain ⟨⟨w, obs⟩, hNext, hPerform⟩ := hPerform
    cases hPerform
    exact drives_one hNext rfl (obsOf_io obs)
  | finish =>
    simp only [State.perform] at hPerform
    split at hPerform
    · exact drives_of_drop hPerform
    · exact drives_of_finish hPerform
  | launch =>
    simp only [State.perform, Option.bind_eq_bind, Option.bind_eq_some_iff] at hPerform
    obtain ⟨⟨s₁, e, events₁⟩, hLaunch, hPerform⟩ := hPerform
    cases hPerform
    obtain ⟨labels, hRun⟩ := drives_of_launch hLaunch
    refine ⟨labels, hRun.trans ?_⟩
    rw [obsOf_append]
    exact congrArg (fun obs => some (s₁.world, obs)) (List.append_nil _).symm

/-- Every step of the bodies is a run of the executor. -/
theorem drives_of_next {label : Label φ υ} (hNext : s.next wrap label = some (s', events)) :
    Drives wrap s s' events := by
  cases label with
  | io label =>
    simp only [State.next] at hNext
    split_ifs at hNext with hAllows
    simp only [State.io, Option.bind_eq_bind, Option.bind_eq_some_iff] at hNext
    obtain ⟨⟨w, obs⟩, hStep, hNext⟩ := hNext
    split at hNext
    · rename_i root hDrains
      cases hNext
      refine drives_one hStep rfl (obsOf_io_append obs ?_)
      cases s.code root with
      | none => rfl
      | some => rfl
    · cases hNext
      exact drives_one hStep rfl (obsOf_io obs)
  | spawn =>
    simp only [State.next] at hNext
    split at hNext
    · obtain ⟨⟨s₁, e, events₁⟩, hLaunch, hEq⟩ := Option.map_eq_some_iff.mp hNext
      cases hEq
      exact drives_of_launch hLaunch
    · cases hNext
  | go =>
    simp only [State.next, State.go] at hNext
    split at hNext
    · simp only [Option.bind_eq_bind, Option.bind_eq_some_iff] at hNext
      obtain ⟨a, -, hNext⟩ := hNext
      split at hNext
      · exact drives_of_perform hNext
      · obtain ⟨answer, -, hEq⟩ := Option.bind_eq_some_iff.mp hNext
        cases hEq
        exact drives_none rfl rfl
      · cases hNext
    · cases hNext

end Drives

end Tinycoro.Coroutine
