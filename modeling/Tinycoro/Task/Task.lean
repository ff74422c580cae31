import Tinycoro.Io.Step
import Mathlib.Data.Finset.Sort

/-! `Task` objects, the awaiters that `co_await` makes of them, and the coroutine frames
both own, next to an executor. Objects are known by their addresses. An object is a
variable, a parameter or a temporary of a coroutine, and goes with its frame, or belongs
to other code. Frames that are not the executor's business any more stay until their
`destroy` has returned. Until then the `reset` that has called it has not cleared
`handle_`, and the destructors that it runs are user code, which may use `Task` objects
and the executor. -/
namespace Tinycoro.Task

open Io Transition

inductive Kind where
  | task
  | awaiter
  deriving DecidableEq

/-- A `Task` or a `Task::Awaiter` with its `handle_`, and the frame it is in. -/
structure Object where
  kind : Kind
  scope : Option Nat
  handle : Option Nat
  deriving DecidableEq

/-- An object whose `reset` has called `destroy` for this frame, or from which the
assignment with this `reset` will take the handle, as it is in memory. -/
structure Stale where
  frame : Nat
  object : Nat
  value : Object
  deriving DecidableEq

structure State where
  world : World
  /-- `~IoContext` has begun -/
  destructed : Bool
  /-- the objects as they will be when every `reset` under way has returned -/
  objects : Finmap (fun _ : Nat => Object)
  /-- frames at their end or being destroyed, which the executor does not have any more -/
  detached : Finset Nat
  /-- the frames whose `destroy` has not returned, the innermost first -/
  dying : List Nat
  /-- the objects that are not so in memory yet -/
  stale : List Stale
  /-- the root that the loop at the end of `~IoContext` destroys -/
  root : Option Nat
  /-- what was spawned from there: `roots_` was moved away before, and what is put into it
  now nobody destroys -/
  late : Finset Nat

/-- `touched` is the use of an object while a `reset` of it is under way, and what the
program does after it is undefined. `spawnedLate` is a `spawn` while `~IoContext` destroys
the roots. -/
inductive Event where
  | created (h : Nat)
  | destroyed (h : Nat)
  | touched (object : Nat)
  | spawnedLate (h : Nat)
  deriving DecidableEq

inductive Label where
  /-- anything that has nothing to do with `Task` objects -/
  | io (label : Io.Label)
  /-- a coroutine is called with `Task` arguments, which are moved to its parameters -/
  | call (h object : Nat) (scope : Option Nat) (arguments : List (Nat × Nat))
  | construct (object : Nat) (scope : Option Nat)
  | moveConstruct (object other : Nat) (scope : Option Nat)
  | moveAssign (object other : Nat)
  | destroy (object : Nat)
  /-- `co_await std::move(object)` -/
  | await (object awaiter : Nat)
  /-- the end of the full expression with the `co_await` -/
  | endAwait (awaiter : Nat)
  /-- `spawn` with this object as its parameter -/
  | spawn (object : Nat) (fails : Bool)
  | destruct
  /-- the loop at the end of `~IoContext` takes this root -/
  | destroyRoot (h : Nat)
  /-- one more object of the frame that is being destroyed goes, or the frame itself -/
  | unwind (object : Option Nat)

/-- The objects that a step reads. -/
def Label.uses : Label → List Nat
  | .call _ _ _ arguments => arguments.map Prod.fst
  | .moveConstruct _ other _ => [other]
  | .moveAssign object other => [object, other]
  | .destroy object | .await object _ | .endAwait object | .spawn object _ => [object]
  | .unwind (some object) => [object]
  | _ => []

/-- What code in a destructor can do. It does not run in a coroutine of its own. -/
def Label.reentrant : Label → Bool
  | .io .stop | .io (.cancel _ _) => true
  | .call .. | .construct .. | .moveConstruct .. | .moveAssign .. | .destroy _ | .spawn .. => true
  | _ => false

/-- The step neither makes, takes nor drops a `Task`. -/
def neutral : Io.Label → Bool
  | .create _ | .drop _ | .spawn .. | .await _ => false
  | _ => true

/-- `~IoContext` before it destroys the roots. -/
def clear (w : World) : World :=
  { w with
    loop := (w.fdStates.keys.sort (· ≤ ·)).foldl (fun loop fd =>
      match w.fdStates.lookup fd with
      | some st => if st.registered then loop.removeChannel st.channel else loop
      | none => loop) w.loop
    fdStates := ∅
    ready := []
    completedHead := none
    timers := [] }

/-- The coroutine that comes to its end here, unless it is a root. -/
def leaves (w : World) : Io.Label → Option Nat
  | .finish _ =>
    match w.control with
    | .running h _ => if (w.frames h).any (fun frame => frame.completion) then none else some h
    | _ => none
  | _ => none

/-- The root that `drain_completed` takes from its list here. -/
def drains (w : World) : Io.Label → Option Nat
  | .advance .. =>
    match w.control with
    | .drain .. => w.completedHead
    | _ => none
  | _ => none

def userCode (w : World) : Bool :=
  match w.control with
  | .idle | .running .. | .drain .. => true
  | _ => false

namespace State

def create : State := ⟨.create, false, ∅, ∅, [], [], none, ∅⟩

/-- A destructor or a `reset` has to return first. -/
def busy (s : State) : Bool := s.dying ≠ [] ∨ s.destructed = true ∧ s.world.roots ≠ ∅

/-- The coroutine of the frame has begun, so that its code or code it has called may name
what is in the frame. -/
def begun (s : State) (h : Nat) : Bool :=
  (s.world.frames h).all (fun frame => frame.status ≠ .created)

/-- A `reset` of the object is under way, or an assignment from it. -/
def held (s : State) (object : Nat) : Bool := s.stale.any (fun e => e.object = object)

/-- An object as it is in memory. -/
def memory (s : State) (object : Nat) : Option Object :=
  match s.stale.find? (fun e => e.object = object) with
  | some e => some e.value
  | none => s.objects.lookup object

/-- A `Task` that the program can name. -/
def named (s : State) (object : Nat) : Option Object := do
  let x ← s.memory object
  if x.kind = .task ∧ x.scope.all s.begun then some x else none

/-- Code makes objects of its own coroutine, and others. -/
def places (s : State) : Option Nat → Bool
  | none => true
  | some h => (match s.world.control with
      | .running current _ => current = h
      | _ => false)

/-- A new object, at an address that is not in use. -/
def declare (s : State) (object : Nat) (x : Object) : Option State :=
  if s.memory object = none then some { s with objects := s.objects.insert object x } else none

/-- `std::exchange(handle_, {})` of an object, without the handle it returns. -/
def release (s : State) (object : Nat) (x : Object) : State :=
  { s with objects := s.objects.insert object { x with handle := none } }

/-- `destroy` of a handle begins. -/
def destroy (s : State) (h : Nat) : State :=
  { s with world := s.world.destroyFrame h, detached := insert h s.detached, dying := h :: s.dying }

/-- `if (handle_) handle_.destroy();`, with the objects that keep their handles until that
has returned. -/
def reset (s : State) (kept : List (Nat × Object)) : Option Nat → State
  | none => s
  | some h => { s.destroy h with stale := kept.map (fun x => ⟨h, x.1, x.2⟩) ++ s.stale }

def bind (h : Nat) : List (Nat × Nat) → State → Option State
  | [], s => some s
  | (argument, parameter) :: arguments, s => do
    let x ← s.named argument
    let s ← (s.release argument x).declare parameter ⟨.task, some h, x.handle⟩
    bind h arguments s

/-- The frame is made, the arguments are moved into it, and its promise returns a `Task`. -/
def call (wrap : Wrap) (s : State) (h object : Nat) (scope : Option Nat)
    (arguments : List (Nat × Nat)) : Option (State × List Event) :=
  if s.places scope ∧ h ∉ s.detached then do
    let (world, _) ← s.world.next wrap (.create h)
    let s ← bind h arguments { s with world }
    let s ← s.declare object ⟨.task, scope, some h⟩
    return (s, [.created h])
  else none

def moveConstruct (s : State) (object other : Nat) (scope : Option Nat) : Option State :=
  if s.places scope then do
    let x ← s.named other
    (s.release other x).declare object ⟨.task, scope, x.handle⟩
  else none

def moveAssign (s : State) (object other : Nat) : Option State := do
  let x ← s.named object
  if object = other then return s
  else
    let y ← s.named other
    let s := (s.release object x).reset [(object, x), (other, y)] x.handle
    let s := s.release other y
    return { s with objects := s.objects.insert object { x with handle := y.handle } }

/-- `~Task` -/
def destroyTask (s : State) (object : Nat) : Option State := do
  let x ← s.named object
  return { s with objects := s.objects.erase object }.reset [(object, x)] x.handle

/-- The awaiter gets the handle and, unless it is empty, starts the coroutine. -/
def await (wrap : Wrap) (s : State) (object awaiter : Nat) : Option State :=
  match s.world.control with
  | .running h _ => do
    let x ← s.named object
    let (world, _) ← s.world.next wrap (.await x.handle)
    ({ s with world }.release object x).declare awaiter ⟨.awaiter, some h, x.handle⟩
  | _ => none

/-- `~Awaiter` -/
def endAwait (s : State) (awaiter : Nat) : Option State :=
  match s.world.control with
  | .running h _ => do
    let x ← s.objects.lookup awaiter
    if x.kind = .awaiter ∧ x.scope = some h then
      return { s with objects := s.objects.erase awaiter }.reset [(awaiter, x)] x.handle
    else none
  | _ => none

/-- What is not in `roots_` afterwards is destroyed in the catch block. -/
def spawn (wrap : Wrap) (s : State) (object : Nat) (fails : Bool) : Option State := do
  let x ← s.named object
  let (world, _) ← s.world.next wrap (.spawn x.handle fails)
  let s := { s with world }.release object x
  match x.handle with
  | some h => if h ∈ world.roots then return s else return s.destroy h
  | none => return s

/-- `spawn` while `~IoContext` destroys the roots. -/
def spawnLate (s : State) (object : Nat) (fails : Bool) : Option (State × List Event) := do
  let x ← s.named object
  match x.handle with
  | none => return (s, [])
  | some h =>
    let s := s.release object x
    return (if fails then s.destroy h else { s with late := insert h s.late }, [.spawnedLate h])

/-- A child that has ended is left to its awaiter, and a root that is drained is destroyed. -/
def io (wrap : Wrap) (s : State) (label : Io.Label) : Option State := do
  let (world, _) ← s.world.next wrap label
  match leaves s.world label, drains s.world label with
  | some h, _ => return { s with world, detached := insert h s.detached }
  | none, some root => return { s with world }.destroy root
  | none, none => return { s with world }

def destruct (s : State) : Option State :=
  if s.world.control = .idle then some { s with world := clear s.world, destructed := true }
  else none

def destroyRoot (s : State) (h : Nat) : Option State :=
  if s.destructed ∧ s.dying = [] ∧ h ∈ s.world.roots then
    some ({ s with
      world := { s.world with roots := s.world.roots.erase h }
      root := some h }.destroy h)
  else none

/-- No object is in the frame any more. -/
def vacant (s : State) (h : Nat) : Bool :=
  decide (∀ object ∈ s.objects.keys,
    (s.objects.lookup object).all (fun x => x.scope ≠ some h) = true)

/-- `destroy` returns, and the `reset` that has called it goes on. -/
def returned (s : State) (h : Nat) (rest : List Nat) : State :=
  { s with
    detached := s.detached.erase h
    dying := rest
    stale := s.stale.filter (fun e => e.frame ≠ h)
    root := if s.root = some h then none else s.root }

def unwind (s : State) (object : Option Nat) : Option (State × List Event) :=
  match s.dying, object with
  | [], _ => none
  | h :: _, some object => do
    let x ← s.objects.lookup object
    if x.scope = some h then
      return ({ s with objects := s.objects.erase object }.reset [(object, x)] x.handle, [])
    else none
  | h :: rest, none =>
    if s.vacant h then some (s.returned h rest, [.destroyed h]) else none

/-- What the program can do. After `~IoContext` only `Task` objects are left; while it
destroys the roots, `stop` and `cancel` find nothing to do. -/
def perform (wrap : Wrap) (s : State) : Label → Option (State × List Event)
  | .io label =>
    if neutral label = false then none
    else if s.destructed then if s.root.isSome then some (s, []) else none
    else (s.io wrap label).map (·, [])
  | .call h object scope arguments => s.call wrap h object scope arguments
  | .construct object scope =>
    if s.places scope then (s.declare object ⟨.task, scope, none⟩).map (·, []) else none
  | .moveConstruct object other scope => (s.moveConstruct object other scope).map (·, [])
  | .moveAssign object other => (s.moveAssign object other).map (·, [])
  | .destroy object => (s.destroyTask object).map (·, [])
  | .await object awaiter => (s.await wrap object awaiter).map (·, [])
  | .endAwait awaiter => (s.endAwait awaiter).map (·, [])
  | .spawn object fails =>
    if s.destructed then if s.root.isSome then s.spawnLate object fails else none
    else (s.spawn wrap object fails).map (·, [])
  | .destruct => if s.destructed then none else s.destruct.map (·, [])
  | .destroyRoot h => (s.destroyRoot h).map (·, [])
  | .unwind object => s.unwind object

/-- A step is taken by user code, between the operations or in a destructor, by the
executor, or by a destructor itself. -/
def enabled (s : State) : Label → Bool
  | .unwind _ | .destroyRoot _ => true
  | .io label => s.busy = false ∨ s.dying ≠ [] ∧ (Label.io label).reentrant
  | label => userCode s.world ∧ (s.busy = false ∨ s.dying ≠ [] ∧ label.reentrant)

def next (wrap : Wrap) (s : State) (label : Label) : Option (State × List Event) :=
  if s.enabled label then
    (s.perform wrap label).map fun (s', events) =>
      (s', (label.uses.filter s.held).map .touched ++ events)
  else none

end State

def machine (wrap : Wrap) : Machine State Label Event where
  start := .create
  next := State.next wrap

end Tinycoro.Task
