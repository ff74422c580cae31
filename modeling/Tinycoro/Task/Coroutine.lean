import Tinycoro.Task.Task
import Tinycoro.Library.Calls

/-! Coroutines with their bodies, on the executor. A frame holds the point its coroutine
has come to and its `Task` variables. The executor only sees handles: which body goes on
after a final suspension is decided by the handle in the promise. Other than in `Task.State`,
a `Task` stays in the variable it was made for, and no code of the user's runs when a frame
is destroyed. -/
namespace Tinycoro.Coroutine

open Io Transition Calls

/-- What the promise holds at the final suspension. Only `Task<void>` goes without a value. -/
inductive Result (υ : Type) where
  | returned (value : Option υ)
  | threw (e : Nat)
  deriving DecidableEq

def Result.exception {υ : Type} : Result υ → Option Nat
  | .returned _ => none
  | .threw e => some e

/-- What a body asks of the executor, apart from `spawn`. -/
inductive Request where
  | yield
  | wait (fd : Int) (event : Io.Event) (timeout : Int)
  | cancel (fd : Int)
  | stop
  deriving DecidableEq

/-- The coroutine is suspended until there is an answer. -/
def Request.suspends : Request → Bool
  | .yield | .wait .. => true
  | .cancel _ | .stop => false

inductive Answer where
  | done
  | ready (result : Bool)
  | threw (e : Exception)
  deriving DecidableEq

/-- The body of a coroutine, whose variables are its `Task` objects. It is a tree in which every
path ends, so a coroutine that loops for ever has no body here. -/
abbrev Body {ε : Type} (φ : ε → Type) (υ : Type) := Program φ Request Answer (Result υ)

/-- What `co_await` of a `Task` is to the body. -/
inductive Delivered (υ : Type) where
  | unit
  | value (v : υ)
  | threw (e : Exception)
  deriving DecidableEq

/-- `Awaiter::await_resume`, of `Task<void>` or of another `Task`. -/
def awaitResume {υ : Type} (void : Bool) : Option (Result υ) → Delivered υ
  | none => .threw (.logicError "cannot await an empty Task")
  | some (.threw e) => .threw (.task e)
  | some (.returned value) =>
    if void then .unit
    else match value with
      | none => .threw (.logicError "Task completed without a value")
      | some v => .value v

/-- `co_await std::move(x)` -/
def coAwait {ε : Type} {φ : ε → Type} {υ : Type} (x : Nat) (void : Bool)
    (rest : Delivered υ → Body φ υ) : Body φ υ :=
  .call x (fun result => rest (awaitResume void result))

variable {ε : Type} {φ : ε → Type} {υ : Type}

/-- Where a coroutine stands: at a point of its body, in an awaiter of the executor, in
the awaiter of a child, or at its final suspension. -/
inductive Point {ε : Type} (φ : ε → Type) (υ : Type) where
  | at (body : Body φ υ)
  | asked (request : Request) (rest : Answer → Body φ υ)
  | awaits (child : Nat) (rest : Option (Result υ) → Body φ υ)
  | ended (result : Result υ)

/-- The part of a frame that is the coroutine's own: its point, the handles in its `Task`
variables, and the number of the root it works for. -/
structure Activation {ε : Type} (φ : ε → Type) (υ : Type) where
  point : Point φ υ
  tasks : List (Option Nat)
  root : Nat

structure State {ε : Type} (φ : ε → Type) (υ : Type) where
  world : World
  code : Nat → Option (Activation φ υ)
  /-- how many roots were spawned -/
  spawned : Nat

inductive Event {ε : Type} (φ : ε → Type) (υ : Type) where
  | io (o : Obs)
  | spawned (root : Nat) (body : Body φ υ)
  | acted (root : Nat) (act : Act φ Request Answer)
  | started (child parent : Nat)
  | delivered (child parent : Nat) (result : Result υ)
  | completed (root : Nat) (result : Result υ)
  | destroyed (root : Nat)

inductive Label {ε : Type} (φ : ε → Type) (υ : Type) where
  /-- the kernel, the clock, the executor, or code that is not a coroutine -/
  | io (label : Io.Label)
  /-- code that is not a coroutine spawns a root in a new frame -/
  | spawn (body : Body φ υ) (frame : Nat) (fails : Bool)
  /-- the running coroutine goes on: a new frame or channel is at this address if it
  needs one, this is what fails, and these are the replies to effects -/
  | go (frame address : Nat) (faults : Faults) (replies : (effect : ε) → φ effect)

namespace State

def create : State φ υ := ⟨.create, fun _ => none, 0⟩

def put (s : State φ υ) (h : Nat) (a : Option (Activation φ υ)) : State φ υ :=
  { s with code := Function.update s.code h a }

/-- The coroutine has come to a point of its body. -/
def goto (s : State φ υ) (h : Nat) (a : Activation φ υ) (body : Body φ υ) : State φ υ :=
  s.put h (some { a with point := .at body })

/-- What the request is to the executor. -/
def label (address : Nat) (faults : Faults) : Request → Io.Label
  | .yield => .yield faults.push
  | .wait fd event timeout => .wait fd event timeout address faults
  | .cancel fd => .cancel fd faults
  | .stop => .stop

/-- What the request throws. -/
def refusal (wrap : Wrap) (w : World) (h address : Nat) (faults : Faults) :
    Request → Option Exception
  | .yield => (w.schedule faults.push h).error
  | .wait fd event timeout =>
      (w.armWait wrap faults address fd event timeout (some h) (some h)).error
  | .cancel fd => (w.cancel faults fd).error
  | .stop => none

/-- `await_suspend`, or a call that returns at once. -/
def ask (wrap : Wrap) (s : State φ υ) (h : Nat) (a : Activation φ υ) (address : Nat)
    (faults : Faults) (request : Request) (rest : Answer → Body φ υ) :
    Option (State φ υ × List (Event φ υ)) := do
  let (w, obs) ← s.world.next wrap (label address faults request)
  let s' := { s with world := w }
  match refusal wrap s.world h address faults request with
  | some e =>
      return (s'.goto h a (rest (.threw e)), obs.map .io ++
        [.acted a.root (.asked request (.threw e))])
  | none =>
    if request.suspends then return (s'.put h (some { a with point := .asked request rest }),
      obs.map .io)
    else return (s'.goto h a (rest .done), obs.map .io ++ [.acted a.root (.asked request .done)])

/-- `await_resume` of the executor's awaiters. -/
def answer (s : State φ υ) (h : Nat) : Request → Option Answer
  | .wait .. => (s.world.frames h).map (fun frame => .ready frame.ready)
  | _ => some .done

/-- `spawn` of a coroutine that is called for it. -/
def launch (wrap : Wrap) (s : State φ υ) (body : Body φ υ) (frame : Nat) (fails : Bool) :
    Option (State φ υ × Option Exception × List (Event φ υ)) := do
  let (w, made) ← s.world.next wrap (.create frame)
  let (w', obs) ← w.next wrap (.spawn (some frame) fails)
  let events := made.map .io ++ obs.map .io
  match (w.spawn fails (some frame)).error with
  | some e => return ({ s with world := w' }, some e, events)
  | none =>
    return (⟨w', Function.update s.code frame (some ⟨.at body, [], s.spawned⟩), s.spawned + 1⟩,
      none, events ++ [.spawned s.spawned body])

/-- A coroutine is called, and its `Task` is stored. -/
def make (wrap : Wrap) (s : State φ υ) (h : Nat) (a : Activation φ υ) (frame : Nat)
    (callee rest : Body φ υ) : Option (State φ υ × List (Event φ υ)) := do
  let (w, obs) ← s.world.next wrap (.create frame)
  let s := { s with world := w }.put frame (some ⟨.at callee, [], a.root⟩)
  return (s.goto h { a with tasks := a.tasks ++ [some frame] } rest, obs.map .io)

/-- `~Task` of a variable that goes out of scope, which leaves `tasks`. -/
def drop (wrap : Wrap) (s : State φ υ) (h : Nat) (a : Activation φ υ) (task : Option Nat)
    (tasks : List (Option Nat)) (rest : Body φ υ) : Option (State φ υ × List (Event φ υ)) :=
  match task with
  | none => some (s.goto h { a with tasks } rest, [])
  | some child => do
    let (w, obs) ← s.world.next wrap (.drop child)
    return (({ s with world := w }.put child none).goto h { a with tasks } rest, obs.map .io)

/-- `co_await` of a variable: the `Awaiter` takes the handle and, unless it is empty,
starts the child. -/
def await (wrap : Wrap) (s : State φ υ) (h : Nat) (a : Activation φ υ) (x : Nat)
    (rest : Option (Result υ) → Body φ υ) : Option (State φ υ × List (Event φ υ)) :=
  match held a.tasks x with
  | none => do
    let (w, obs) ← s.world.next wrap (.await none)
    return ({ s with world := w }.goto h a (rest none), obs.map .io)
  | some child => do
    let (w, obs) ← s.world.next wrap (.await (some child))
    return ({ s with world := w }.put h
      (some { a with point := .awaits child rest, tasks := a.tasks.set x none }), obs.map .io ++
      [.started child h])

/-- The final suspension. The coroutine that has the thread then reads the promise. -/
def finish (wrap : Wrap) (s : State φ υ) (h : Nat) (a : Activation φ υ) (result : Result υ) :
    Option (State φ υ × List (Event φ υ)) := do
  let (w, obs) ← s.world.next wrap (.finish result.exception)
  let s := { s with world := w }
  match w.control with
  | .running parent _ => do
    let b ← s.code parent
    match b.point with
    | .awaits _ rest =>
      return ((s.put h none).goto parent b (rest (some result)), obs.map .io ++
        [.delivered h parent result])
    | _ => none
  | _ =>
      return (s.put h (some { a with point := .ended result }), obs.map .io ++
        [.completed a.root result])

/-- The next step of a body. The variables of a body that finishes are destroyed first,
the last one before the others. -/
def perform (wrap : Wrap) (s : State φ υ) (h : Nat) (a : Activation φ υ) (frame address : Nat)
    (faults : Faults) (replies : (effect : ε) → φ effect) :
    Body φ υ → Option (State φ υ × List (Event φ υ))
  | .act effect rest =>
      some (s.goto h a (rest (replies effect)), [.acted a.root (.did effect (replies effect))])
  | .ask request rest => s.ask wrap h a address faults request rest
  | .launch other rest => do
    let (s, e, events) ← s.launch wrap other frame faults.alloc
    let answer := e.elim .done .threw
    return (s.goto h a (rest answer), events ++ [.acted a.root (.launched answer)])
  | .make callee rest => s.make wrap h a frame callee rest
  | .discard x rest => s.drop wrap h a (held a.tasks x) (a.tasks.set x none) rest
  | .call x rest => s.await wrap h a x rest
  | .finish result =>
    match a.tasks.getLast? with
    | some task => s.drop wrap h a task a.tasks.dropLast (.finish result)
    | none => s.finish wrap h a result

/-- The running coroutine goes on. -/
def go (wrap : Wrap) (s : State φ υ) (frame address : Nat) (faults : Faults)
    (replies : (effect : ε) → φ effect) : Option (State φ υ × List (Event φ υ)) :=
  match s.world.control with
  | .running h _ => do
    let a ← s.code h
    match a.point with
    | .at body => s.perform wrap h a frame address faults replies body
    | .asked request rest => do
      let answer ← s.answer h request
      return (s.goto h a (rest answer), [.acted a.root (.asked request answer)])
    | _ => none
  | _ => none

/-- Coroutines act through their bodies only. -/
def allows (s : State φ υ) : Io.Label → Bool
  | .change .. | .close .. | .tick .. | .advance .. => true
  | .cancel .. | .stop | .run => match s.world.control with
      | .running .. => false
      | _ => true
  | _ => false

/-- A root that is drained goes with its frame. -/
def io (wrap : Wrap) (s : State φ υ) (label : Io.Label) : Option (State φ υ × List (Event φ υ)) :=
  do
  let (w, obs) ← s.world.next wrap label
  match Task.drains s.world label with
  | some root =>
    return ({ s with world := w }.put root none,
      obs.map .io ++ (s.code root).toList.map (fun a => .destroyed a.root))
  | none => return ({ s with world := w }, obs.map .io)

def next (wrap : Wrap) (s : State φ υ) : Label φ υ → Option (State φ υ × List (Event φ υ))
  | .io label => if s.allows label then s.io wrap label else none
  | .spawn body frame fails =>
    match s.world.control with
    | .idle => (s.launch wrap body frame fails).map (fun r => (r.1, r.2.2))
    | _ => none
  | .go frame address faults replies => s.go wrap frame address faults replies

end State

def machine {ε : Type} (φ : ε → Type) (υ : Type) (wrap : Wrap) :
    Machine (State φ υ) (Label φ υ) (Event φ υ) where
  start := .create
  next := State.next wrap

/-- What a root has done, by its coroutines. -/
def actsOf (root : Nat) (trace : List (Event φ υ)) : List (Act φ Request Answer) :=
  trace.filterMap fun
    | .acted n act => if n = root then some act else none
    | _ => none

/-- How a root has ended, if it has. -/
def resultOf (root : Nat) (trace : List (Event φ υ)) : Option (Result υ) :=
  trace.findSome? fun
    | .completed n result => if n = root then some result else none
    | _ => none

end Tinycoro.Coroutine
