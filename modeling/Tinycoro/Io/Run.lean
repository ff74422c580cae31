import Tinycoro.Io.IoContext
import Tinycoro.Library.Transition

/-! The executor at work. One label is one step of `run` (an iteration of one of
its loops, a callback of the event loop), one action of the user code that runs
inside a coroutine, outside `run` or in destructors, or a change in the kernel or the
clock. User code is not fixed: it may take any action its situation allows. -/
namespace Tinycoro.Io

open Effect Transition

inductive Label where
  /-- the conditions of a descriptor change, perhaps with a spurious wake-up -/
  | change (fd : Int) (holding : EpollEvents) (wake : Bool)
  | close (fd : Int)
  | tick (d : Nat)
  /-- a coroutine is called: its frame is made, suspended at the start -/
  | create (h : Nat)
  /-- a `Task` that was never started is destroyed -/
  | drop (h : Nat)
  | spawn (task : Option Nat) (fails : Bool)
  | cancel (fd : Int) (faults : Faults)
  | stop
  | run
  /-- `co_await` of a `Task`, which may be empty -/
  | await (task : Option Nat)
  | yield (push : Bool)
  | wait (fd : Int) (event : Event) (timeout : Int) (address : Nat) (faults : Faults)
  /-- the running coroutine returns, or ends with an exception -/
  | finish (exception : Option Nat)
  /-- the next step of `run`: which of the earliest timers is on top, what
  `epoll_wait` fetches (nothing if it fails), and what fails on the way -/
  | advance (pick : World.Pick) (batch : Option (List Int)) (faults : Faults)

namespace World

def create : World where
  loop := .create
  roots := ∅
  ready := []
  completedHead := none
  fdStates := ∅
  timers := []
  nextToken := 1
  running := false
  stopRequested := false
  frames := fun _ => none
  now := 0
  control := .idle

/-- Some `Task` object holds this frame, and nothing else does. -/
def isFreeTask (w : World) (h : Nat) : Bool :=
  (w.frames h).any (fun frame => frame.status = .created && !frame.completion)

/-- No live channel is at this address. -/
def freshAddress (w : World) (address : Nat) : Bool :=
  decide (∀ fd ∈ w.fdStates.keys, (w.fdStates.lookup fd).all
  (fun st => st.channel.address ≠ address) = true)

def destroyFrame (w : World) (h : Nat) : World :=
  { w with frames := Function.update w.frames h none }

def setStatus (w : World) (h : Nat) (status : Status) : World :=
  w.setFrame h (fun frame => { frame with status })

/-- An exception leaves `run`. -/
def throwRun (w : World) (e : Exception) : World × List Obs :=
  ({ w with running := false, control := .idle }, [.runThrew e])

/-- `run` returns. -/
def returnRun (w : World) : World × List Obs :=
  ({ w with running := false, control := .idle }, [.runReturned])

/-- Go on inside `run`, or leave it with the exception. -/
def within (o : IoOutcome) (control : Control) : World × List Obs :=
  match o.error with
  | none => ({ o.state with control }, o.events)
  | some e => ((throwRun o.state e).1, o.events ++ (throwRun o.state e).2)

/-- User code goes on, with the exception if there is one. -/
def toUser (o : IoOutcome) : World × List Obs :=
  match o.error with
  | none => (o.state, o.events)
  | some e => (o.state, o.events ++ [.threw e])

def spawn (fails : Bool) (w : World) : Option Nat → IoOutcome
  | none => .fail (.invalidArgument "IoContext::spawn requires a valid Task") w []
  | some h =>
    if h ∈ w.roots then
      .fail (.logicError "IoContext already owns this Task")
        ({ w with roots := w.roots.erase h }.destroyFrame h) []
    else if fails then .fail .badAlloc (w.destroyFrame h) []
    else
      let w := w.setFrame h (fun frame => { frame with completion := true })
      .ok { w with roots := insert h w.roots, ready := w.ready ++ [h] } []

def rootCompleted (w : World) (h : Nat) : World :=
  { w.setFrame h (fun frame => { frame with completedNext := w.completedHead }) with
    completedHead := some h }

/-- A coroutine reaches its final suspension. A root reports to the executor; a child gives
the thread to the coroutine that awaits it. The frame of the child goes with the awaiter, at
the end of the `co_await` expression; here that is the same step. -/
def finalSuspend (w : World) (h left : Nat) (frame : Frame) : World × List Obs :=
  if frame.completion then ({ w.rootCompleted h with control := .drain none left }, [])
  else match frame.continuation with
    | some parent =>
      ({ (w.setStatus parent .running).destroyFrame h with control := .running parent left },
        [.resumed parent])
    | none => ({ w with control := .drain none left }, [])

/-- One iteration of `run_ready`. -/
def runReady (w : World) : Nat → Option (World × List Obs)
  | 0 => some ({ w with control := .expire w.now false }, [])
  | left + 1 =>
    if w.stopRequested then some ({ w with control := .expire w.now false }, [])
    else match w.ready with
      | [] => none
      | h :: rest =>
        let w := { w with ready := rest }
        if w.isDone h then some ({ w with control := .runReady left }, [])
        else some ({ w.setStatus h .running with control := .running h left }, [.resumed h])

/-- One iteration of `drain_completed`. -/
def drainCompleted (w : World) (firstError : Option Nat) (left : Nat) : Option (World × List Obs) :=
  match w.completedHead with
  | none =>
    match firstError with
    | some e => some (w.throwRun (.task e))
    | none => some ({ w with control := .runReady left }, [])
  | some root => do
    let frame ← w.frames root
    return ({ w with
      completedHead := frame.completedNext
      roots := w.roots.erase root
      frames := Function.update w.frames root none
      control := .drain (firstError.or frame.exception) left }, [])

/-- One iteration of `expire_timers`. -/
def expireTimers (faults : Faults) (w : World) (now : Int) (second : Bool) (pick : Pick) :
    World × List Obs :=
  let finished := ({ w with control := if second then .turn else .poll }, [])
  match w.timers[topIndex pick w.timers]? with
  | none => finished
  | some timer =>
    if timer.deadline ≤ now then
      let popped := { w with timers := w.timers.eraseIdx (topIndex pick w.timers) }
      let (w', events) := within (expireTimer faults popped timer) (.expire now second)
      (w', .timerPopped timer now :: events)
    else finished

/-- `loop_.poll` with the timeout of this turn, up to the return of `epoll_wait`. -/
def pollLoop (w : World) (timeout : Int) (batch : Option (List Int)) : Option (World × List Obs) :=
  if w.ready = [] ∧ timeout < 0 ∧ w.hasRegisteredWaiter = false then
    some (w.throwRun (.logicError "IoContext Task has no readiness or timer wake source"))
  else match batch with
    | none => some (w.throwRun (.systemError "epoll_wait"))
    | some batch => do
      let (kernel, events) ← w.loop.kernel.epollWait timeout EventLoop.kMaxEvents batch
      return ({ w with loop := { w.loop with kernel }, control := .dispatch events }, [])

/-- The turn between the two calls of `expire_timers`. -/
def poll (w : World) (pick : Pick) (batch : Option (List Int)) : Option (World × List Obs) :=
  if w.stopRequested ∨ w.roots = ∅ then some w.returnRun
  else if w.ready ≠ [] then w.pollLoop 0 batch
  else (w.nextPollTimeout w.now pick).1.pollLoop (w.nextPollTimeout w.now pick).2 batch

/-- An event of the batch, up to the call of `on_read`. -/
def dispatchRead (faults : Faults) (w : World) (fd : Int) (flags : EpollEvents)
    (rest : List (Int × EpollEvents)) : World × List Obs :=
  match w.loop.channels fd with
  | none => ({ w with control := .dispatch rest }, [])
  | some channel =>
    if EventLoop.selects flags .read then
      let (w', events) := within (w.onReady faults fd .read) (.dispatchWrite fd flags channel rest)
      (w', .onReady fd .read :: events)
    else ({ w with control := .dispatchWrite fd flags channel rest }, [])

/-- The rest of the event: the channel is looked up again before `on_write`. -/
def dispatchWrite (faults : Faults) (w : World) (fd : Int) (flags : EpollEvents) (channel : Nat)
    (rest : List (Int × EpollEvents)) : World × List Obs :=
  if w.loop.channels fd = some channel ∧ EventLoop.selects flags .write then
    let (w', events) := within (w.onReady faults fd .write) (.dispatch rest)
    (w', .onReady fd .write :: events)
  else ({ w with control := .dispatch rest }, [])

/-- The next step of `run`. -/
def advance (faults : Faults) (w : World) (pick : Pick) (batch : Option (List Int)) :
    Option (World × List Obs) :=
  match w.control with
  | .idle | .running _ _ => none
  | .turn =>
    if w.stopRequested ∨ w.roots = ∅ then some w.returnRun
    else some ({ w with control := .runReady w.ready.length }, [])
  | .runReady left => w.runReady left
  | .drain firstError left => w.drainCompleted firstError left
  | .expire now second => some (w.expireTimers faults now second pick)
  | .poll => w.poll pick batch
  | .dispatch [] => some ({ w with control := .expire w.now true }, [])
  | .dispatch ((fd, flags) :: rest) => some (w.dispatchRead faults fd flags rest)
  | .dispatchWrite fd flags channel rest => some (w.dispatchWrite faults fd flags channel rest)

/-- What user code can do wherever it runs. -/
def userStep (w : World) : Label → Option (World × List Obs)
  | .create h =>
    if w.frames h = none then
      some ({ w with frames := Function.update w.frames h (some .create) }, [.created h])
    else none
  | .drop h => if w.isFreeTask h then some (w.destroyFrame h, []) else none
  | .spawn task fails =>
    if task.all w.isFreeTask then some (toUser (w.spawn fails task)) else none
  | .cancel fd faults =>
    some ((toUser (w.cancel faults fd)).1, .cancelled fd :: (toUser (w.cancel faults fd)).2)
  | .stop => some ({ w with stopRequested := true }, [])
  | .run =>
    if w.running then some (w, [.threw (.logicError "IoContext::run is not reentrant")])
    else some ({ w with running := true, stopRequested := false, control := .turn }, [])
  | _ => none

/-- What the coroutine `h` can do besides. A coroutine that suspends gives the
thread back to `run_ready`, which drains completed roots. -/
def coroutineStep (wrap : Wrap) (w : World) (h left : Nat) : Label → Option (World × List Obs)
  | .await none => some (w, [.threw (.logicError "cannot await an empty Task")])
  | .await (some child) =>
    if w.isFreeTask child then
      let w := (w.setStatus h (.awaiting child)).setFrame child
        (fun frame => { frame with status := .running, continuation := some h })
      some ({ w with control := .running child left }, [.suspended h, .resumed child])
    else none
  | .yield push =>
    match w.schedule push h with
    | ⟨w', events, none⟩ =>
      some ({ w'.setStatus h .suspended with control := .drain none left },
        events ++ [.suspended h])
    | o => some (toUser o)
  | .wait fd event timeout address faults =>
    if w.freshAddress address then
      match w.armWait wrap faults address fd event timeout (some h) (some h) with
      | ⟨w', events, none⟩ =>
        some ({ w'.setStatus h .suspended with control := .drain none left },
          events ++ [.suspended h])
      | o => some (toUser o)
    else none
  | .finish exception => do
    let frame ← w.frames h
    let frame := { frame with status := .done, exception }
    return ({ w with frames := Function.update w.frames h (some frame) }).finalSuspend h left frame
  | _ => none

/-- What the kernel and the clock do. -/
def outsideStep (w : World) : Label → Option (World × List Obs)
  | .change fd holding wake =>
    some ({ w with loop := { w.loop with kernel := w.loop.kernel.change fd holding wake } }, [])
  | .close fd =>
    some ({ w with loop := { w.loop with kernel := w.loop.kernel.close fd } },
      if (w.loop.channels fd).isSome then [.fault .close] else [])
  | .tick d => some ({ w with now := w.now + d }, [])
  | _ => none

def next (wrap : Wrap) (w : World) (label : Label) : Option (World × List Obs) :=
  (w.outsideStep label).or <|
    match label, w.control with
    | .advance pick batch faults, _ => w.advance faults pick batch
    | _, .idle => w.userStep label
    | _, .running h left => (w.userStep label).or (w.coroutineStep wrap h left label)
    -- a root that is drained is destroyed, and so are the objects in its frame
    | _, .drain .. => w.userStep label
    | _, _ => none

end World

def machine (wrap : Wrap) : Machine World Label Obs where
  start := .create
  next := World.next wrap

end Tinycoro.Io
