import Tinycoro.Io.EventLoop
import Tinycoro.Library.Effect
import Tinycoro.Library.Tombstones
import Mathlib.Data.Finmap

/-! The executor's bookkeeping of waits: slots per descriptor and direction,
tokens, timers and the interest given to the event loop. Operations return the
state they leave behind also where they throw. Where an operation can fail for
reasons outside the program, the failure is a parameter. -/
namespace Tinycoro.Io

open Effect Tombstones

/-- A suspended coroutine waiting for one direction of a descriptor. The result
is stored in the awaiter inside the frame it names. -/
structure WaitSlot where
  continuation : Nat
  token : Nat
  result : Nat
  deriving DecidableEq

structure FdState where
  channel : Channel
  reader : Option WaitSlot
  writer : Option WaitSlot
  registered : Bool
  deriving DecidableEq

namespace FdState

def slot (st : FdState) : Event → Option WaitSlot
  | .read => st.reader
  | .write => st.writer

def setSlot (st : FdState) (event : Event) (waitSlot : Option WaitSlot) : FdState :=
  match event with
  | .read => { st with reader := waitSlot }
  | .write => { st with writer := waitSlot }

/-- Neither direction has a waiter. -/
def idle (st : FdState) : Bool := st.reader.isNone && st.writer.isNone

/-- The interest `refresh_interest` computes from the waiters. -/
def wanted (st : FdState) : Interest :=
  if st.reader.isSome && st.writer.isSome then ⟨true, true⟩
  else if st.reader.isSome then ⟨true, false⟩
  else ⟨false, true⟩

end FdState

/-- How numbers that could be counted without end are stored: the tokens of waits, and the
readings of the clock that are their deadlines. -/
structure Wrap where
  token : Nat → Nat
  deadline : Int → Int

namespace Wrap

instance : CoeFun Wrap (fun _ => Nat → Nat) := ⟨token⟩

def unbounded : Wrap := ⟨id, id⟩

/-- A `uint64_t` and a `time_point` of 64 bits, which wraps where its sum overflows. -/
def word : Wrap := ⟨(· % 2 ^ 64), (Int.bmod · (2 ^ 64))⟩

/-- Tokens as given, on a clock whose sums do not overflow. -/
def tokens (token : Nat → Nat) : Wrap := ⟨token, id⟩

end Wrap

structure TimerEntry where
  deadline : Int
  token : Nat
  fd : Int
  event : Event
  deriving DecidableEq

/-- Where a coroutine frame stands. -/
inductive Status where
  | created
  | suspended
  | running
  | awaiting (child : Nat)
  | done
  deriving DecidableEq

/-- A coroutine frame with the promise fields in use, and the result cell of the
awaiter it is suspended in. -/
structure Frame where
  status : Status
  continuation : Option Nat
  completion : Bool
  completedNext : Option Nat
  exception : Option Nat
  ready : Bool
  deriving DecidableEq

/-- A frame suspended at its start, with a promise as it is constructed. -/
def Frame.create : Frame := ⟨.created, none, false, none, none, false⟩

/-- Where the thread is: outside `run`, at the head of its loop, or in one of the
functions the loop calls. `running` is user code resumed by `run_ready`. -/
inductive Control where
  | idle
  | turn
  | runReady (left : Nat)
  | running (h : Nat) (left : Nat)
  | drain (firstError : Option Nat) (left : Nat)
  | expire (now : Int) (second : Bool)
  | poll
  | dispatch (events : List (Int × EpollEvents))
  | dispatchWrite (fd : Int) (flags : EpollEvents) (channel : Nat) (rest : List (Int × EpollEvents))
  deriving DecidableEq

structure World where
  loop : EventLoop
  roots : Finset Nat
  ready : List Nat
  completedHead : Option Nat
  fdStates : Finmap (fun _ : Int => FdState)
  timers : List TimerEntry
  nextToken : Nat
  running : Bool
  stopRequested : Bool
  frames : Nat → Option Frame
  now : Int
  control : Control

/-- Failures that the program does not decide. -/
structure Faults where
  /-- a new `FdState` cannot be allocated -/
  alloc : Bool
  /-- `EPOLL_CTL_ADD` fails -/
  add : Bool
  /-- `EPOLL_CTL_MOD` fails -/
  mod : Bool
  /-- `EPOLL_CTL_MOD` fails in the rollback of `arm_wait` -/
  remod : Bool
  /-- the timer heap cannot grow -/
  timer : Bool
  /-- `ready_` cannot grow -/
  push : Bool
  /-- `ready_` cannot grow for the second waiter of `cancel` -/
  pushAgain : Bool
  deriving DecidableEq

def Faults.none : Faults := ⟨false, false, false, false, false, false, false⟩

/-- The failures that the results exclude. -/
inductive Fault where
  /-- `schedule` cannot make `ready_` grow -/
  | ready
  /-- `EPOLL_CTL_MOD` fails on a descriptor that is open and registered -/
  | mod
  /-- a descriptor is closed while the loop has it registered -/
  | close
  deriving DecidableEq

/-- What happens, for statements about runs. -/
inductive Obs where
  | created (h : Nat)
  | resumed (h : Nat)
  | suspended (h : Nat)
  | armed (token : Nat) (fd : Int) (event : Event)
  | onReady (fd : Int) (event : Event)
  | cancelled (fd : Int)
  | timerPopped (timer : TimerEntry) (now : Int)
  | completed (token : Nat) (fd : Int) (event : Event) (result : Bool)
  | threw (e : Exception)
  | runReturned
  | runThrew (e : Exception)
  | fault (f : Fault)
  deriving DecidableEq

abbrev IoOutcome := Outcome World Obs Exception

namespace World

def isDone (w : World) (h : Nat) : Bool := (w.frames h).any (fun frame => frame.status = .done)

def setState (w : World) (fd : Int) (st : FdState) : World :=
  { w with fdStates := w.fdStates.insert fd st }

def slotAt (w : World) (fd : Int) (event : Event) : Option WaitSlot :=
  (w.fdStates.lookup fd).bind (fun st => st.slot event)

def setFrame (w : World) (h : Nat) (f : Frame → Frame) : World :=
  { w with frames := Function.update w.frames h ((w.frames h).map f) }

/-- `fd_state`: the entry of a descriptor, made on first use with a channel at a
new address. -/
def fdState (w : World) (address : Nat) (fd : Int) : FdState :=
  match w.fdStates.lookup fd with
  | some st => st
  | none => ⟨⟨address, fd, ⟨true, false⟩⟩, none, none, false⟩

def schedule (push : Bool) (w : World) (continuation : Nat) : IoOutcome :=
  if w.isDone continuation then .ok w []
  else if push then .fail .badAlloc w [.fault .ready]
  else .ok { w with ready := w.ready ++ [continuation] } []

def complete (push : Bool) (w : World) (fd : Int) (event : Event) (result : Bool) : IoOutcome :=
  match w.fdStates.lookup fd with
  | none => .ok w []
  | some st =>
    match st.slot event with
    | none => .ok w []
    | some completed =>
      (Outcome.ok ((w.setState fd (st.setSlot event none)).setFrame completed.result
          (fun frame => { frame with ready := result }))
        [.completed completed.token fd event result]).andThen
        (schedule push · completed.continuation)

/-- The events a failed `update_channel` leaves. On a descriptor that was closed
`EPOLL_CTL_MOD` fails as it should. -/
def modFault (loop : EventLoop) (fd : Int) : Exception → List Obs
  | .systemError _ => if (loop.kernel.registered fd).isSome then [.fault .mod] else []
  | _ => []

def refreshInterest (faults : Faults) (w : World) (fd : Int) : IoOutcome :=
  match w.fdStates.lookup fd with
  | none => .ok w []
  | some st =>
    if st.idle then
      if st.registered then
        .ok ({ w with loop := w.loop.removeChannel st.channel }.setState fd
          { st with registered := false }) []
      else .ok w []
    else
      let channel := { st.channel with interest := st.wanted }
      if st.registered then
        match w.loop.updateChannel faults.mod channel with
        | .ok loop => .ok ({ w with loop }.setState fd { st with channel }) []
        | .error e => .fail e (w.setState fd { st with channel }) (modFault w.loop fd e)
      else
        match w.loop.addChannel faults.add channel with
        | .ok loop => .ok ({ w with loop }.setState fd { st with channel, registered := true }) []
        | .error e => .fail e (w.setState fd { st with channel }) []

/-- The entry goes when no waiter is left. -/
def eraseIdle (w : World) (fd : Int) : World :=
  match w.fdStates.lookup fd with
  | some st => if st.idle then { w with fdStates := w.fdStates.erase fd } else w
  | none => w

/-- The end of a wait, shared by `on_ready` and `expire_timers`. -/
def settle (faults : Faults) (w : World) (fd : Int) (event : Event) (result : Bool) : IoOutcome :=
  ((w.complete faults.push fd event result).andThen (refreshInterest faults · fd)).andThen
    (fun w => .ok (w.eraseIdle fd) [])

def onReady (faults : Faults) (w : World) (fd : Int) (event : Event) : IoOutcome :=
  match w.fdStates.lookup fd with
  | none => .ok w []
  | some _ => w.settle faults fd event true

def cancel (faults : Faults) (w : World) (fd : Int) : IoOutcome :=
  match w.fdStates.lookup fd with
  | none => .ok w []
  | some st =>
    let w := if st.registered then
        { w with loop := w.loop.removeChannel st.channel }.setState fd
        { st with registered := false }
      else w
    ((w.complete faults.push fd .read false).andThen
      (complete faults.pushAgain · fd .write false)).andThen
      (fun w => .ok { w with fdStates := w.fdStates.erase fd } [])

def timerActive (w : World) (timer : TimerEntry) : Bool :=
  (w.slotAt timer.fd timer.event).any (fun waitSlot => waitSlot.token = timer.token)

/-- The body of the loop of `expire_timers`, after the entry is popped. -/
def expireTimer (faults : Faults) (w : World) (timer : TimerEntry) : IoOutcome :=
  if w.timerActive timer then w.settle faults timer.fd timer.event false else .ok w []

def pushTimer (fails : Bool) (w : World) (timer : TimerEntry) : IoOutcome :=
  if fails then .fail .badAlloc w []
  else .ok { w with timers := w.timers ++ [timer] } []

/-- The catch block of `arm_wait`. -/
def rollback (faults : Faults) (w : World) (fd : Int) (event : Event) : IoOutcome :=
  match w.fdStates.lookup fd with
  | none => .ok w []
  | some st =>
    let st := st.setSlot event none
    if st.idle then
      let loop := if st.registered then w.loop.removeChannel st.channel else w.loop
      .ok { w with loop, fdStates := w.fdStates.erase fd } []
    else refreshInterest { faults with mod := faults.remod } (w.setState fd st) fd

/-- `Clock::now() + timeout`, with the timeout in milliseconds and a clock that counts
nanoseconds. -/
def deadlineOf (wrap : Wrap) (w : World) (timeout : Int) : Int :=
  wrap.deadline (w.now + timeout * 1000000)

def timerOf (wrap : Wrap) (w : World) (token : Nat) (fd : Int) (event : Event) (timeout : Int) :
    TimerEntry :=
  ⟨w.deadlineOf wrap timeout, token, fd, event⟩

/-- The slot is taken and the descriptor registered; whatever throws on the way
undoes it. Tokens are counted without end and stored as `wrap` of the count. -/
def enterWait (wrap : Wrap) (faults : Faults) (address : Nat) (w : World) (fd : Int) (event : Event)
    (timeout : Int) (continuation result : Nat) : IoOutcome :=
  let token := wrap w.nextToken
  let taken := (w.fdState address fd).setSlot event (some ⟨continuation, token, result⟩)
  let w := ({ w with nextToken := w.nextToken + 1 }.setFrame result
    (fun frame => { frame with ready := false })).setState fd taken
  (((w.refreshInterest faults fd).andThen fun w =>
      if 0 ≤ timeout then w.pushTimer faults.timer (w.timerOf wrap token fd event timeout) else .ok
    w []).rethrow
    (rollback faults · fd event)).andThen (fun w => .ok w [.armed token fd event])

def armWait (wrap : Wrap) (faults : Faults) (address : Nat) (w : World) (fd : Int) (event : Event)
    (timeout : Int) (continuation result : Option Nat) : IoOutcome :=
  if fd < 0 then .fail (.invalidArgument "cannot wait on an invalid fd") w []
  else match continuation with
    | none => .fail (.logicError "cannot register an invalid coroutine continuation") w []
    | some continuation =>
      if w.isDone continuation then
        .fail (.logicError "cannot register an invalid coroutine continuation") w []
      else match result with
        | none => .fail (.invalidArgument "fd wait requires result storage") w []
        | some result =>
          if w.fdStates.lookup fd = none ∧ faults.alloc then .fail .badAlloc w []
          else if ((w.fdState address fd).slot event).isSome then
            .fail (.logicError "fd already has a waiter for this direction") w []
          else w.enterWait wrap faults address fd event timeout continuation result

/-- No other entry is due earlier. -/
def isEarliest (timers : List TimerEntry) (timer : TimerEntry) : Bool :=
  timers.all (fun other => timer.deadline ≤ other.deadline)

/-- Where the heap has its top, if that is one of the earliest entries. -/
abbrev Pick := List TimerEntry → Nat

/-- The index of `timers_.top()`. Which of several earliest entries it is, is up to the heap. -/
def topIndex (pick : Pick) (timers : List TimerEntry) : Nat :=
  if (timers[pick timers]?).any (isEarliest timers) then pick timers else timers.findIdx
  (isEarliest timers)

/-- What `next_poll_timeout` returns once the stale entries on top are popped. -/
def pollTimeout (now : Int) : Option TimerEntry → Int
  | none => -1
  | some timer =>
    if timer.deadline ≤ now then 0
    else
      let remaining := timer.deadline - now
      let milliseconds := remaining / 1000000
      let milliseconds :=
        if milliseconds * 1000000 < remaining then milliseconds + 1 else milliseconds
      if milliseconds > 2147483647 then 2147483647 else milliseconds

/-- `next_poll_timeout` at a reading of the clock, with the timers it leaves. -/
def nextPollTimeout (w : World) (now : Int) (pick : Pick) : World × Int :=
  let timers := prune w.timerActive (topIndex pick) w.timers.length w.timers
  ({ w with timers }, pollTimeout now timers[topIndex pick timers]?)

def hasRegisteredWaiter (w : World) : Bool :=
  decide (∃ fd ∈ w.fdStates.keys, (w.fdStates.lookup fd).any (fun st => st.registered) = true)

end World

end Tinycoro.Io
