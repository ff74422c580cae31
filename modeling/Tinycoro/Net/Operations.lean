import Tinycoro.Io.Run
import Tinycoro.Net.TcpStream

/-! The coroutines `TcpStream::read_some`, `TcpStream::write_all` and
`TcpListener::accept` on the executor. Of the data only the counts are kept. One step
is a system call, a reading of the clock, the arming of a wait or what is behind the
`co_await`; the clock and the kernel may move in between. The coroutines that call
them, and all others, may do whatever the executor allows, but waits are cancelled by
`close` only. -/
namespace Tinycoro.Net.Operations

open Io Transition

/-- What an operation leaves with: a result, the stream or `nullptr` that `accept`
returns, an exception of its own code, or one that comes out of the `co_await`. -/
inductive Outcome where
  | io (result : IoResult)
  | connection (fd : Option Nat)
  | threw (e : StdError)
  | refused (e : Exception)
  deriving DecidableEq

/-- What can fail besides the system calls: the room in the buffer cannot be had or is
gone, or `TcpStream::adopt` finds no memory. -/
inductive Failure where
  | capacity
  | room
  | memory
  deriving DecidableEq

def Failure.error : Failure → StdError
  | .capacity => .lengthError "Buffer capacity overflow"
  | .room => .outOfRange "Buffer::has_written"
  | .memory => .badAlloc

/-- Where the coroutine stands: in front of its system call, of
`deadline.remaining()`, of the `co_await` with its timeout, suspended in an awaiter for
a descriptor, or at its end. -/
inductive Pc where
  | trying (written : Nat)
  | asking (written : Nat)
  | arming (written : Nat) (timeout : Duration)
  | waiting (written : Nat) (fd : Int)
  | ended (outcome : Outcome)
  deriving DecidableEq

/-- The code of an operation between its suspensions, and the direction it waits for.
`begin` and `resume` read `fd_`. -/
structure Body where
  event : Io.Event
  begin : (fd : Int) → (failure : Option Failure) → Pc
  attempt : (written : Nat) → (answer : Transfer) → (failure : Option Failure) → Option Pc
  resume : (written : Nat) → (ready : Bool) → (fd : Int) → Pc

def readSome (maxBytes : Nat) : Body where
  event := .read
  begin fd failure :=
    if fd < 0 then .ended (.io ⟨.closed, 0, EBADF⟩)
    else if maxBytes = 0 then .ended (.io ⟨.ok, 0, 0⟩)
    else match failure with
      | some failure => .ended (.threw failure.error)
      | none => .trying 0
  attempt written answer failure :=
    match answer with
    | .count n =>
      if n > maxBytes then none
      else if n > 0 then
        match failure with
        | some failure => some (.ended (.threw failure.error))
        | none => some (.ended (.io ⟨.ok, n, 0⟩))
      else some (.ended (.io ⟨.eof, 0, 0⟩))
    | .failed errno =>
      if errno = EINTR then some (.trying written)
      else if errno ≠ EAGAIN ∧ errno ≠ EWOULDBLOCK then some (.ended (.io ⟨.error, 0, errno⟩))
      else some (.asking written)
  resume written ready fd :=
    if !ready then
      if fd < 0 then .ended (.io ⟨.closed, 0, EBADF⟩) else .ended (.io ⟨.timeout, 0, 0⟩)
    else if fd < 0 then .ended (.io ⟨.closed, 0, EBADF⟩)
    else .trying written

def writeAll (size : Nat) : Body where
  event := .write
  begin fd _ := if fd < 0 then .ended (.io ⟨.closed, 0, EBADF⟩) else .trying 0
  attempt written answer _ :=
    if written < size then
      match answer with
      | .count n =>
        if n > size - written then none
        else if n > 0 then some (.trying (written + n))
        else some (.asking written)
      | .failed errno =>
        if errno = EINTR then some (.trying written)
        else if errno ≠ EAGAIN ∧ errno ≠ EWOULDBLOCK then some
          (.ended (.io ⟨.error, written, errno⟩))
        else some (.asking written)
    else some (.ended (.io ⟨.ok, written, 0⟩))
  resume written ready fd :=
    if !ready then
      if fd < 0 then .ended (.io ⟨.closed, written, EBADF⟩) else .ended (.io ⟨.timeout, written, 0⟩)
    else if fd < 0 then .ended (.io ⟨.closed, written, EBADF⟩)
    else .trying written

def closedWhileAwaiting : StdError := .logicError "TcpListener was closed while awaiting accept"

def accept : Body where
  event := .read
  begin fd _ := if fd < 0 then .ended (.threw (.logicError "TcpListener is closed")) else .trying 0
  attempt written answer failure :=
    match answer with
    | .count n =>
      match failure with
      | some failure => some (.ended (.threw failure.error))
      | none => some (.ended (.connection (some n)))
    | .failed errno =>
      if errno = EINTR ∨ errno = ECONNABORTED then some (.trying written)
      else if errno ≠ EAGAIN ∧ errno ≠ EWOULDBLOCK then some
        (.ended (.threw (.systemError errno "accept4")))
      else some (.asking written)
  resume written ready fd :=
    if !ready then
      if fd < 0 then .ended (.threw closedWhileAwaiting) else .ended (.connection none)
    else if fd < 0 then .ended (.threw closedWhileAwaiting)
    else .trying written

inductive Request where
  | readSome (maxBytes : Nat)
  | writeAll (size : Nat)
  | accept
  deriving DecidableEq

def Request.body : Request → Body
  | .readSome maxBytes => Operations.readSome maxBytes
  | .writeAll size => Operations.writeAll size
  | .accept => Operations.accept

/-- A call: the stream or listener, what is asked, and the clock when the body makes
its `Deadline`. -/
structure Call where
  socket : Nat
  request : Request
  timeout : Duration
  start : Int
  deriving DecidableEq

def Call.deadline (call : Call) : Deadline := .create call.timeout call.start

structure Operation where
  call : Call
  pc : Pc
  deriving DecidableEq

/-- The executor, `fd_` of every stream and listener, and the operations by the frames
they run in. -/
structure State where
  world : World
  sockets : List Int
  operations : Nat → Option Operation

/-- `ended` tells whether the operation was just resumed and what the clock says. -/
inductive Event where
  | io (o : Obs)
  | opened (socket : Nat)
  | closed (socket : Nat)
  | closeThrew (socket : Nat)
  | began (h : Nat) (call : Call)
  | tried (h : Nat) (call : Call) (answer : Transfer)
  | continued (h : Nat) (call : Call)
  | ended (h : Nat) (call : Call) (resumed : Bool) (outcome : Outcome) (now : Int)
  deriving DecidableEq

inductive Label where
  /-- anything but an operation or `close` -/
  | io (label : Io.Label)
  /-- a stream or listener is made for an open descriptor -/
  | opens (fd : Int)
  | close (socket : Nat) (faults : Faults)
  | begin (socket : Nat) (request : Request) (timeout : Duration) (failure : Option Failure)
  | attempt (answer : Transfer) (failure : Option Failure)
  | ask
  | arm (address : Nat) (faults : Faults)
  | resume
  /-- the coroutine ends; its exception, if any, gets this number -/
  | leave (exception : Nat)

namespace State

def create : State := ⟨.create, [], fun _ => none⟩

/-- The operation whose coroutine has the thread. -/
def active (s : State) : Option (Nat × Operation) :=
  match s.world.control with
  | .running h _ => (s.operations h).map (fun op => (h, op))
  | _ => none

/-- Kernel, clock and executor move by themselves. Other code runs only while no
operation has the thread. -/
def allows (s : State) : Io.Label → Bool
  | .change .. | .close .. | .tick .. | .advance .. => true
  | .cancel .. => false
  | _ => s.active.isNone

/-- The operation in frame `h` has come to `pc`. -/
def goto (s : State) (h : Nat) (call : Call) (resumed : Bool) (pc : Pc) : State × List Event :=
  ({ s with operations := Function.update s.operations h (some ⟨call, pc⟩) },
    match pc with
    | .ended outcome => [.ended h call resumed outcome s.world.now]
    | _ => if resumed then [.continued h call] else [])

/-- `TcpStream::close` and `TcpListener::close`. Where `cancel` throws, `fd_` keeps its
value. -/
def close (wrap : Nat → Nat) (s : State) (socket : Nat) (faults : Faults) :
    Option (State × List Event) := do
  let fd ← s.sockets[socket]?
  if fd < 0 then return (s, [])
  else
    let (w, events) ← s.world.next (.tokens wrap) (.cancel fd faults)
    if (s.world.cancel faults fd).error.isSome then
      return ({ s with world := w }, events.map .io ++ [.closeThrew socket])
    else
      let (w, later) ← w.next (.tokens wrap) (.close fd)
      return (⟨w, s.sockets.set socket (-1), s.operations⟩,
        events.map .io ++ later.map .io ++ [.closed socket])

def begin (s : State) (socket : Nat) (request : Request) (timeout : Duration)
    (failure : Option Failure) : Option (State × List Event) :=
  match s.world.control with
  | .running h _ => do
    let fd ← s.sockets[socket]?
    if s.operations h = none then
      let call := ⟨socket, request, timeout, s.world.now⟩
      let (s, events) := s.goto h call false (request.body.begin fd failure)
      return (s, .began h call :: events)
    else none
  | _ => none

/-- The awaiter is made with the `fd_` of now, and `arm_wait` reads the clock again. -/
def arm (wrap : Nat → Nat) (s : State) (h : Nat) (call : Call) (written : Nat) (timeout : Duration)
    (address : Nat) (faults : Faults) : Option (State × List Event) := do
  let fd ← s.sockets[call.socket]?
  let (w, events) ← s.world.next (.tokens wrap) (.wait fd call.request.body.event timeout address
    faults)
  let pc := match (s.world.armWait (.tokens wrap) faults address fd call.request.body.event timeout
    (some h) (some h)).error with
    | none => .waiting written fd
    | some e => .ended (.refused e)
  let (s, later) := { s with world := w }.goto h call false pc
  return (s, events.map .io ++ later)

/-- Behind the `co_await`. -/
def resume (s : State) (h : Nat) (call : Call) (written : Nat) : Option (State × List Event) := do
  let fd ← s.sockets[call.socket]?
  let frame ← s.world.frames h
  return s.goto h call true (call.request.body.resume written frame.ready fd)

def leave (wrap : Nat → Nat) (s : State) (h : Nat) (outcome : Outcome) (exception : Nat) :
    Option (State × List Event) := do
  let thrown := match outcome with
    | .threw _ | .refused _ => some exception
    | _ => none
  let (w, events) ← s.world.next (.tokens wrap) (.finish thrown)
  return (⟨w, s.sockets, Function.update s.operations h none⟩, events.map .io)

/-- What an operation does next. -/
def step (wrap : Nat → Nat) (s : State) (h : Nat) (op : Operation) :
    Label → Option (State × List Event)
  | .attempt answer failure =>
    match op.pc with
    | .trying written => do
      let pc ← op.call.request.body.attempt written answer failure
      let (s, events) := s.goto h op.call false pc
      return (s, .tried h op.call answer :: events)
    | _ => none
  | .ask =>
    match op.pc with
    | .asking written =>
        some (s.goto h op.call false (.arming written (op.call.deadline.remaining s.world.now)))
    | _ => none
  | .arm address faults =>
    match op.pc with
    | .arming written timeout => s.arm wrap h op.call written timeout address faults
    | _ => none
  | .resume =>
    match op.pc with
    | .waiting written _ => s.resume h op.call written
    | _ => none
  | .leave exception =>
    match op.pc with
    | .ended outcome => s.leave wrap h outcome exception
    | _ => none
  | _ => none

def next (wrap : Nat → Nat) (s : State) : Label → Option (State × List Event)
  | .io label =>
    if s.allows label then
      (s.world.next (.tokens wrap) label).map (fun r => ({ s with world := r.1 }, r.2.map .io))
    else none
  | .opens fd =>
    -- a descriptor has one owner
    if 0 ≤ fd ∧ fd ∉ s.sockets then some ({ s with sockets := s.sockets ++ [fd] },
      [.opened s.sockets.length])
    else none
  | .close socket faults => if s.active.isNone then s.close wrap socket faults else none
  | .begin socket request timeout failure => s.begin socket request timeout failure
  | label => do
    let (h, op) ← s.active
    s.step wrap h op label

end State

def machine (wrap : Nat → Nat) : Machine State Label Event where
  start := .create
  next := State.next wrap

/-- Everything that can happen next. -/
inductive Step (wrap : Nat → Nat) (s : State) : State → List Event → Prop where
  | io {label : Io.Label} {w : World} {events : List Obs} (hAllows : s.allows label = true)
      (hNext : s.world.next (.tokens wrap) label = some (w, events)) :
      Step wrap s { s with world := w } (events.map .io)
  | opens {fd : Int} (hFd : 0 ≤ fd) (hNew : fd ∉ s.sockets) :
      Step wrap s { s with sockets := s.sockets ++ [fd] } [.opened s.sockets.length]
  | closedBefore : Step wrap s s []
  | closeThrew {socket : Nat} {fd : Int} {faults : Faults} {w : World} {events : List Obs}
      (hActive : s.active = none) (hFd : s.sockets[socket]? = some fd) (hOpen : 0 ≤ fd)
      (hNext : s.world.next (.tokens wrap) (.cancel fd faults) = some (w, events)) :
      Step wrap s { s with world := w } (events.map .io ++ [.closeThrew socket])
  | closed {socket : Nat} {fd : Int} {faults : Faults} {w w' : World} {events later : List Obs}
      (hActive : s.active = none) (hFd : s.sockets[socket]? = some fd) (hOpen : 0 ≤ fd)
      (hNext : s.world.next (.tokens wrap) (.cancel fd faults) = some (w, events))
      (hOk : (s.world.cancel faults fd).error = none)
      (hClose : w.next (.tokens wrap) (.close fd) = some (w', later)) :
      Step wrap s ⟨w', s.sockets.set socket (-1), s.operations⟩
        (events.map .io ++ later.map .io ++ [.closed socket])
  | begin {h left socket : Nat} {fd : Int} {request : Request} {timeout : Duration}
      {failure : Option Failure} (hControl : s.world.control = .running h left)
      (hFree : s.operations h = none) (hFd : s.sockets[socket]? = some fd) :
      Step wrap s (s.goto h ⟨socket, request, timeout, s.world.now⟩ false
        (request.body.begin fd failure)).1 (.began h ⟨socket, request, timeout, s.world.now⟩ ::
          (s.goto h ⟨socket, request, timeout, s.world.now⟩ false
          (request.body.begin fd failure)).2)
  | attempt {h left written : Nat} {call : Call} {answer : Transfer} {failure : Option Failure}
      {pc : Pc} (hControl : s.world.control = .running h left)
      (hOp : s.operations h = some ⟨call, .trying written⟩)
      (hAttempt : call.request.body.attempt written answer failure = some pc) :
      Step wrap s (s.goto h call false pc).1 (.tried h call answer :: (s.goto h call false pc).2)
  | ask {h left written : Nat} {call : Call} (hControl : s.world.control = .running h left)
      (hOp : s.operations h = some ⟨call, .asking written⟩) :
      Step wrap s (s.goto h call false (.arming written (call.deadline.remaining s.world.now))).1 []
  | arm {h left written address : Nat} {call : Call} {timeout : Duration} {fd : Int}
      {faults : Faults} {w : World} {events : List Obs}
      (hControl : s.world.control = .running h left)
      (hOp : s.operations h = some ⟨call, .arming written timeout⟩)
      (hFd : s.sockets[call.socket]? = some fd)
      (hNext : s.world.next (.tokens wrap)
        (.wait fd call.request.body.event timeout address faults) = some (w, events))
      (hOk : (s.world.armWait (.tokens wrap) faults address fd call.request.body.event timeout
        (some h) (some h)).error = none) :
      Step wrap s ({ s with world := w }.goto h call false (.waiting written fd)).1 (events.map .io)
  | refused {h left written address : Nat} {call : Call} {timeout : Duration} {fd : Int}
      {faults : Faults} {w : World} {events : List Obs} {e : Exception}
      (hControl : s.world.control = .running h left)
      (hOp : s.operations h = some ⟨call, .arming written timeout⟩)
      (hNext : s.world.next (.tokens wrap)
        (.wait fd call.request.body.event timeout address faults) = some (w, events))
      (hError : (s.world.armWait (.tokens wrap) faults address fd call.request.body.event timeout
        (some h) (some h)).error = some e) :
      Step wrap s ({ s with world := w }.goto h call false (.ended (.refused e))).1
        (events.map .io ++ ({ s with world := w }.goto h call false (.ended (.refused e))).2)
  | resume {h left written : Nat} {call : Call} {target fd : Int} {frame : Frame}
      (hControl : s.world.control = .running h left)
      (hOp : s.operations h = some ⟨call, .waiting written target⟩)
      (hFd : s.sockets[call.socket]? = some fd) (hFrame : s.world.frames h = some frame) :
      Step wrap s (s.goto h call true (call.request.body.resume written frame.ready fd)).1
        (s.goto h call true (call.request.body.resume written frame.ready fd)).2
  | leave {h left : Nat} {call : Call} {outcome : Outcome} {exception : Option Nat} {w : World}
      {events : List Obs} (hControl : s.world.control = .running h left)
      (hOp : s.operations h = some ⟨call, .ended outcome⟩)
      (hNext : s.world.next (.tokens wrap) (.finish exception) = some (w, events)) :
      Step wrap s ⟨w, s.sockets, Function.update s.operations h none⟩ (events.map .io)

theorem goto_operations (s : State) (h : Nat) (call : Call) (resumed : Bool) (pc : Pc) :
    (s.goto h call resumed pc).1.operations = Function.update s.operations h (some ⟨call, pc⟩) :=
  rfl

section Inversion

variable {wrap : Nat → Nat} {s s' : State} {events : List Event}

variable {h : Nat}

theorem active_eq_some {op : Operation} :
    s.active = some (h, op) ↔ (∃ left, s.world.control = .running h left) ∧
    s.operations h = some op := by
  unfold State.active
  cases hControl : s.world.control with
  | running c left =>
    simp only [Option.map_eq_some_iff, Prod.mk.injEq]
    constructor
    · rintro ⟨op, hOp, rfl, rfl⟩
      exact ⟨⟨left, rfl⟩, hOp⟩
    · rintro ⟨⟨left', hEq⟩, hOp⟩
      cases hEq
      exact ⟨op, hOp, rfl, rfl⟩
  | _ =>
    constructor
    · exact nofun
    · rintro ⟨⟨left, hEq⟩, -⟩
      cases hEq

theorem step_of_close {socket : Nat} {faults : Faults} (hActive : s.active = none)
    (h : s.close wrap socket faults = some (s', events)) : Step wrap s s' events := by
  simp only [State.close, Option.bind_eq_bind, Option.bind_eq_some_iff] at h
  obtain ⟨fd, hFd, h⟩ := h
  split_ifs at h with hClosed hError
  · cases h
    exact .closedBefore
  · obtain ⟨⟨w, first⟩, hNext, hEq⟩ := Option.bind_eq_some_iff.mp h
    cases hEq
    exact .closeThrew hActive hFd (Int.not_lt.mp hClosed) hNext
  · obtain ⟨⟨w, first⟩, hNext, h⟩ := Option.bind_eq_some_iff.mp h
    obtain ⟨⟨w', later⟩, hClose, hEq⟩ := Option.bind_eq_some_iff.mp h
    cases hEq
    exact .closed hActive hFd (Int.not_lt.mp hClosed) hNext
      (Option.not_isSome_iff_eq_none.mp hError) hClose

theorem step_of_begin {socket : Nat} {request : Request} {timeout : Duration}
    {failure : Option Failure} (h : s.begin socket request timeout failure = some (s', events)) :
    Step wrap s s' events := by
  unfold State.begin at h
  split at h
  · rename_i c left hControl
    simp only [Option.bind_eq_bind, Option.bind_eq_some_iff] at h
    obtain ⟨fd, hFd, h⟩ := h
    split_ifs at h with hFree
    cases h
    exact .begin hControl hFree hFd
  · cases h

theorem step_of_arm {left written address : Nat} {call : Call} {timeout : Duration}
    {faults : Faults} (hControl : s.world.control = .running h left)
    (hOp : s.operations h = some ⟨call, .arming written timeout⟩)
    (hArm : s.arm wrap h call written timeout address faults = some (s', events)) :
    Step wrap s s' events := by
  simp only [State.arm, Option.bind_eq_bind, Option.bind_eq_some_iff] at hArm
  obtain ⟨fd, hFd, ⟨w, first⟩, hNext, hEq⟩ := hArm
  cases hError : (s.world.armWait (.tokens wrap) faults address fd call.request.body.event timeout
    (some h) (some h)).error with
  | none =>
    simp only [hError] at hEq
    cases hEq
    simpa [State.goto] using Step.arm hControl hOp hFd hNext hError
  | some e =>
    simp only [hError] at hEq
    cases hEq
    exact .refused hControl hOp hNext hError

/-- What the operation on the thread does next. -/
theorem step_of_active {left : Nat} {op : Operation} {label : Label}
    (hControl : s.world.control = .running h left) (hOp : s.operations h = some op)
    (hStep : s.step wrap h op label = some (s', events)) : Step wrap s s' events := by
  obtain ⟨call, pc⟩ := op
  cases label with
  | attempt =>
    cases pc with
    | trying =>
      simp only [State.step, Option.bind_eq_bind, Option.bind_eq_some_iff] at hStep
      obtain ⟨pc, hAttempt, hEq⟩ := hStep
      cases hEq
      exact .attempt hControl hOp hAttempt
    | _ => cases hStep
  | ask =>
    cases pc with
    | asking =>
      cases hStep
      exact .ask hControl hOp
    | _ => cases hStep
  | arm =>
    cases pc with
    | arming => exact step_of_arm hControl hOp hStep
    | _ => cases hStep
  | resume =>
    cases pc with
    | waiting =>
      simp only [State.step, State.resume, Option.bind_eq_bind, Option.bind_eq_some_iff] at hStep
      obtain ⟨fd, hFd, frame, hFrame, hEq⟩ := hStep
      cases hEq
      exact .resume hControl hOp hFd hFrame
    | _ => cases hStep
  | leave =>
    cases pc with
    | ended =>
      simp only [State.step, State.leave, Option.bind_eq_bind, Option.bind_eq_some_iff] at hStep
      obtain ⟨⟨w, events⟩, hNext, hEq⟩ := hStep
      cases hEq
      exact .leave hControl hOp hNext
    | _ => cases hStep
  | _ => cases hStep

theorem step_of_next {label : Label} (h : s.next wrap label = some (s', events)) :
    Step wrap s s' events := by
  have hOwn (hStep : (s.active.bind fun active => s.step wrap active.1 active.2 label) =
      some (s', events)) : Step wrap s s' events := by
    obtain ⟨⟨c, op⟩, hActive, hStep⟩ := Option.bind_eq_some_iff.mp hStep
    obtain ⟨⟨left, hControl⟩, hOp⟩ := active_eq_some.mp hActive
    exact step_of_active hControl hOp hStep
  cases label with
  | io =>
    simp only [State.next] at h
    split_ifs at h with hAllows
    obtain ⟨⟨w, events⟩, hNext, hEq⟩ := Option.map_eq_some_iff.mp h
    cases hEq
    exact .io hAllows hNext
  | opens =>
    simp only [State.next] at h
    split_ifs at h with hFd
    cases h
    exact .opens hFd.1 hFd.2
  | close =>
    simp only [State.next] at h
    split_ifs at h with hActive
    exact step_of_close (Option.isNone_iff_eq_none.mp hActive) h
  | begin => exact step_of_begin h
  | _ => exact hOwn h

end Inversion

/-- The steps of the executor in a trace. -/
def ios (trace : List Event) : List Obs :=
  trace.filterMap fun
    | .io o => some o
    | _ => none

theorem ios_append (trace events : List Event) : ios (trace ++ events) = ios trace ++ ios events :=
  List.filterMap_append

@[simp] theorem ios_map (events : List Obs) : ios (events.map .io) = events := by
  rw [ios, List.filterMap_map]
  exact List.filterMap_some

theorem ios_began (h : Nat) (call : Call) (events : List Event) :
    ios (.began h call :: events) = ios events := rfl

theorem ios_tried (h : Nat) (call : Call) (answer : Transfer) (events : List Event) :
    ios (.tried h call answer :: events) = ios events := rfl

theorem ios_goto (s : State) (h : Nat) (call : Call) (resumed : Bool) (pc : Pc) :
    ios (s.goto h call resumed pc).2 = [] := by
  unfold State.goto
  cases pc with
  | ended => rfl
  | _ => cases resumed <;> rfl

variable {wrap : Nat → Nat}

theorem world_next {w w' : World} {past events : List Obs} {label : Io.Label}
    (hReaches : (Io.machine (.tokens wrap)).Reaches w past)
    (hNext : w.next (.tokens wrap) label = some (w', events)) :
    (Io.machine (.tokens wrap)).Reaches w' (past ++ events) := hReaches.step (a := label) hNext

/-- The executor under the operations runs as it does alone. -/
theorem world_of_step {s s' : State} {events : List Event} {past : List Obs}
    (hReaches : (Io.machine (.tokens wrap)).Reaches s.world past) (h : Step wrap s s' events) :
    (Io.machine (.tokens wrap)).Reaches s'.world (past ++ ios events) := by
  cases h with
  | io hAllows hNext | arm hControl hOp hFd hNext | leave hControl hOp hNext =>
    rw [ios_map]
    exact world_next hReaches hNext
  | @closeThrew socket fd faults w events hActive hFd hOpen hNext =>
    rw [ios_append, ios_map, show ios [Event.closeThrew socket] = [] from rfl, List.append_nil]
    exact world_next hReaches hNext
  | closed hActive hFd hOpen hNext hOk hClose =>
    rw [ios_append, ios_append, ios_map, ios_map, show ios [Event.closed _] = [] from rfl,
      List.append_nil, ← List.append_assoc]
    exact world_next (world_next hReaches hNext) hClose
  | begin =>
    rw [ios_began, ios_goto, List.append_nil]
    exact hReaches
  | attempt =>
    rw [ios_tried, ios_goto, List.append_nil]
    exact hReaches
  | refused hControl hOp hNext =>
    rw [ios_append, ios_map, ios_goto, List.append_nil]
    exact world_next hReaches hNext
  | resume =>
    rw [ios_goto, List.append_nil]
    exact hReaches
  | _ =>
    rw [show ios _ = [] from rfl, List.append_nil]
    exact hReaches

theorem world_of_reaches {s : State} {trace : List Event} (h : (machine wrap).Reaches s trace) :
    (Io.machine (.tokens wrap)).Reaches s.world (ios trace) := by
  apply h.invariant (P := fun s trace => (Io.machine (.tokens wrap)).Reaches s.world (ios trace))
  · exact .start
  · intro s s' trace events label _ ih hNext
    rw [ios_append]
    exact world_of_step ih (step_of_next hNext)

end Tinycoro.Net.Operations
