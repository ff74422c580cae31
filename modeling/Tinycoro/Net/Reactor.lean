import Tinycoro.Net.Locality
import Tinycoro.Net.TcpServer

/-! An event loop with a callback server. The loop takes a batch of events from the kernel
and looks up the channel of each when its turn comes; a channel is a pointer, an address
that is used again once its connection is gone. User code runs in the callbacks, at the
end of what a connection or the server does, and may call any connection, poll the event
loop again or throw. It is let run between any two callbacks of a batch, which is more
often than it does run. -/
namespace Tinycoro.Net

open Effect Transition

/-- What `dispatch_events` is at: between callbacks, in the loop of `handle_accept`, or in
the connection callback for the connection at an address. -/
inductive Stage where
  | idle
  | accepting
  | announcing (id : Nat)
  deriving DecidableEq

/-- A call of `dispatch_events`: the events it has not looked at, and the event whose
channel was found and is to be looked up again before `on_write`. -/
structure Frame where
  batch : List (Int × Io.EpollEvents)
  channel : Option (Int × Nat × Io.EpollEvents)
  stage : Stage

/-- `listen` is the accept channel. A call of `handle_read` or `handle_write` that is in its
loop is `active`. The numbers tell the connections apart that an address has had; the
program has none. -/
structure Reactor where
  server : TcpServer
  listen : Io.Channel
  started : Bool
  frames : List Frame
  active : Option Nat
  number : Nat → Nat
  count : Nat

/-- `closeCallback` is a call of the close callback that the user has set in the server.
`unannounced` stands where the connection callback would have been called, had there been
one. `called` is a call of `on_read` or `on_write`, with whether the channel was registered,
and `dangling` a look at a channel that is not there any more. -/
inductive ReactorEvent where
  | opened (fd : Int)
  | released (fd : Int)
  | makeSharedFailed (fd : Int)
  | connected (number : Nat)
  | unannounced (number : Nat)
  | connection (number : Nat) (e : ConnEvent)
  | closeCallback (number : Nat)
  | destroyed (number : Nat)
  | called (address : Nat) (direction : Io.Event) (registered : Bool)
  | dangling (address : Nat)
  | threw (e : Thrown)
  deriving DecidableEq

/-- The steps of `dispatch_events` and of the functions it calls, with the answers of the
kernel, and what user code does. -/
inductive ReactorAction where
  | poll (timeout : Int) (fds : List Int)
  | pollFailed (errno : Nat)
  | kernel (fd : Int) (holding : Io.EpollEvents) (wake : Bool)
  | dispatchRead
  | dispatchWrite
  | leave
  | turn (a : ConnAction)
  | accept (fd : Int) (address : Nat) (fault : Option AcceptFault)
  | acceptFailed (errno : Nat)
  | callbackReturned
  | userThrew
  | connection (id : Nat) (a : ConnAction)
  | drop (id : Nat)
  | start (fails : Bool)
  | setMessageCallback (set : Bool)
  | setConnectionCallback (set : Bool)
  | setCloseCallback (set : Bool)

/-- A turn of one of the connection's loops. -/
def ConnAction.isTurn : ConnAction → Bool
  | .recv _ _ | .drain _ _ => true
  | _ => false

/-- A call of user code. -/
def ConnAction.isCall : ConnAction → Bool
  | .start _ | .send _ _ _ _ | .close | .setMessageCallback _ | .setCloseCallback _
  | .useBuffer _ => true
  | _ => false

namespace Reactor

/-- No callback of a channel is running but for user code in it. -/
def inUser (s : Reactor) : Bool :=
  s.active.isNone && match s.frames with
    | ⟨_, _, .accepting⟩ :: _ => false
    | _ => true

/-- The events of the server, with the number of the connection for its address. -/
def translate (s : Reactor) : ServerEvent → List ReactorEvent
  | .opened fd => [.opened fd]
  | .released fd => [.released fd]
  | .connected id => [.connected (s.number id)]
  | .unlinked _ | .kept _ => []
  | .connection id e =>
    .connection (s.number id) e ::
      if e = .closed .server ∧ s.server.closeCallback then [.closeCallback (s.number id)] else []
  | .threw e => [.threw e]

/-- The server goes on from what a call has left. -/
def absorb (s : Reactor) (o : ServerOutcome) : Reactor × List ReactorEvent :=
  ({ s with server := o.state }, (TcpServer.report o).2.flatMap s.translate)

/-- What a direction calls. -/
def handler : Io.Event → ConnAction
  | .read => .handleRead
  | .write => .handleWrite

/-- Call `on_read` or `on_write` of a connection's channel. -/
def enter (s : Reactor) (address : Nat) (direction : Io.Event) : Reactor × List ReactorEvent :=
  match s.server.objects address with
  | none => (s, [.dangling address])
  | some object =>
    ({ s with
        server := (s.server.act address (·.perform (handler direction)) none).state
        active := some address },
      [.called address direction (Conn.mk object.connection s.server.loop object.pc).Registered])

/-- The first half of an iteration of `dispatch_events`. -/
def dispatchRead (s : Reactor) (fd : Int) (flags : Io.EpollEvents)
    (batch : List (Int × Io.EpollEvents)) (frames : List Frame) : Reactor × List ReactorEvent :=
  match s.server.loop.channels fd with
  | none => ({ s with frames := ⟨batch, none, .idle⟩ :: frames }, [])
  | some address =>
    if Io.EventLoop.selects flags .read then
      if address = s.listen.address then
        ({ s with frames := ⟨batch, some (fd, address, flags), .accepting⟩ :: frames },
          [.called address .read (s.server.loop.channels s.listen.fd = some s.listen.address)])
      else { s with frames := ⟨batch, some (fd, address, flags), .idle⟩ :: frames }.enter address
        .read
    else ({ s with frames := ⟨batch, some (fd, address, flags), .idle⟩ :: frames }, [])

/-- The second half. The accept channel has no `on_write`. -/
def dispatchWrite (s : Reactor) (fd : Int) (address : Nat) (flags : Io.EpollEvents)
    (batch : List (Int × Io.EpollEvents)) (frames : List Frame) : Reactor × List ReactorEvent :=
  let s := { s with frames := ⟨batch, none, .idle⟩ :: frames }
  if s.server.loop.channels fd = some address ∧ Io.EventLoop.selects flags .write ∧
    address ≠ s.listen.address then s.enter address .write
  else (s, [])

/-- A turn of the loop in the active connection. An exception leaves `dispatch_events`. -/
def turn (s : Reactor) (id : Nat) (a : ConnAction) : Reactor × List ReactorEvent :=
  let o := s.server.act id (·.perform a) none
  let (s, events) := s.absorb o
  ({ s with
      active := if (o.state.objects id).any (·.pc ≠ .idle) then some id else none
      frames := if o.error.isSome then s.frames.tail else s.frames },
    events)

/-- One iteration of `handle_accept` with a descriptor, for a connection whose channel is
at `address`. An exception leaves `dispatch_events`. -/
def accept (s : Reactor) (fd : Int) (address : Nat) (fault : Option AcceptFault)
    (batch : List (Int × Io.EpollEvents)) (channel : Option (Int × Nat × Io.EpollEvents))
    (frames : List Frame) : Reactor × List ReactorEvent :=
  let s := { s with number := Function.update s.number address s.count, count := s.count + 1 }
  let o := { s.server with fresh := address }.handleAccept fd fault none
  let announced := s.server.connectionCallback
  let (s, events) := s.absorb o
  if o.error.isSome then
    ({ s with frames }, events ++ if fault = some .makeShared then [.makeSharedFailed fd] else [])
  else if announced then
    ({ s with frames := ⟨batch, channel, .announcing address⟩ :: frames }, events)
  else
    ({ s with frames := ⟨batch, channel, .accepting⟩ :: frames },
    events ++ [.unannounced (s.number address)])

/-- An exception of user code leaves `dispatch_events`, from the connection callback
through the handler in `handle_accept`. -/
def userThrew (s : Reactor) (stage : Stage) (frames : List Frame) : Reactor × List ReactorEvent :=
  match stage with
  | .announcing id =>
    { s with frames }.absorb
      ({ s.server with accepting := s.server.accepting.erase id }.act id Conn.close none)
  | _ => ({ s with frames }, [])

/-- `TcpServer::start` -/
def start (s : Reactor) (fails : Bool) : Reactor × List ReactorEvent :=
  if s.started then (s, [.threw (.std (.logicError "TcpServer already started"))])
  else match s.server.loop.addChannel fails s.listen with
    | .error e => (s, [.threw (.loop e)])
    | .ok loop => ({ s with server.loop := loop, started := true }, [])

def next (s : Reactor) : ReactorAction → Option (Reactor × List ReactorEvent)
  | .poll timeout fds =>
    if s.inUser then
      (s.server.loop.kernel.epollWait timeout Io.EventLoop.kMaxEvents fds).map fun r =>
        ({ s with server.loop.kernel := r.1, frames := ⟨r.2, none, .idle⟩ :: s.frames }, [])
    else none
  | .pollFailed errno =>
    if s.inUser then
      some (s, if errno = EINTR then [] else [.threw (.loop (.systemError "epoll_wait"))])
    else none
  | .kernel fd holding wake =>
    some ({ s with server.loop.kernel := s.server.loop.kernel.change fd holding wake }, [])
  | .dispatchRead =>
    match s.active, s.frames with
    | none, ⟨(fd, flags) :: batch, none, .idle⟩ :: frames =>
        some (s.dispatchRead fd flags batch frames)
    | _, _ => none
  | .dispatchWrite =>
    match s.active, s.frames with
    | none, ⟨batch, some (fd, address, flags), .idle⟩ :: frames =>
      some (s.dispatchWrite fd address flags batch frames)
    | _, _ => none
  | .leave =>
    match s.active, s.frames with
    | none, ⟨[], none, .idle⟩ :: frames => some ({ s with frames }, [])
    | _, _ => none
  | .turn a =>
    match s.active with
    | none => none
    | some id =>
      match s.server.objects id with
      | none => none
      | some object =>
        if a.isTurn ∧ (Conn.mk object.connection s.server.loop object.pc).Enabled a then some
          (s.turn id a)
        else none
  | .accept fd address fault =>
    match s.active, s.frames with
    | none, ⟨batch, channel, .accepting⟩ :: frames =>
      if 0 ≤ fd ∧ s.server.descriptors fd = false ∧ (s.server.objects address).isNone ∧
          address ≠ s.listen.address then
        some (s.accept fd address fault batch channel frames)
      else none
    | _, _ => none
  | .acceptFailed errno =>
    match s.active, s.frames with
    | none, ⟨batch, channel, .accepting⟩ :: frames =>
      if errno = EINTR ∨ errno = ECONNABORTED then some (s, [])
      else some ({ s with frames := ⟨batch, channel, .idle⟩ :: frames }, [])
    | _, _ => none
  | .callbackReturned =>
    match s.active, s.frames with
    | none, ⟨batch, channel, .announcing id⟩ :: frames =>
      some ({ s with
        server.accepting := s.server.accepting.erase id
        frames := ⟨batch, channel, .accepting⟩ :: frames }, [])
    | _, _ => none
  | .userThrew =>
    if s.inUser then
      match s.frames with
      | ⟨_, _, stage⟩ :: frames => some (s.userThrew stage frames)
      | [] => none
    else none
  | .connection id a =>
    match s.server.objects id with
    | none => none
    | some object =>
      if s.inUser ∧ a.isCall ∧ (Conn.mk object.connection s.server.loop object.pc).Enabled a then
        some (s.absorb (s.server.act id (·.perform a) none))
      else none
  | .drop id =>
    match s.server.objects id with
    | none => none
    | some object =>
      if s.active = none ∧ id ∉ s.server.connections.map Prod.snd ∧ id ∉ s.server.accepting then
        some ({ s with server := s.server.destroy id object },
          [.released object.connection.fd, .destroyed (s.number id)])
      else none
  | .start fails => if s.inUser then some (s.start fails) else none
  | .setMessageCallback set =>
    if s.inUser then some ({ s with server.messageCallback := set }, []) else none
  | .setConnectionCallback set =>
    if s.inUser then some ({ s with server.connectionCallback := set }, []) else none
  | .setCloseCallback set =>
      if s.inUser then some ({ s with server.closeCallback := set }, []) else none

/-- A new event loop with a server that listens on a descriptor. -/
def create (descriptors : Int → Bool) (listen : Io.Channel) : Reactor where
  server := .create .create (Function.update descriptors listen.fd true)
  listen := listen
  started := false
  frames := []
  active := none
  number := fun _ => 0
  count := 0

/-- The connections, their entries in the event loop and their numbers stay as they are. -/
structure Still (s s' : Reactor) : Prop where
  listen : s'.listen = s.listen
  objects : s'.server.objects = s.server.objects
  channels : s'.server.loop.channels = s.server.loop.channels
  descriptors : s'.server.descriptors = s.server.descriptors
  active : s'.active = s.active
  number : s'.number = s.number
  count : s'.count = s.count

/-- Everything that can happen next, with what each branch has tested. What is proved of the
reactor is proved by cases on this relation. -/
inductive Step (s : Reactor) : Reactor → List ReactorEvent → Prop where
  | rests {s' : Reactor} {events : List ReactorEvent} (hStill : Still s s')
      (hEvents : ∀ e ∈ events, ∃ x, e = .threw x) : Step s s' events
  | listens {s' : Reactor} {fd : Int} (hStill : Still s s')
      (hFound : s.server.loop.channels fd = some s.listen.address) :
      Step s s' [.called s.listen.address .read
        (s.server.loop.channels s.listen.fd = some s.listen.address)]
  | enters {fd : Int} {id : Nat} (frames : List Frame) (direction : Io.Event)
      (hActive : s.active = none) (hFound : s.server.loop.channels fd = some id)
      (hNe : id ≠ s.listen.address) :
      Step s ({ s with frames }.enter id direction).1 ({ s with frames }.enter id direction).2
  | turns {id : Nat} {object : Object} {a : ConnAction} (hActive : s.active = some id)
      (hObject : s.server.objects id = some object) (hTurn : a.isTurn = true)
      (hEnabled : (Conn.mk object.connection s.server.loop object.pc).Enabled a) :
      Step s (s.turn id a).1 (s.turn id a).2
  | calls {id : Nat} {object : Object} {a : ConnAction} (hActive : s.active = none)
      (hObject : s.server.objects id = some object) (hCall : a.isCall = true)
      (hEnabled : (Conn.mk object.connection s.server.loop object.pc).Enabled a) :
      Step s (s.absorb (s.server.act id (·.perform a) none)).1
        (s.absorb (s.server.act id (·.perform a) none)).2
  /-- the connection callback throws -/
  | abandons {s₁ : Reactor} {id : Nat} {object : Object} (hStill : Still s s₁)
      (hActive : s.active = none) (hObject : s₁.server.objects id = some object) :
      Step s (s₁.absorb (s₁.server.act id Conn.close none)).1
        (s₁.absorb (s₁.server.act id Conn.close none)).2
  | accepts {fd : Int} {id : Nat} (fault : Option AcceptFault) (batch : List (Int × Io.EpollEvents))
      (channel : Option (Int × Nat × Io.EpollEvents)) (frames : List Frame) (hNonneg : 0 ≤ fd)
      (hClosed : s.server.descriptors fd = false) (hFree : s.server.objects id = none)
      (hNe : id ≠ s.listen.address) :
      Step s (s.accept fd id fault batch channel frames).1
        (s.accept fd id fault batch channel frames).2
  | drops {id : Nat} {object : Object} (hObject : s.server.objects id = some object) :
      Step s { s with server := s.server.destroy id object }
        [.released object.connection.fd, .destroyed (s.number id)]
  | starts {fails : Bool} {loop : Io.EventLoop}
      (hAdd : s.server.loop.addChannel fails s.listen = .ok loop) :
      Step s { s with server.loop := loop, started := true } []

section Inversion

variable {s s' : Reactor} {events : List ReactorEvent}

theorem Step.of_some {r : Reactor × List ReactorEvent} (h : some r = some (s', events))
    (hStep : Step s r.1 r.2) : Step s s' events := by
  cases Option.some.inj h
  exact hStep

theorem Step.stays (h : Still s s') : Step s s' [] := .rests h (by simp)

theorem active_of_inUser (h : s.inUser = true) : s.active = none := by
  unfold inUser at h
  exact Option.isNone_iff_eq_none.mp (Bool.and_eq_true_iff.mp h).1

theorem step_of_dispatchRead (hActive : s.active = none) (fd : Int) (flags : Io.EpollEvents)
    (batch : List (Int × Io.EpollEvents)) (frames : List Frame) :
    Step s (s.dispatchRead fd flags batch frames).1 (s.dispatchRead fd flags batch frames).2 := by
  unfold dispatchRead
  split
  · exact .stays ⟨rfl, rfl, rfl, rfl, rfl, rfl, rfl⟩
  · rename_i address hFound
    split_ifs with hRead hListen
    · subst hListen
      exact .listens ⟨rfl, rfl, rfl, rfl, rfl, rfl, rfl⟩ hFound
    · exact .enters _ .read hActive hFound hListen
    · exact .stays ⟨rfl, rfl, rfl, rfl, rfl, rfl, rfl⟩

theorem step_of_dispatchWrite (hActive : s.active = none) (fd : Int) (address : Nat)
    (flags : Io.EpollEvents) (batch : List (Int × Io.EpollEvents)) (frames : List Frame) :
    Step s (s.dispatchWrite fd address flags batch frames).1
      (s.dispatchWrite fd address flags batch frames).2 := by
  unfold dispatchWrite
  dsimp only
  split_ifs with hCond
  · exact .enters _ .write hActive hCond.1 hCond.2.2
  · exact .stays ⟨rfl, rfl, rfl, rfl, rfl, rfl, rfl⟩

theorem step_of_userThrew (hActive : s.active = none) (stage : Stage) (frames : List Frame) :
    Step s (s.userThrew stage frames).1 (s.userThrew stage frames).2 := by
  cases stage with
  | announcing id =>
    have hStill : Still s { s with frames, server.accepting := s.server.accepting.erase id } :=
      ⟨rfl, rfl, rfl, rfl, rfl, rfl, rfl⟩
    cases hObject : s.server.objects id with
    | none =>
      have hAct : { s.server with accepting := s.server.accepting.erase id }.act id Conn.close none
          = .ok { s.server with accepting := s.server.accepting.erase id } [] := by
        simp only [TcpServer.act, hObject]
      simp only [userThrew, hAct]
      exact .rests hStill (by simp [absorb, TcpServer.report])
    | some => exact .abandons hStill hActive hObject
  | idle | accepting => exact .stays ⟨rfl, rfl, rfl, rfl, rfl, rfl, rfl⟩

theorem step_of_start (s : Reactor) (fails : Bool) :
    Step s (s.start fails).1 (s.start fails).2 := by
  unfold start
  split
  · exact .rests ⟨rfl, rfl, rfl, rfl, rfl, rfl, rfl⟩ (by simp)
  · split
    · exact .rests ⟨rfl, rfl, rfl, rfl, rfl, rfl, rfl⟩ (by simp)
    · rename_i loop hAdd
      exact .starts hAdd

/-- Every label of the reactor is one of its kinds of step. -/
theorem step_of_next {a : ReactorAction} (hNext : s.next a = some (s', events)) :
    Step s s' events := by
  cases a with
  | poll =>
    simp only [next, Option.ite_none_right_eq_some, Option.map_eq_some_iff] at hNext
    obtain ⟨-, ⟨kernel, batch⟩, -, hEq⟩ := hNext
    cases hEq
    exact .stays ⟨rfl, rfl, rfl, rfl, rfl, rfl, rfl⟩
  | pollFailed =>
    simp only [next, Option.ite_none_right_eq_some] at hNext
    cases hNext.2
    exact .rests ⟨rfl, rfl, rfl, rfl, rfl, rfl, rfl⟩ (by split <;> simp)
  | kernel =>
    cases hNext
    exact .stays ⟨rfl, rfl, rfl, rfl, rfl, rfl, rfl⟩
  | dispatchRead =>
    simp only [next] at hNext
    split at hNext
    · rename_i fd flags batch frames hActive _
      exact .of_some hNext (step_of_dispatchRead hActive fd flags batch frames)
    · cases hNext
  | dispatchWrite =>
    simp only [next] at hNext
    split at hNext
    · rename_i batch fd address flags frames hActive _
      exact .of_some hNext (step_of_dispatchWrite hActive fd address flags batch frames)
    · cases hNext
  | leave | callbackReturned =>
    simp only [next] at hNext
    split at hNext
    · cases hNext
      exact .stays ⟨rfl, rfl, rfl, rfl, rfl, rfl, rfl⟩
    · cases hNext
  | turn a =>
    simp only [next] at hNext
    split at hNext
    · cases hNext
    · rename_i id hActive
      split at hNext
      · cases hNext
      · rename_i object hObject
        rw [Option.ite_none_right_eq_some] at hNext
        exact .of_some hNext.2 (.turns hActive hObject hNext.1.1 hNext.1.2)
  | accept fd address fault =>
    simp only [next] at hNext
    split at hNext
    · rename_i batch channel frames _ _
      rw [Option.ite_none_right_eq_some] at hNext
      obtain ⟨⟨hNonneg, hClosed, hFree, hNe⟩, hNext⟩ := hNext
      exact .of_some hNext
        (.accepts fault batch channel frames hNonneg hClosed (Option.isNone_iff_eq_none.mp hFree)
        hNe)
    · cases hNext
  | acceptFailed =>
    simp only [next] at hNext
    split at hNext
    · split_ifs at hNext <;>
      · cases hNext
        exact .stays ⟨rfl, rfl, rfl, rfl, rfl, rfl, rfl⟩
    · cases hNext
  | userThrew =>
    simp only [next, Option.ite_none_right_eq_some] at hNext
    obtain ⟨hUser, hNext⟩ := hNext
    split at hNext
    · rename_i stage frames _
      exact .of_some hNext (step_of_userThrew (active_of_inUser hUser) stage frames)
    · cases hNext
  | connection id a =>
    simp only [next] at hNext
    split at hNext
    · cases hNext
    · rename_i object hObject
      rw [Option.ite_none_right_eq_some] at hNext
      obtain ⟨⟨hUser, hCall, hEnabled⟩, hNext⟩ := hNext
      exact .of_some hNext (.calls (active_of_inUser hUser) hObject hCall hEnabled)
  | drop id =>
    simp only [next] at hNext
    split at hNext
    · cases hNext
    · rename_i object hObject
      rw [Option.ite_none_right_eq_some] at hNext
      exact .of_some hNext.2 (.drops hObject)
  | start fails =>
    simp only [next, Option.ite_none_right_eq_some] at hNext
    exact .of_some hNext.2 (s.step_of_start fails)
  | setMessageCallback | setConnectionCallback | setCloseCallback =>
    simp only [next, Option.ite_none_right_eq_some] at hNext
    cases hNext.2
    exact .stays ⟨rfl, rfl, rfl, rfl, rfl, rfl, rfl⟩

end Inversion

end Reactor

def reactorMachine (descriptors : Int → Bool) (listen : Io.Channel) :
    Machine Reactor ReactorAction ReactorEvent :=
  ⟨.create descriptors listen, Reactor.next⟩

end Tinycoro.Net
