import Tinycoro.Net.Lifecycle

/-! The callback server: a map from descriptors to connections, from which a connection
is removed only by the close callback that the server has set in it. Connections are
objects with a number of their own; one dies when nobody refers to it any more, and only
then its descriptor is closed. -/
namespace Tinycoro.Net

open Effect Transition

structure Object where
  connection : TcpConnection
  pc : Pc

/-- The server with what it works on: the event loop, the open descriptors and the
connection objects. The connections in `accepting` are those whose connection callback
is running. -/
structure TcpServer where
  loop : Io.EventLoop
  descriptors : Int → Bool
  objects : Nat → Option Object
  fresh : Nat
  connections : List (Int × Nat)
  messageCallback : Bool
  connectionCallback : Bool
  closeCallback : Bool
  accepting : List Nat

/-- `unlinked` says that user code has replaced the close callback of a connection,
`kept` that the server's close callback has thrown before it came to erase the entry. -/
inductive ServerEvent where
  | opened (fd : Int)
  | released (fd : Int)
  | connected (id : Nat)
  | unlinked (id : Nat)
  | kept (id : Nat)
  | connection (id : Nat) (e : ConnEvent)
  | threw (e : Thrown)
  deriving DecidableEq

abbrev ServerOutcome := Outcome TcpServer ServerEvent Thrown

/-- Where an iteration of `handle_accept` fails. -/
inductive AcceptFault where
  | setNonblocking (errno : Nat) (cloexec : Bool)
  | makeShared
  | messageCallback
  | emplace
  | start
  deriving DecidableEq

/-- A connection is accepted; a connection callback returns or throws; a connection is
called by user code or by the event loop; the last reference to a connection goes away;
user code sets the server's callbacks. -/
inductive ServerAction where
  | accept (fd : Int) (fault : Option AcceptFault) (copy : Option Thrown)
  | callbackReturned (id : Nat)
  | callbackThrew (id : Nat) (copy : Option Thrown)
  | connection (id : Nat) (a : ConnAction) (copy : Option Thrown)
  | drop (id : Nat)
  | setMessageCallback (set : Bool)
  | setConnectionCallback (set : Bool)
  | setCloseCallback (set : Bool)

namespace TcpServer

/-- `::close` -/
def release (w : TcpServer) (fd : Int) : TcpServer :=
  { w with
    descriptors := Function.update w.descriptors fd false
    loop.kernel := w.loop.kernel.close fd }

/-- `std::unordered_map::emplace` -/
def emplace (w : TcpServer) (fd : Int) (id : Nat) : TcpServer :=
  if fd ∈ w.connections.map Prod.fst then w
  else { w with connections := w.connections ++ [(fd, id)] }

/-- `std::unordered_map::erase` -/
def erase (w : TcpServer) (fd : Int) : TcpServer :=
  { w with connections := w.connections.filter (fun entry => entry.1 ≠ fd) }

/-- `handle_close` up to the call of the user's callback, which comes last in it. It
begins with a copy of `close_callback_`; if one is set, `copy` is what its copy throws. -/
def handleClose (w : TcpServer) (id : Nat) (fd : Int) (copy : Option Thrown) : ServerOutcome :=
  match copy with
  | none => .ok (w.erase fd) []
  | some e =>
    if w.closeCallback then
      .fail e w (if id ∈ w.connections.map Prod.snd then [.kept id] else [])
    else .ok (w.erase fd) []

/-- Put a connection back into its place. -/
def put (w : TcpServer) (id : Nat) (c : Conn) : TcpServer :=
  { w with loop := c.loop, objects := Function.update w.objects id (some ⟨c.connection, c.pc⟩) }

/-- Put a connection back after a call on it, and run the server's close callback if the
call has come to that. -/
def absorb (w : TcpServer) (id : Nat) (before : TcpConnection) (o : ConnOutcome)
    (copy : Option Thrown) : ServerOutcome :=
  let unlinked := before.closeCallback = .server ∧ o.state.connection.closeCallback ≠ .server
  let w := w.put id o.state
  let closing :=
    if .closed .server ∈ o.events then w.handleClose id o.state.connection.fd copy else .ok w []
  { state := closing.state
    events := (if unlinked then [.unlinked id] else []) ++ o.events.map (.connection id) ++
      closing.events
    error := closing.error.or o.error }

theorem absorb_none (w : TcpServer) (id : Nat) (before : TcpConnection) (o : ConnOutcome) :
    w.absorb id before o none =
      { state :=
          if .closed .server ∈ o.events then (w.put id o.state).erase o.state.connection.fd
          else w.put id o.state
        events := (if before.closeCallback = .server ∧ o.state.connection.closeCallback ≠ .server
          then [.unlinked id] else []) ++ o.events.map (.connection id)
        error := o.error } := by
  by_cases hClosed : .closed .server ∈ o.events <;> simp [absorb, handleClose, hClosed]

/-- Call a function on a connection. -/
def act (w : TcpServer) (id : Nat) (f : Conn → ConnOutcome) (copy : Option Thrown) :
    ServerOutcome :=
  match w.objects id with
  | none => .ok w []
  | some object => w.absorb id object.connection (f ⟨object.connection, w.loop, object.pc⟩) copy

/-- The new connection gets the server's message callback, whose copy may fail. -/
def giveCallback (w : TcpServer) (id : Nat) (fault : Option AcceptFault) : ServerOutcome :=
  if w.messageCallback then
    if fault = some .messageCallback then .fail (.std .badAlloc) w []
    else w.act id (fun c => .ok { c with connection.messageCallback := true } []) none
  else .ok w []

def insert (w : TcpServer) (fd : Int) (id : Nat) (fault : Option AcceptFault) : ServerOutcome :=
  if fault = some .emplace then .fail (.std .badAlloc) w [] else .ok (w.emplace fd id) []

/-- Enter the connection callback, which is user code. -/
def announce (w : TcpServer) (id : Nat) : ServerOutcome :=
  if w.connectionCallback then .ok { w with accepting := id :: w.accepting } [.connected id]
  else .ok w []

/-- The `try` block of `handle_accept` behind the constructor. -/
def setUp (w : TcpServer) (fd : Int) (id : Nat) (fault : Option AcceptFault) : ServerOutcome :=
  (((w.giveCallback id fault).andThen (·.insert fd id fault)).andThen
    (·.act id (·.start (fault = some .start)) none)).andThen (·.announce id)

/-- The handler of `handle_accept`: it closes the new connection and rethrows, unless the
close throws another exception. -/
def abandon (o : ServerOutcome) (id : Nat) (copy : Option Thrown) : ServerOutcome :=
  match o.error with
  | none => o
  | some e =>
    let closing := o.state.act id Conn.close copy
    .fail (closing.error.getD e) closing.state (o.events ++ closing.events)

/-- One iteration of `handle_accept` with a descriptor from `::accept`. -/
def handleAccept (w : TcpServer) (fd : Int) (fault : Option AcceptFault) (copy : Option Thrown) :
    ServerOutcome :=
  (Outcome.ok { w with descriptors := Function.update w.descriptors fd true } [.opened fd]).andThen
    fun w =>
    match fault with
    | some (.setNonblocking errno cloexec) =>
      .fail (.std (.systemError errno (if cloexec then "fcntl FD_CLOEXEC" else "fcntl O_NONBLOCK")))
        (w.release fd) [.released fd]
    | some .makeShared => .fail (.std .badAlloc) w []
    | _ =>
      match TcpConnection.create fd w.fresh with
      | .error e => .fail e w []
      | .ok connection =>
        let id := w.fresh
        let w := { w with
          fresh := id + 1
          objects := Function.update w.objects id
            (some ⟨{ connection with closeCallback := .server }, .idle⟩) }
        abandon (w.setUp fd id fault) id copy

/-- `~TcpConnection` -/
def destroy (w : TcpServer) (id : Nat) (object : Object) : TcpServer :=
  let w := { w with objects := Function.update w.objects id none }
  let w :=
    if object.connection.started ∧ ¬ object.connection.closed then
      { w with loop := w.loop.removeChannel object.connection.channel }
    else w
  w.release object.connection.fd

@[simp] theorem objects_destroy (w : TcpServer) (id : Nat) (object : Object) :
    (w.destroy id object).objects = Function.update w.objects id none := by
  simp only [destroy, release]
  split <;> rfl

@[simp] theorem descriptors_destroy (w : TcpServer) (id : Nat) (object : Object) :
    (w.destroy id object).descriptors =
      Function.update w.descriptors object.connection.fd false := by
  simp only [destroy, release]
  split <;> rfl

def report (o : ServerOutcome) : TcpServer × List ServerEvent :=
  (o.state, o.events ++ (o.error.map ServerEvent.threw).toList)

def next (w : TcpServer) : ServerAction → Option (TcpServer × List ServerEvent)
  | .accept fd fault copy =>
    if 0 ≤ fd ∧ w.descriptors fd = false then some (report (w.handleAccept fd fault copy))
    else none
  | .callbackReturned id =>
    if id ∈ w.accepting then some ({ w with accepting := w.accepting.erase id }, []) else none
  | .callbackThrew id copy =>
    if id ∈ w.accepting then
      some (report ({ w with accepting := w.accepting.erase id }.act id Conn.close copy))
    else none
  | .connection _ (.elsewhere _) _ => none
  | .connection id a copy =>
    match w.objects id with
    | none => none
    | some object =>
      if (Conn.mk object.connection w.loop object.pc).Enabled a then
        some (report (w.act id (·.perform a) copy))
      else none
  | .drop id =>
    match w.objects id with
    | none => none
    | some object =>
      if object.pc = .idle ∧ id ∉ w.connections.map Prod.snd ∧ id ∉ w.accepting then
        some (w.destroy id object, [.released object.connection.fd])
      else none
  | .setMessageCallback set => some ({ w with messageCallback := set }, [])
  | .setConnectionCallback set => some ({ w with connectionCallback := set }, [])
  | .setCloseCallback set => some ({ w with closeCallback := set }, [])

end TcpServer

/-- A server from the state `start` on. -/
def serverMachine (start : TcpServer) : Machine TcpServer ServerAction ServerEvent :=
  ⟨start, TcpServer.next⟩

namespace TcpServer

/-- A new server on an event loop, with the descriptors that are open at the time. -/
def create (loop : Io.EventLoop) (descriptors : Int → Bool) : TcpServer where
  loop := loop
  descriptors := descriptors
  objects := fun _ => none
  fresh := 0
  connections := []
  messageCallback := false
  connectionCallback := false
  closeCallback := false
  accepting := []

/-- One turn of the loop in `~TcpServer`: some connection of the map is closed. If that
runs a callback of the user's, any calls may follow. -/
def Iteration (w w' : TcpServer) : Prop :=
  ∃ fd id object copy, (fd, id) ∈ w.connections ∧ w.objects id = some object ∧
    if object.connection.closed = false ∧ object.connection.closeCallback = .user then
      ∃ trace, (serverMachine (w.act id Conn.close copy).state).Reaches w' trace
    else w' = (w.act id Conn.close copy).state

/-- The loop in `~TcpServer` comes to an end, with no connection left. -/
inductive Drains : TcpServer → Prop where
  | done {w : TcpServer} : w.connections = [] → Drains w
  | again {w : TcpServer} : w.connections ≠ [] → (∀ w', Iteration w w' → Drains w') → Drains w

/-- `~TcpServer` up to the end of its loop: the user's close callback is cleared first. -/
def ShutsDown (w : TcpServer) : Prop := Drains { w with closeCallback := false }

/-- The connection is in the map. -/
def Mapped (w : TcpServer) (id : Nat) : Prop := id ∈ w.connections.map Prod.snd

/-- The connection exists and `closed()` is false. -/
def Open (w : TcpServer) (id : Nat) : Prop :=
  ∃ object, w.objects id = some object ∧ object.connection.closed = false

/-- The close callback of the connection is still the server's. -/
def Linked (w : TcpServer) (id : Nat) : Prop :=
  ∃ object, w.objects id = some object ∧ object.connection.closeCallback = .server

end TcpServer

end Tinycoro.Net
