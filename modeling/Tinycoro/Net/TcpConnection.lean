import Tinycoro.Buffer
import Tinycoro.Io.EventLoop
import Tinycoro.Library.Effect
import Tinycoro.Library.Transition
import Tinycoro.Net.TcpStream

/-! The callback-oriented connection. `send` and `close` are single steps, the loops
of `handle_read` and `handle_write` take one step for each system call, with the
kernel's answer as the label. A callback is the last thing that the function calling it
does, so user code runs while the connection is idle, also when it runs inside a
callback: the calls it makes are further labels. -/
namespace Tinycoro.Net

open Effect Transition

/-- What the connection's functions throw: on their own, from the read or the write
buffer, or from the event loop. -/
inductive Thrown where
  | std (e : StdError)
  | readBuffer (e : StdError)
  | writeBuffer (e : StdError)
  | loop (e : Io.Exception)
  deriving DecidableEq

/-- The callback to run on `close`: none, the one the server has set, or one of the
user's. -/
inductive CloseCallback where
  | unset
  | server
  | user
  deriving DecidableEq

structure TcpConnection where
  fd : Int
  started : Bool
  closed : Bool
  channel : Io.Channel
  readBuffer : Buffer
  writeBuffer : Buffer
  messageCallback : Bool
  closeCallback : CloseCallback

/-- Where the connection stands: not on the stack or in a callback, or inside one of
the loops. -/
inductive Pc where
  | idle
  | reading
  | writing
  deriving DecidableEq

structure Conn where
  connection : TcpConnection
  loop : Io.EventLoop
  pc : Pc

/-- `payload` is a call of `send`, `accepted` what the kernel took from `::send`,
`received` what it gave to `::recv`, and `message` a call of the message callback with
the content of the buffer it is given. -/
inductive ConnEvent where
  | payload (data : Bytes)
  | accepted (chunk : Bytes)
  | received (chunk : Bytes)
  | message (content : Bytes)
  | unset
  | closed (callback : CloseCallback)
  | threw (e : Thrown)
  deriving DecidableEq

abbrev ConnOutcome := Outcome Conn ConnEvent Thrown

/-- The answer of `::recv`: bytes, none of them at the end of the stream, or `errno`. -/
inductive Received where
  | data (chunk : Bytes)
  | failed (errno : Nat)
  deriving DecidableEq

/-- The constructor. `address` is the address of the channel. -/
def TcpConnection.create (fd : Int) (address : Nat) : Except Thrown TcpConnection :=
  if fd < 0 then .error (.std (.invalidArgument "invalid TcpConnection"))
  else .ok
    { fd
      started := false
      closed := false
      channel := ⟨address, fd, ⟨true, false⟩⟩
      readBuffer := .create Buffer.kInitialSize Buffer.kInitialSize_le
      writeBuffer := .create Buffer.kInitialSize Buffer.kInitialSize_le
      messageCallback := false
      closeCallback := .unset }

namespace Conn

def start (c : Conn) (fails : Bool) : ConnOutcome :=
  if c.connection.started ∨ c.connection.closed then
    .fail (.std (.logicError "connection cannot be started")) c []
  else match c.loop.addChannel fails c.connection.channel with
    | .error e => .fail (.loop e) c []
    | .ok loop => .ok { c with loop, connection.started := true } []

def close (c : Conn) : ConnOutcome :=
  if c.connection.closed then .ok c []
  else
    let c := { c with connection.closed := true }
    let c :=
      if c.connection.started then
        { c with loop := c.loop.removeChannel c.connection.channel, connection.started := false }
      else c
    .ok c [.closed c.connection.closeCallback]

/-- Set the interest and call `update_channel`. -/
def update (c : Conn) (fails : Bool) (interest : Io.Interest) : ConnOutcome :=
  let c := { c with connection.channel.interest := interest }
  match c.loop.updateChannel fails c.connection.channel with
  | .error e => .fail (.loop e) c []
  | .ok loop => .ok { c with loop } []

/-- The second half of `send`: what is left goes into the write buffer. -/
def enqueue (c : Conn) (short fails : Bool) (data : Bytes) : ConnOutcome :=
  if data.length > 0 ∧ ¬ c.connection.closed then
    match c.connection.writeBuffer.appendOr short data with
    | .error e => .fail (.writeBuffer e) c []
    | .ok writeBuffer => { c with connection.writeBuffer := writeBuffer }.update fails ⟨true, true⟩
  else .ok c []

def send (c : Conn) (data : Bytes) (answer : Transfer) (short fails : Bool) : ConnOutcome :=
  if c.connection.closed ∨ data.length = 0 then .ok c []
  else if c.connection.writeBuffer.readable = 0 then
    match answer with
    | .count n =>
        (Outcome.ok c [.accepted (data.take n)]).andThen (enqueue · short fails (data.drop n))
    | .failed errno =>
      if errno ≠ EAGAIN ∧ errno ≠ EWOULDBLOCK ∧ errno ≠ EINTR then c.close
      else c.enqueue short fails data
  else c.enqueue short fails data

/-- The end of `handle_read`. -/
def deliver (c : Conn) : ConnOutcome :=
  if c.connection.readBuffer.readable > 0 ∧ c.connection.messageCallback then
    .ok c [.message c.connection.readBuffer.bytes]
  else .ok c []

/-- One turn of the loop of `handle_read`. -/
def recv (c : Conn) (short : Bool) : Received → ConnOutcome
  | .data [] => { c with pc := .idle }.close
  | .data chunk =>
    (Outcome.ok c [.received chunk]).andThen fun c =>
      match c.connection.readBuffer.appendOr short chunk with
      | .error e => .fail (.readBuffer e) { c with pc := .idle } []
      | .ok readBuffer => .ok { c with connection.readBuffer := readBuffer } []
  | .failed errno =>
    if errno = EINTR then .ok c []
    else if errno = EAGAIN ∨ errno = EWOULDBLOCK then { c with pc := .idle }.deliver
    else { c with pc := .idle }.close

/-- The end of `handle_write`. -/
def disarm (c : Conn) (fails : Bool) : ConnOutcome :=
  if ¬ c.connection.closed ∧ c.connection.writeBuffer.readable = 0 then c.update fails ⟨true, false⟩
  else .ok c []

/-- One turn of the loop of `handle_write`, or its end. -/
def drain (c : Conn) (answer : Transfer) (fails : Bool) : ConnOutcome :=
  if c.connection.writeBuffer.readable > 0 then
    match answer with
    | .count n =>
      if n > 0 then
        (Outcome.ok c [.accepted (c.connection.writeBuffer.bytes.take n)]).andThen fun c =>
          match c.connection.writeBuffer.consume n with
          | .error e => .fail (.writeBuffer e) { c with pc := .idle } []
          | .ok writeBuffer => .ok { c with connection.writeBuffer := writeBuffer } []
      else .ok c []
    | .failed errno =>
      if errno = EINTR then .ok c []
      else if errno = EAGAIN ∨ errno = EWOULDBLOCK then { c with pc := .idle }.disarm fails
      else { c with pc := .idle }.close
  else { c with pc := .idle }.disarm fails

/-- The state a call leaves behind, and its events with the exception it threw. -/
def report (o : ConnOutcome) : Conn × List ConnEvent :=
  (o.state, o.events ++ (o.error.map ConnEvent.threw).toList)

theorem report_of_none {o : ConnOutcome} (h : o.error = none) : (report o).2 = o.events := by
  simp [report, h]

/-- The event loop has the connection's channel. -/
def Registered (c : Conn) : Prop :=
  c.loop.channels c.connection.channel.fd = some c.connection.channel.address

instance (c : Conn) : Decidable c.Registered := inferInstanceAs (Decidable (_ = _))

end Conn

/-- The calls of user code, the dispatch of an event with the turns of its loop, and
what happens to the event loop elsewhere. User code may do what it likes with the
buffer a message callback has given it. -/
inductive ConnAction where
  | start (fails : Bool)
  | send (data : Bytes) (answer : Transfer) (short fails : Bool)
  | close
  | setMessageCallback (set : Bool)
  | setCloseCallback (set : Bool)
  | useBuffer (readBuffer : Buffer)
  | handleRead
  | recv (answer : Received) (short : Bool)
  | handleWrite
  | drain (answer : Transfer) (fails : Bool)
  | elsewhere (loop : Io.EventLoop)

namespace Conn

/-- The size of the array `handle_read` receives into. -/
def temporarySize : Nat := 4096

/-- A label is enabled where the connection can take it and the kernel can answer so. -/
def Enabled (c : Conn) : ConnAction → Prop
  | .send data (.count n) _ _ => c.pc = .idle ∧ n ≤ data.length
  | .handleRead => c.pc = .idle ∧ c.Registered
  | .recv (.data chunk) _ => c.pc = .reading ∧ chunk.length ≤ temporarySize
  | .recv (.failed _) _ => c.pc = .reading
  | .handleWrite => c.pc = .idle ∧ c.Registered
  | .drain (.count n) _ => c.pc = .writing ∧ n ≤ c.connection.writeBuffer.readable
  | .drain (.failed _) _ => c.pc = .writing
  | .elsewhere loop =>
    loop.channels c.connection.channel.fd = c.loop.channels c.connection.channel.fd ∧
      (loop.kernel.registered c.connection.channel.fd).map Io.Registration.request =
        (c.loop.kernel.registered c.connection.channel.fd).map Io.Registration.request
  | _ => c.pc = .idle

instance (c : Conn) (a : ConnAction) : Decidable (c.Enabled a) := by
  unfold Enabled
  split <;> infer_instance

/-- What a label does where it is enabled. -/
def perform (c : Conn) : ConnAction → ConnOutcome
  | .start fails => c.start fails
  | .send data answer short fails =>
    (Outcome.ok c [.payload data]).andThen (fun c => c.send data answer short fails)
  | .close => c.close
  | .setMessageCallback set =>
    .ok { c with connection.messageCallback := set } (if set then [] else [.unset])
  | .setCloseCallback set =>
    .ok { c with connection.closeCallback := if set then .user else .unset } []
  | .useBuffer readBuffer => .ok { c with connection.readBuffer := readBuffer } []
  | .handleRead => .ok { c with pc := .reading } []
  | .recv answer short => c.recv short answer
  | .handleWrite => .ok { c with pc := .writing } []
  | .drain answer fails => c.drain answer fails
  | .elsewhere loop => .ok { c with loop } []

def next (c : Conn) (a : ConnAction) : Option (Conn × List ConnEvent) :=
  if c.Enabled a then some (report (c.perform a)) else none

theorem of_next {c c' : Conn} {a : ConnAction} {events : List ConnEvent}
    (h : c.next a = some (c', events)) :
    c.Enabled a ∧ c' = (c.perform a).state ∧ events = (report (c.perform a)).2 := by
  unfold next at h
  split at h
  · rename_i hEnabled
    cases h
    exact ⟨hEnabled, rfl, rfl⟩
  · cases h

end Conn

/-- A connection from the state `start` on. -/
def connectionMachine (start : Conn) : Machine Conn ConnAction ConnEvent := ⟨start, Conn.next⟩

end Tinycoro.Net
