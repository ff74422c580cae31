import Tinycoro.Net.TcpConnection

/-! The life of a connection: open and registered with the event loop, then closed and
not. Every call either leaves it alone or closes it. -/
namespace Tinycoro.Net

open Effect Transition

/-- The part of a connection that says whether it is open, with the entry of the event
loop at its descriptor. -/
structure Life where
  fd : Int
  address : Nat
  started : Bool
  closed : Bool
  entry : Option Nat
  deriving DecidableEq

namespace Life

def close (l : Life) : Life :=
  if l.closed then l
  else { l with
    started := false
    closed := true
    entry := if l.started then if l.fd < 0 ∨ l.entry ≠ some l.address then l.entry else none
    else l.entry }

/-- A connection is in the event loop as long as it is open. -/
structure Ok (l : Life) : Prop where
  fd_nonneg : 0 ≤ l.fd
  started : l.started = !l.closed
  entry : l.entry = some l.address ↔ l.closed = false

theorem Ok.close {l : Life} (h : l.Ok) : l.close.Ok := by
  cases hClosed : l.closed with
  | true =>
    have hSame : l.close = l := if_pos hClosed
    rwa [hSame]
  | false =>
    have hStarted : l.started = true := by rw [h.started, hClosed]; rfl
    have hEntry : l.entry = some l.address := h.entry.mpr hClosed
    have hEq : l.close = { l with started := false, closed := true, entry := none } := by
      simp [Life.close, hClosed, hStarted, hEntry, Int.not_lt.mpr h.fd_nonneg]
    rw [hEq]
    exact ⟨h.fd_nonneg, rfl, by simp⟩

end Life

namespace Conn

def life (c : Conn) : Life where
  fd := c.connection.channel.fd
  address := c.connection.channel.address
  started := c.connection.started
  closed := c.connection.closed
  entry := c.loop.channels c.connection.channel.fd

theorem life_close (c : Conn) : c.close.state.life = c.life.close := by
  unfold close Life.close
  split
  · rename_i hClosed
    exact (if_pos (show c.life.closed = true from hClosed)).symm
  · rename_i hOpen
    rw [if_neg (show ¬ c.life.closed = true from hOpen)]
    cases hStarted : c.connection.started with
    | false => simp [life, hStarted]
    | true =>
      simp only [life, hStarted, Io.EventLoop.removeChannel, Outcome.ok_state, if_true]
      split
      · rfl
      · simp

theorem pc_close (c : Conn) : c.close.state.pc = c.pc := by
  unfold close
  split
  · rfl
  · dsimp only [Outcome.ok_state]
    split <;> rfl

/-- A call leaves a closed connection closed, and closes an open one at most once, with
the callback that is set. The server's callback is never put back. -/
structure Fate (c : Conn) (o : ConnOutcome) : Prop where
  fd : o.state.connection.fd = c.connection.fd
  linked : o.state.connection.closeCallback = .server → c.connection.closeCallback = .server
  ends : o.state.connection.closed = c.connection.closed ∧ (∀ callback, .closed callback ∉ o.events)
    ∨ c.connection.closed = false ∧ o.state.connection.closed = true ∧
      ∀ callback, .closed callback ∈ o.events ↔ callback = c.connection.closeCallback

variable {c : Conn} {o : ConnOutcome}

theorem fate_same (hFd : o.state.connection.fd = c.connection.fd)
    (hCallback : o.state.connection.closeCallback = c.connection.closeCallback)
    (hClosed : o.state.connection.closed = c.connection.closed)
    (hEvents : ∀ callback, .closed callback ∉ o.events) : Fate c o :=
  ⟨hFd, fun hServer => hCallback.symm.trans hServer, .inl ⟨hClosed, hEvents⟩⟩

theorem close_of_closed (h : c.connection.closed = true) : c.close = .ok c [] := if_pos h

theorem close_of_open (h : c.connection.closed = false) :
    c.close.state.connection = { c.connection with started := false, closed := true } ∧
      c.close.events = [.closed c.connection.closeCallback] := by
  rw [close, if_neg (by simp [h])]
  dsimp only
  split
  · exact ⟨rfl, rfl⟩
  · rename_i hStarted
    have hFalse : c.connection.started = false := by simpa using hStarted
    exact ⟨by rw [← hFalse]; rfl, rfl⟩

theorem closed_close (c : Conn) : c.close.state.connection.closed = true := by
  cases hClosed : c.connection.closed with
  | true => rwa [close_of_closed hClosed]
  | false => rw [(close_of_open hClosed).1]

theorem fate_close (c : Conn) : Fate c c.close := by
  cases hClosed : c.connection.closed with
  | true =>
    rw [close_of_closed hClosed]
    exact fate_same rfl rfl rfl (by simp)
  | false =>
    obtain ⟨hConnection, hEvents⟩ := close_of_open hClosed
    refine ⟨?_, ?_, .inr ⟨hClosed, ?_, ?_⟩⟩
    · rw [hConnection]
    · rw [hConnection]
      exact id
    · rw [hConnection]
    · simp [hEvents]

/-- What every call but the receiving one has in common: it leaves the life of the
connection alone or closes it and is done, it keeps the message callback, and it
receives nothing. -/
structure Calls (c : Conn) (o : ConnOutcome) : Prop where
  life : o.state.life = c.life ∨ o.state.life = c.life.close ∧ o.state.pc = .idle
  pc : o.state.pc = c.pc ∨ o.state.pc = .idle
  callback : o.state.connection.messageCallback = c.connection.messageCallback
  silent : ∀ chunk, .received chunk ∉ o.events
  fate : Fate c o

theorem Fate.of_idle (h : Fate { c with pc := .idle } o) : Fate c o :=
  ⟨h.fd, h.linked, h.ends⟩

theorem Calls.of_idle (h : Calls { c with pc := .idle } o) : Calls c o :=
  ⟨h.life, .inr (h.pc.elim id id), h.callback, h.silent, h.fate.of_idle⟩

/-- One event in front of a call. -/
theorem Calls.after (h : Calls c o) {e : ConnEvent} (hReceived : ∀ chunk, e ≠ .received chunk)
    (hClosed : ∀ callback, e ≠ .closed callback) : Calls c ⟨o.state, [e] ++ o.events, o.error⟩ := by
  have hMem : ∀ {e'}, e' ≠ e → (e' ∈ [e] ++ o.events ↔ e' ∈ o.events) := by
    intro e' hNe
    simp [hNe]
  refine ⟨h.life, h.pc, h.callback, ?_, h.fate.fd, h.fate.linked, ?_⟩
  · intro chunk
    rw [hMem (hReceived chunk).symm]
    exact h.silent chunk
  · simp only [fun callback => hMem (hClosed callback).symm]
    exact h.fate.ends

/-- A call with no events that leaves all this alone. -/
theorem calls_same (hLife : o.state.life = c.life) (hPc : o.state.pc = c.pc)
    (hMessage : o.state.connection.messageCallback = c.connection.messageCallback)
    (hFd : o.state.connection.fd = c.connection.fd)
    (hClose : o.state.connection.closeCallback = c.connection.closeCallback)
    (hEvents : o.events = []) : Calls c o :=
  ⟨.inl hLife, .inl hPc, hMessage, by simp [hEvents],
    fate_same hFd hClose (congrArg Life.closed hLife) (by simp [hEvents])⟩

theorem calls_ok (c : Conn) : Calls c (.ok c []) := calls_same rfl rfl rfl rfl rfl rfl

theorem calls_close (hPc : c.pc = .idle) : Calls c c.close := by
  have hIdle : c.close.state.pc = .idle := c.pc_close.trans hPc
  refine ⟨.inr ⟨c.life_close, hIdle⟩, .inr hIdle, ?_, ?_, c.fate_close⟩
  · cases hClosed : c.connection.closed with
    | true => rw [close_of_closed hClosed, Outcome.ok_state]
    | false => rw [(close_of_open hClosed).1]
  · cases hClosed : c.connection.closed with
    | true => simp [close_of_closed hClosed]
    | false => simp [(close_of_open hClosed).2]

theorem calls_update (c : Conn) (fails : Bool) (interest : Io.Interest) :
    Calls c (c.update fails interest) := by
  simp only [update]
  split
  · exact calls_same rfl rfl rfl rfl rfl rfl
  · rename_i loop hOk
    obtain ⟨_, _, rfl⟩ := Io.EventLoop.updateChannel_ok hOk
    exact calls_same rfl rfl rfl rfl rfl rfl

theorem calls_enqueue (c : Conn) (short fails : Bool) (data : Bytes) :
    Calls c (c.enqueue short fails data) := by
  unfold enqueue
  split
  · split
    · exact calls_same rfl rfl rfl rfl rfl rfl
    · rename_i b _
      have hUpdate := { c with connection.writeBuffer := b }.calls_update fails ⟨true, true⟩
      exact ⟨hUpdate.life, hUpdate.pc, hUpdate.callback, hUpdate.silent, hUpdate.fate.fd,
        hUpdate.fate.linked, hUpdate.fate.ends⟩
  · exact c.calls_ok

theorem calls_send (hPc : c.pc = .idle) (data : Bytes) (answer : Transfer) (short fails : Bool) :
    Calls c (c.send data answer short fails) := by
  unfold send
  split
  · exact c.calls_ok
  · split
    · cases answer with
      | count n =>
        simp only [Outcome.ok_andThen]
        exact (c.calls_enqueue short fails (data.drop n)).after nofun nofun
      | failed =>
        dsimp only
        split
        · exact calls_close hPc
        · exact c.calls_enqueue short fails data
    · exact c.calls_enqueue short fails data

theorem calls_deliver (c : Conn) : Calls c c.deliver := by
  unfold deliver
  split
  · exact c.calls_ok.after nofun nofun
  · exact c.calls_ok

theorem calls_disarm (c : Conn) (fails : Bool) : Calls c (c.disarm fails) := by
  unfold disarm
  split
  · exact c.calls_update fails _
  · exact c.calls_ok

theorem calls_drain (c : Conn) (answer : Transfer) (fails : Bool) :
    Calls c (c.drain answer fails) := by
  have hDisarm : Calls c ({ c with pc := .idle }.disarm fails) := (calls_disarm _ fails).of_idle
  unfold drain
  split
  · cases answer with
    | count n =>
      dsimp only
      split
      · rw [Outcome.ok_andThen]
        cases c.connection.writeBuffer.consume n with
        | error => exact ⟨.inl rfl, .inr rfl, rfl, by simp, fate_same rfl rfl rfl (by simp)⟩
        | ok => exact ⟨.inl rfl, .inl rfl, rfl, by simp, fate_same rfl rfl rfl (by simp)⟩
      · exact c.calls_ok
    | failed =>
      dsimp only
      split
      · exact c.calls_ok
      · split
        · exact hDisarm
        · exact (calls_close rfl).of_idle
  · exact hDisarm

/-- A connection that was started cannot be started again. -/
theorem calls_start (h : c.life.Ok) (fails : Bool) : Calls c (c.start fails) := by
  have hEither : c.connection.started = true ∨ c.connection.closed = true := by
    have hStarted : c.connection.started = !c.connection.closed := h.started
    rw [hStarted]
    cases c.connection.closed <;> simp
  rw [start, if_pos hEither]
  exact calls_same rfl rfl rfl rfl rfl rfl

theorem fate_start (c : Conn) (fails : Bool) : Fate c (c.start fails) := by
  unfold start
  split
  · exact fate_same rfl rfl rfl (by simp)
  · split <;> exact fate_same rfl rfl rfl (by simp)

/-- What a label can do. `waits` is a turn of `handle_read` that was interrupted, or
something happening elsewhere during it. -/
inductive Step (c : Conn) (o : ConnOutcome) : Prop where
  | calls : c.pc ≠ .reading → Calls c o → Step c o
  | setsCallback (set : Bool) : c.pc = .idle →
      o = .ok { c with connection.messageCallback := set } (if set then [] else [.unset]) → Step c o
  | setsClose (callback : CloseCallback) : c.pc = .idle → callback ≠ .server →
      o = .ok { c with connection.closeCallback := callback } [] → Step c o
  | enters (pc : Pc) : c.pc = .idle → c.Registered → o = .ok { c with pc } [] → Step c o
  | waits : c.pc = .reading → Calls c o → o.events = [] → o.error = none → o.state.pc = .reading →
      o.state.connection.readBuffer = c.connection.readBuffer → Step c o
  | receives (chunk : Bytes) (b : Buffer) : c.pc = .reading → chunk ≠ [] →
      b.bytes = c.connection.readBuffer.bytes ++ chunk →
      o = .ok { c with connection.readBuffer := b } [.received chunk] → Step c o
  | fails (chunk : Bytes) (e : StdError) : c.pc = .reading →
      o = .fail (.readBuffer e) { c with pc := .idle } [.received chunk] → Step c o
  | delivers : c.pc = .reading → o = { c with pc := .idle }.deliver → Step c o
  | closes : c.pc = .reading → o = { c with pc := .idle }.close → Step c o

/-- One turn of the loop of `handle_read`. -/
theorem recv_cases (c : Conn) (short : Bool) (answer : Received) :
    (∃ chunk e, c.recv short answer = .fail (.readBuffer e) { c with pc := .idle }
      [.received chunk]) ∨ (∃ chunk b, c.recv short answer = .ok { c with connection.readBuffer :=
        b } [.received chunk] ∧ chunk ≠ [] ∧ b.bytes = c.connection.readBuffer.bytes ++ chunk) ∨
      c.recv short answer = .ok c [] ∨ c.recv short answer = { c with pc := .idle }.deliver ∨
        c.recv short answer = { c with pc := .idle }.close := by
  cases answer with
  | data chunk =>
    cases chunk with
    | nil => exact .inr (.inr (.inr (.inr rfl)))
    | cons byte chunk =>
      simp only [recv, Outcome.ok_andThen]
      cases hAppend : c.connection.readBuffer.appendOr short (byte :: chunk) with
      | error e => exact .inl ⟨byte :: chunk, e, rfl⟩
      | ok b => exact .inr (.inl ⟨byte :: chunk, b, rfl, by simp, Buffer.bytes_appendOr hAppend⟩)
  | failed =>
    simp only [recv]
    split
    · exact .inr (.inr (.inl rfl))
    · split
      · exact .inr (.inr (.inr (.inl rfl)))
      · exact .inr (.inr (.inr (.inr rfl)))

theorem Step.of_recv (hPc : c.pc = .reading) (answer : Received) (short : Bool) :
    Step c (c.recv short answer) := by
  rcases c.recv_cases short answer with ⟨chunk, e, hRecv⟩ | ⟨chunk, b, hRecv, hChunk,
    hBytes⟩ | hRecv | hRecv | hRecv
  · exact .fails chunk e hPc hRecv
  · exact .receives chunk b hPc hChunk hBytes hRecv
  · rw [hRecv]
    exact .waits hPc c.calls_ok rfl rfl hPc rfl
  · exact .delivers hPc hRecv
  · exact .closes hPc hRecv

theorem calls_elsewhere {loop : Io.EventLoop} (h : c.Enabled (.elsewhere loop)) :
    Calls c (.ok { c with loop } []) := by
  refine calls_same ?_ rfl rfl rfl rfl rfl
  simp only [Outcome.ok_state, life, h.1]

/-- Every enabled label does one of these; `start` finds a connection that was started
or closed. -/
theorem Step.of_enabled {a : ConnAction} (hOk : ∀ fails, a = .start fails → c.life.Ok)
    (h : c.Enabled a) : Step c (c.perform a) := by
  have hCalls : c.pc = .idle → Calls c (c.perform a) → Step c (c.perform a) :=
    fun hPc => .calls (by rw [hPc]; nofun)
  cases a with
  | start fails => exact hCalls h (calls_start (hOk fails rfl) fails)
  | send data answer short fails =>
    have hPc : c.pc = .idle := by
      cases answer with
      | count => exact h.1
      | failed => exact h
    exact hCalls hPc ((calls_send hPc data answer short fails).after nofun nofun)
  | close => exact hCalls h (calls_close h)
  | setMessageCallback set => exact .setsCallback set h rfl
  | setCloseCallback set =>
      exact .setsClose (if set then .user else .unset) h (by cases set <;> nofun) rfl
  | useBuffer => exact hCalls h (calls_same rfl rfl rfl rfl rfl rfl)
  | handleRead => exact .enters .reading h.1 h.2 rfl
  | recv answer short =>
    have hPc : c.pc = .reading := by
      cases answer with
      | data => exact h.1
      | failed => exact h
    exact .of_recv hPc answer short
  | handleWrite => exact .enters .writing h.1 h.2 rfl
  | drain answer fails =>
    have hPc : c.pc = .writing := by
      cases answer with
      | count => exact h.1
      | failed => exact h
    exact .calls (by rw [hPc]; nofun) (c.calls_drain answer fails)
  | elsewhere =>
    by_cases hPc : c.pc = .reading
    · exact .waits hPc (calls_elsewhere h) rfl rfl hPc rfl
    · exact .calls hPc (calls_elsewhere h)

theorem fate_perform {a : ConnAction} (hEnabled : c.Enabled a) : Fate c (c.perform a) := by
  by_cases hStart : ∃ fails, a = .start fails
  · obtain ⟨fails, rfl⟩ := hStart
    exact c.fate_start fails
  · cases Step.of_enabled (fun fails hEq => absurd ⟨fails, hEq⟩ hStart) hEnabled with
    | calls _ hCalls | waits _ hCalls => exact hCalls.fate
    | setsCallback set _ hEq =>
      rw [hEq]
      exact fate_same rfl rfl rfl (by cases set <;> simp)
    | setsClose callback _ hNot hEq =>
      rw [hEq]
      exact ⟨rfl, fun hServer => absurd hServer hNot, .inl ⟨rfl, by simp⟩⟩
    | enters pc _ _ hEq | receives chunk b _ _ _ hEq | fails chunk e _ hEq =>
      rw [hEq]
      exact fate_same rfl rfl rfl (by simp)
    | delivers _ hEq =>
      rw [hEq]
      exact (calls_deliver _).fate.of_idle
    | closes _ hEq =>
      rw [hEq]
      exact (fate_close _).of_idle

/-- A closed connection stays closed. -/
theorem Fate.open_of_open (h : Fate c o) (hOpen : o.state.connection.closed = false) :
    c.connection.closed = false := by
  rcases h.ends with ⟨hSame, _⟩ | ⟨hBefore, _⟩
  · exact hSame.symm.trans hOpen
  · exact hBefore

/-- A connection in one of its loops is open. -/
structure Live (c : Conn) : Prop where
  life : c.life.Ok
  pc : c.pc ≠ .idle → c.connection.closed = false

namespace Live

variable {c : Conn} {o : ConnOutcome}

theorem calls (h : Live c) (hCalls : Calls c o) : Live o.state := by
  rcases hCalls.life with hSame | ⟨hClose, hIdle⟩
  · refine ⟨hSame ▸ h.life, fun hPc => ?_⟩
    rcases hCalls.pc with hPc' | hIdle
    · exact (congrArg Life.closed hSame).trans (h.pc (hPc' ▸ hPc))
    · exact absurd hIdle hPc
  · exact ⟨hClose ▸ h.life.close, fun hPc => absurd hIdle hPc⟩

theorem step (h : Live c) (hStep : Step c o) : Live o.state := by
  cases hStep with
  | calls _ hCalls | waits _ hCalls => exact h.calls hCalls
  | setsCallback set _ hEq | setsClose callback _ _ hEq | receives chunk b _ _ _ hEq =>
    subst hEq
    exact ⟨h.life, h.pc⟩
  | enters pc _ hRegistered hEq =>
    subst hEq
    exact ⟨h.life, fun _ => h.life.entry.mp hRegistered⟩
  | fails chunk e _ hEq =>
    subst hEq
    exact ⟨h.life, fun hNot => absurd rfl hNot⟩
  | delivers _ hEq =>
    subst hEq
    exact h.calls (calls_deliver _).of_idle
  | closes _ hEq =>
    subst hEq
    exact h.calls (calls_close rfl).of_idle

theorem of_reaches {start : Conn} (hStart : Live start) {trace : List ConnEvent}
    (h : (connectionMachine start).Reaches c trace) : Live c := by
  refine h.invariant (P := fun c _ => Live c) hStart ?_
  intro _ _ _ _ _ _ hLive hNext
  obtain ⟨hEnabled, rfl, _⟩ := of_next hNext
  exact hLive.step (.of_enabled (fun _ _ => hLive.life) hEnabled)

end Live

/-- A new connection that was started is open, with empty buffers and an interest in
reading. -/
structure Fresh (c : Conn) (messageCallback : Bool) (closeCallback : CloseCallback) : Prop where
  live : Live c
  pc : c.pc = .idle
  messageCallback : c.connection.messageCallback = messageCallback
  closeCallback : c.connection.closeCallback = closeCallback
  writeBuffer : c.connection.writeBuffer.bytes = []
  interest : c.connection.channel.interest = ⟨true, false⟩
  request : (c.loop.kernel.registered c.connection.channel.fd).map Io.Registration.request =
    some (Io.toEpollEvents c.connection.channel.interest)

end Conn

end Tinycoro.Net
