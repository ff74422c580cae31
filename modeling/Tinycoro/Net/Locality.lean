import Tinycoro.Net.Lifecycle

/-! What a call on a connection does to the rest of the program: it touches one entry of
the event loop, its own, and runs at most one callback, as the last thing it does. -/
namespace Tinycoro.Net

open Effect

/-- A call of one of the connection's callbacks. -/
def ConnEvent.isCallback : ConnEvent → Bool
  | .message _ | .closed _ => true
  | _ => false

namespace Conn

/-- The connection keeps its channel, and the other channels keep their entries. -/
structure Local (c c' : Conn) : Prop where
  fd : c'.connection.fd = c.connection.fd
  channelFd : c'.connection.channel.fd = c.connection.channel.fd
  address : c'.connection.channel.address = c.connection.channel.address
  others : ∀ fd, fd ≠ c.connection.channel.fd → c'.loop.channels fd = c.loop.channels fd

/-- The callbacks among the events of a call. -/
inductive Speaks (c : Conn) : List ConnEvent → Prop where
  | quiet {events : List ConnEvent} (hQuiet : ∀ e ∈ events, e.isCallback = false) : Speaks c events
  | closes {events : List ConnEvent} (hOpen : c.connection.closed = false)
      (hQuiet : ∀ e ∈ events, e.isCallback = false) :
      Speaks c (events ++ [.closed c.connection.closeCallback])
  | delivers {content : Bytes} (hPc : c.pc = .reading) : Speaks c [.message content]

/-- A call stays local and speaks at its end. -/
structure Behaves (c : Conn) (o : ConnOutcome) : Prop where
  keeps : Local c o.state
  speaks : Speaks c o.events

variable {c : Conn} {o : ConnOutcome}

/-- A call that changes neither the channel nor the event loop, with no callback. -/
theorem behaves_same (hFd : o.state.connection.fd = c.connection.fd)
    (hChannelFd : o.state.connection.channel.fd = c.connection.channel.fd)
    (hAddress : o.state.connection.channel.address = c.connection.channel.address)
    (hChannels : o.state.loop.channels = c.loop.channels)
    (hQuiet : ∀ e ∈ o.events, e.isCallback = false) : Behaves c o :=
  ⟨⟨hFd, hChannelFd, hAddress, fun _ _ => by rw [hChannels]⟩, .quiet hQuiet⟩

/-- Where the connection stands does not matter to what does not deliver. -/
theorem Behaves.of_idle (h : Behaves { c with pc := .idle } o) : Behaves c o := by
  refine ⟨⟨h.keeps.fd, h.keeps.channelFd, h.keeps.address, h.keeps.others⟩, ?_⟩
  obtain ⟨-, hSpeaks⟩ := h
  generalize o.events = events at hSpeaks ⊢
  cases hSpeaks with
  | quiet hQuiet => exact .quiet hQuiet
  | closes hOpen hQuiet => exact .closes hOpen hQuiet
  | delivers hPc => cases hPc

/-- An event in front of a call that is not a callback. -/
theorem Behaves.after (h : Behaves c o) {e : ConnEvent} (hQuiet : e.isCallback = false)
    (hPc : c.pc ≠ .reading) : Behaves c ⟨o.state, [e] ++ o.events, o.error⟩ := by
  refine ⟨h.keeps, ?_⟩
  obtain ⟨-, hSpeaks⟩ := h
  have hFront {events : List ConnEvent} (hEvents : ∀ x ∈ events, x.isCallback = false) :
      ∀ x ∈ [e] ++ events, x.isCallback = false := by
    intro x hx
    rcases List.mem_append.mp hx with hx | hx
    · rw [List.mem_singleton.mp hx]
      exact hQuiet
    · exact hEvents x hx
  change Speaks c ([e] ++ o.events)
  generalize o.events = events at hSpeaks ⊢
  cases hSpeaks with
  | quiet hEvents => exact .quiet (hFront hEvents)
  | closes hOpen hEvents =>
    rw [← List.append_assoc]
    exact .closes hOpen (hFront hEvents)
  | delivers hReading => exact absurd hReading hPc

theorem behaves_ok (c : Conn) : Behaves c (.ok c []) := behaves_same rfl rfl rfl rfl (by simp)

theorem behaves_close (c : Conn) : Behaves c c.close := by
  unfold close
  split
  · exact c.behaves_ok
  · rename_i hClosed
    refine ⟨?_, ?_⟩
    · dsimp only [Outcome.ok_state]
      split
      · exact ⟨rfl, rfl, rfl, fun _ hNe => Io.EventLoop.removeChannel_other hNe⟩
      · exact ⟨rfl, rfl, rfl, fun _ _ => rfl⟩
    · have hSpeaks : Speaks c ([] ++ [.closed c.connection.closeCallback]) :=
        .closes (by simpa using hClosed) (by simp)
      dsimp only [Outcome.ok_events]
      split <;> exact hSpeaks

theorem behaves_update (c : Conn) (fails : Bool) (interest : Io.Interest) :
    Behaves c (c.update fails interest) := by
  simp only [update]
  split
  · exact behaves_same rfl rfl rfl rfl (by simp)
  · rename_i loop hOk
    obtain ⟨_, _, rfl⟩ := Io.EventLoop.updateChannel_ok hOk
    exact behaves_same rfl rfl rfl rfl (by simp)

theorem behaves_enqueue (c : Conn) (short fails : Bool) (data : Bytes) :
    Behaves c (c.enqueue short fails data) := by
  unfold enqueue
  split
  · split
    · exact behaves_same rfl rfl rfl rfl (by simp)
    · rename_i b _
      have hUpdate := { c with connection.writeBuffer := b }.behaves_update fails ⟨true, true⟩
      refine ⟨⟨hUpdate.keeps.fd, hUpdate.keeps.channelFd, hUpdate.keeps.address,
        hUpdate.keeps.others⟩, ?_⟩
      simp only [update]
      split <;> exact .quiet (by simp)
  · exact c.behaves_ok

theorem behaves_send (hPc : c.pc ≠ .reading) (data : Bytes) (answer : Transfer)
    (short fails : Bool) : Behaves c (c.send data answer short fails) := by
  unfold send
  split
  · exact c.behaves_ok
  · split
    · cases answer with
      | count n =>
        simp only [Outcome.ok_andThen]
        exact (c.behaves_enqueue short fails (data.drop n)).after rfl hPc
      | failed =>
        dsimp only
        split
        · exact c.behaves_close
        · exact c.behaves_enqueue short fails data
    · exact c.behaves_enqueue short fails data

theorem behaves_start (c : Conn) (fails : Bool) : Behaves c (c.start fails) := by
  unfold start
  split
  · exact behaves_same rfl rfl rfl rfl (by simp)
  · split
    · exact behaves_same rfl rfl rfl rfl (by simp)
    · rename_i loop hOk
      obtain ⟨-, -, -, rfl⟩ := Io.EventLoop.addChannel_ok hOk
      exact ⟨⟨rfl, rfl, rfl, fun fd hNe => Function.update_of_ne hNe ..⟩, .quiet (by simp)⟩

theorem behaves_recv (hPc : c.pc = .reading) (short : Bool) (answer : Received) :
    Behaves c (c.recv short answer) := by
  rcases c.recv_cases short answer with ⟨chunk, e, hRecv⟩ | ⟨chunk, b, hRecv, -,
    -⟩ | hRecv | hRecv | hRecv <;> rw [hRecv]
  · exact behaves_same rfl rfl rfl rfl (by simp [ConnEvent.isCallback])
  · exact behaves_same rfl rfl rfl rfl (by simp [ConnEvent.isCallback])
  · exact c.behaves_ok
  · unfold deliver
    split
    · exact ⟨⟨rfl, rfl, rfl, fun _ _ => rfl⟩, .delivers hPc⟩
    · exact behaves_same rfl rfl rfl rfl (by simp)
  · exact (behaves_close _).of_idle

theorem behaves_disarm (c : Conn) (fails : Bool) : Behaves c (c.disarm fails) := by
  unfold disarm
  split
  · exact c.behaves_update fails _
  · exact c.behaves_ok

theorem behaves_drain (c : Conn) (answer : Transfer) (fails : Bool) :
    Behaves c (c.drain answer fails) := by
  have hDisarm : Behaves c ({ c with pc := .idle }.disarm fails) := (behaves_disarm _ fails).of_idle
  unfold drain
  split
  · cases answer with
    | count n =>
      dsimp only
      split
      · rw [Outcome.ok_andThen]
        cases c.connection.writeBuffer.consume n with
        | error | ok => exact behaves_same rfl rfl rfl rfl (by simp [ConnEvent.isCallback])
      · exact c.behaves_ok
    | failed =>
      dsimp only
      split
      · exact c.behaves_ok
      · split
        · exact hDisarm
        · exact (behaves_close _).of_idle
  · exact hDisarm

/-- Every call on a connection but `elsewhere`, which stands for the rest of the program. -/
theorem behaves_perform {a : ConnAction} (h : c.Enabled a) (hHere : ∀ loop, a ≠ .elsewhere loop) :
    Behaves c (c.perform a) := by
  cases a with
  | start fails => exact c.behaves_start fails
  | send data answer short fails =>
    have hPc : c.pc = .idle := by
      cases answer with
      | count => exact h.1
      | failed => exact h
    have hNot : c.pc ≠ .reading := by rw [hPc]; nofun
    exact (behaves_send hNot data answer short fails).after rfl hNot
  | close => exact c.behaves_close
  | setMessageCallback set =>
    exact behaves_same rfl rfl rfl rfl (by cases set <;> simp [perform, ConnEvent.isCallback])
  | setCloseCallback | useBuffer | handleRead | handleWrite =>
    exact behaves_same rfl rfl rfl rfl (by simp [perform])
  | recv answer short =>
    have hPc : c.pc = .reading := by
      cases answer with
      | data => exact h.1
      | failed => exact h
    exact behaves_recv hPc short answer
  | drain answer fails => exact c.behaves_drain answer fails
  | elsewhere loop => exact absurd rfl (hHere loop)

end Conn

end Tinycoro.Net
