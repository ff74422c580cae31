import Tinycoro.Net.Lifecycle

/-! The output of a connection. What the kernel has accepted, followed by what waits in
the write buffer, is what was passed to `send`, in order: the direct path of `send` is
taken only when nothing waits. What the write buffer refuses to take is lost, behind
whatever part of its payload the kernel has accepted. Between calls the event loop is
asked for writability exactly when something waits. -/
namespace Tinycoro.Net

open Effect Transition

/-- What was passed to `send`, in call order. -/
def payloads (trace : List ConnEvent) : Bytes :=
  trace.flatMap fun
    | .payload data => data
    | _ => []

/-- What the kernel has accepted, in order. -/
def acceptedBytes (trace : List ConnEvent) : Bytes :=
  trace.flatMap fun
    | .accepted chunk => chunk
    | _ => []

theorem payloads_append (trace events : List ConnEvent) :
    payloads (trace ++ events) = payloads trace ++ payloads events := List.flatMap_append

theorem acceptedBytes_append (trace events : List ConnEvent) :
    acceptedBytes (trace ++ events) = acceptedBytes trace ++ acceptedBytes events :=
  List.flatMap_append

namespace Conn

/-- The interest that the kernel has for the connection's descriptor. -/
def request (c : Conn) : Option Io.EpollEvents :=
  (c.loop.kernel.registered c.connection.channel.fd).map Io.Registration.request

/-- The write buffer has taken whatever `send` put into it. -/
def Kept (trace : List ConnEvent) : Prop := ∀ e, .threw (.writeBuffer e) ∉ trace

theorem kept_nil : Kept [] := fun _ => List.not_mem_nil

/-- What is left of the payloads: all of them in order, or less if something was not kept. -/
structure Accounted (trace : List ConnEvent) (there : Bytes) : Prop where
  whole : Kept trace → there = payloads trace
  short : ¬Kept trace → there.length < (payloads trace).length

namespace Accounted

variable {trace events : List ConnEvent} {there rest data : Bytes}

theorem frame (h : Accounted trace there) (hPayloads : payloads events = []) (hKept : Kept events) :
    Accounted (trace ++ events) there := by
  have hSame : payloads (trace ++ events) = payloads trace := by
    rw [payloads_append, hPayloads, List.append_nil]
  have hBefore : Kept trace → Kept (trace ++ events) := fun hTrace e hMem =>
    (List.mem_append.mp hMem).elim (hTrace e) (hKept e)
  refine ⟨fun hAll => ?_, fun hNot => ?_⟩
  · rw [hSame]
    exact h.whole (fun e hMem => hAll e (List.mem_append_left _ hMem))
  · rw [hSame]
    exact h.short (mt hBefore hNot)

/-- A call of `send` puts its payload behind everything else. -/
theorem payload (h : Accounted trace there) (data : Bytes) :
    Accounted (trace ++ [.payload data]) (there ++ data) := by
  have hMore : payloads (trace ++ [.payload data]) = payloads trace ++ data := by simp [payloads]
  have hKept : Kept (trace ++ [.payload data]) ↔ Kept trace := by simp [Kept]
  refine ⟨fun hAll => ?_, fun hNot => ?_⟩
  · rw [hMore, h.whole (hKept.mp hAll)]
  · have hShort := h.short (mt hKept.mpr hNot)
    rw [hMore, List.length_append, List.length_append]
    omega

/-- What the write buffer refuses is missing from then on. -/
theorem refused (h : Accounted trace (there ++ rest)) (hSome : rest ≠ []) (e : StdError) :
    Accounted (trace ++ [.threw (.writeBuffer e)]) there := by
  have hSame : payloads (trace ++ [.threw (.writeBuffer e)]) = payloads trace := by simp [payloads]
  have hLength : (there ++ rest).length ≤ (payloads trace).length := by
    by_cases hKept : Kept trace
    · rw [h.whole hKept]
    · exact Nat.le_of_lt (h.short hKept)
  have hPos := List.length_pos_iff_ne_nil.mpr hSome
  refine ⟨fun hAll => absurd (List.mem_append_right _ (List.mem_singleton_self _)) (hAll e),
    fun _ => ?_⟩
  rw [List.length_append] at hLength
  rw [hSame]
  omega

end Accounted

/-- The output of an open connection, with `rest` still to be put behind it. Inside
`handle_write` the interest may be more than what is needed. -/
structure Output (c : Conn) (trace : List ConnEvent) (rest : Bytes) : Prop where
  stream : Accounted trace (acceptedBytes trace ++ c.connection.writeBuffer.bytes ++ rest)
  request : c.request = some (Io.toEpollEvents c.connection.channel.interest)
  armed : c.connection.writeBuffer.bytes ≠ [] → c.connection.channel.interest.write = true
  needed : c.pc ≠ .writing → c.connection.channel.interest.write = true →
    c.connection.writeBuffer.bytes ≠ []

/-- Whatever the call throws, it is not from the event loop. -/
def LoopKept (o : ConnOutcome) : Prop := ∀ e, o.error ≠ some (.loop e)

section Calls

variable {c : Conn} {trace : List ConnEvent} {rest data : Bytes}

/-- What does not concern the output. -/
theorem Output.frame {c' : Conn} {events : List ConnEvent} (h : Output c trace rest)
    (hBuffer : c'.connection.writeBuffer = c.connection.writeBuffer)
    (hChannel : c'.connection.channel = c.connection.channel) (hRequest : c'.request = c.request)
    (hPc : c'.pc ≠ .writing → c.pc ≠ .writing) (hPayloads : payloads events = [])
    (hAccepted : acceptedBytes events = []) (hKept : Kept events) :
    Output c' (trace ++ events) rest where
  stream := by
    rw [acceptedBytes_append, hAccepted, List.append_nil, hBuffer]
    exact h.stream.frame hPayloads hKept
  request := by rw [hRequest, hChannel, h.request]
  armed := by
    rw [hBuffer, hChannel]
    exact h.armed
  needed := by
    rw [hBuffer, hChannel]
    exact fun hNot => h.needed (hPc hNot)

variable {fails : Bool}

/-- `update_channel` throws for the event loop, or the kernel has the interest that was
set. -/
theorem request_update {interest : Io.Interest} (h : LoopKept (c.update fails interest)) :
    (c.update fails interest).state.request = some (Io.toEpollEvents interest) ∧
      (c.update fails interest).state.connection = { c.connection with channel.interest :=
      interest } ∧
      (report (c.update fails interest)).2 = [] := by
  simp only [LoopKept, update] at h ⊢
  cases hUpdate : c.loop.updateChannel fails { c.connection.channel with interest } with
  | error e =>
    simp only [hUpdate] at h
    exact absurd rfl (h e)
  | ok =>
    obtain ⟨r, hRegistered, rfl⟩ := Io.EventLoop.updateChannel_ok hUpdate
    refine ⟨?_, rfl, rfl⟩
    simp [Conn.request]

theorem Output.update {interest : Io.Interest}
    (hStream : Accounted trace (acceptedBytes trace ++ c.connection.writeBuffer.bytes))
    (hInterest : interest.write = true ↔ c.connection.writeBuffer.bytes ≠ [])
    (hLoop : LoopKept (c.update fails interest)) :
    Output (c.update fails interest).state (trace ++ (report (c.update fails interest)).2) [] := by
  obtain ⟨hRequest, hConnection, hEvents⟩ := request_update hLoop
  refine ⟨?_, ?_, ?_, ?_⟩
  · rw [hEvents, hConnection, List.append_nil, List.append_nil]
    exact hStream
  · rw [hRequest, hConnection]
  · rw [hConnection]
    exact hInterest.mpr
  · rw [hConnection]
    exact fun _ => hInterest.mp

theorem Output.enqueue {short : Bool} (h : Output c trace data)
    (hOpen : c.connection.closed = false) (hLoop : LoopKept (c.enqueue short fails data)) :
    Output (c.enqueue short fails data).state (trace ++ (report (c.enqueue short fails data)).2)
      [] := by
  unfold Conn.enqueue at hLoop ⊢
  by_cases hSome : data.length > 0
  · have hBoth : data.length > 0 ∧ ¬ c.connection.closed = true := ⟨hSome, by simp [hOpen]⟩
    rw [if_pos hBoth] at hLoop ⊢
    cases hAppend : c.connection.writeBuffer.appendOr short data with
    | error e =>
      -- the bytes that the buffer does not take are lost; nothing else changes
      refine ⟨?_, h.request, h.armed, h.needed⟩
      have hGone := h.stream.refused (List.length_pos_iff_ne_nil.mp hSome) e
      simpa [report, acceptedBytes] using hGone
    | ok =>
      simp only [hAppend] at hLoop ⊢
      have hBytes := Buffer.bytes_appendOr hAppend
      refine Output.update ?_ ?_ hLoop
      · rw [hBytes, ← List.append_assoc]
        exact h.stream
      · refine ⟨fun _ => ?_, fun _ => rfl⟩
        rw [hBytes, ← List.length_pos_iff_ne_nil, List.length_append]
        omega
  · have hEmpty : data = [] := List.length_eq_zero_iff.mp (by omega)
    subst hEmpty
    rw [if_neg (fun hBoth => hSome hBoth.1)]
    exact h.frame rfl rfl rfl id rfl rfl kept_nil

/-- `send` hands to the kernel or keeps in the buffer every byte of its data, in order. -/
theorem Output.send {answer : Transfer} {short : Bool} (h : Output c trace data)
    (hOpen : c.connection.closed = false)
    (hOpen' : (c.send data answer short fails).state.connection.closed = false)
    (hLoop : LoopKept (c.send data answer short fails)) :
    Output (c.send data answer short fails).state (trace ++
      (report (c.send data answer short fails)).2) [] := by
  unfold Conn.send at hOpen' hLoop ⊢
  by_cases hEmpty : data.length = 0
  · rw [if_pos (.inr hEmpty)]
    rw [List.length_eq_zero_iff.mp hEmpty] at h
    exact h.frame rfl rfl rfl id rfl rfl kept_nil
  · have hNot : ¬ (c.connection.closed = true ∨ data.length = 0) := by simp [hOpen, hEmpty]
    rw [if_neg hNot] at hOpen' hLoop ⊢
    by_cases hIdle : c.connection.writeBuffer.readable = 0
    · rw [if_pos hIdle] at hOpen' hLoop ⊢
      cases answer with
      | count n =>
        -- nothing waits, so what the kernel takes now comes right behind what it has
        have hNothing : c.connection.writeBuffer.bytes = [] := by
          rw [← List.length_eq_zero_iff, Buffer.length_bytes, hIdle]
        have hDirect : Output c (trace ++ [.accepted (data.take n)]) (data.drop n) := by
          refine ⟨?_, h.request, h.armed, h.needed⟩
          have hStream : Accounted (trace ++ [.accepted (data.take n)]) _ :=
            h.stream.frame rfl (by simp [Kept])
          rw [hNothing, List.append_nil] at hStream ⊢
          simpa [acceptedBytes] using hStream
        have hRest := hDirect.enqueue hOpen hLoop
        simpa [report] using hRest
      | failed errno =>
        dsimp only at hOpen' hLoop ⊢
        split at hOpen'
        · rw [closed_close] at hOpen'
          cases hOpen'
        · rename_i hSoft
          rw [if_neg hSoft] at hLoop ⊢
          exact h.enqueue hOpen hLoop
    · rw [if_neg hIdle] at hLoop ⊢
      exact h.enqueue hOpen hLoop

/-- At the end of `handle_write` the interest is again what is needed. -/
theorem Output.disarm (h : Output c trace []) (hOpen : c.connection.closed = false)
    (hLoop : LoopKept ({ c with pc := .idle }.disarm fails)) :
    Output ({ c with pc := .idle }.disarm fails).state
      (trace ++ (report ({ c with pc := .idle }.disarm fails)).2) [] := by
  unfold Conn.disarm at hLoop ⊢
  by_cases hEmpty : c.connection.writeBuffer.readable = 0
  · have hBoth : ¬ c.connection.closed = true ∧ c.connection.writeBuffer.readable = 0 :=
      ⟨by simp [hOpen], hEmpty⟩
    have hNothing : c.connection.writeBuffer.bytes = [] := by
      rw [← List.length_eq_zero_iff, Buffer.length_bytes, hEmpty]
    have hStream := h.stream
    rw [List.append_nil] at hStream
    rw [if_pos hBoth] at hLoop ⊢
    exact Output.update hStream (by simp [hNothing]) hLoop
  · have hWaits : c.connection.writeBuffer.bytes ≠ [] := by
      rw [← List.length_pos_iff_ne_nil, Buffer.length_bytes]
      omega
    rw [if_neg (fun hBoth => hEmpty hBoth.2), report_of_none rfl]
    simp only [Outcome.ok_state, Outcome.ok_events, List.append_nil]
    exact ⟨h.stream, h.request, h.armed, fun _ _ => hWaits⟩

/-- A turn of `handle_write` moves bytes from the buffer to the kernel and loses none. -/
theorem Output.drain {answer : Transfer} (h : Output c trace []) (hPc : c.pc = .writing)
    (hCount : ∀ n, answer = .count n → n ≤ c.connection.writeBuffer.readable)
    (hOpen : c.connection.closed = false)
    (hOpen' : (c.drain answer fails).state.connection.closed = false)
    (hLoop : LoopKept (c.drain answer fails)) :
    Output (c.drain answer fails).state (trace ++ (report (c.drain answer fails)).2) [] := by
  unfold Conn.drain at hOpen' hLoop ⊢
  by_cases hSome : c.connection.writeBuffer.readable > 0
  · rw [if_pos hSome] at hOpen' hLoop ⊢
    cases answer with
    | count n =>
      dsimp only at hLoop ⊢
      split_ifs at hLoop ⊢
      · obtain ⟨b, hConsume, hBytes, -⟩ := c.connection.writeBuffer.consume_ok n (hCount n rfl)
        simp only [Outcome.ok_andThen, hConsume, report]
        refine ⟨?_, h.request, fun hMore => h.armed ?_, fun hNot => absurd hPc hNot⟩
        · have hStream :
              Accounted (trace ++ [.accepted (c.connection.writeBuffer.bytes.take n)]) _ :=
            h.stream.frame rfl (by simp [Kept])
          simpa [acceptedBytes, hBytes] using hStream
        · rintro hNil
          simp only [Outcome.ok_state, hBytes, hNil, List.drop_nil] at hMore
          exact hMore rfl
      · exact h.frame rfl rfl rfl id rfl rfl kept_nil
    | failed =>
      dsimp only at hOpen' hLoop ⊢
      split_ifs at hOpen' hLoop ⊢ with hIntr hAgain
      · exact h.frame rfl rfl rfl id rfl rfl kept_nil
      · exact h.disarm hOpen hLoop
      · rw [closed_close] at hOpen'
        cases hOpen'
  · rw [if_neg hSome] at hLoop ⊢
    exact h.disarm hOpen hLoop

/-- One step of an open connection that stays open. -/
theorem Output.perform {a : ConnAction} (h : Output c trace []) (hLive : Live c)
    (hEnabled : c.Enabled a) (hOpen : c.connection.closed = false)
    (hOpen' : (c.perform a).state.connection.closed = false) (hLoop : LoopKept (c.perform a)) :
    Output (c.perform a).state (trace ++ (report (c.perform a)).2) [] := by
  cases a with
  | start fails =>
    have hStarted : c.connection.started = true := by
      have hEq : c.connection.started = !c.connection.closed := hLive.life.started
      rw [hEq, hOpen]
      rfl
    have hStart : c.perform (.start fails) = .fail
        (.std (.logicError "connection cannot be started")) c [] :=
      if_pos (.inl hStarted)
    rw [hStart]
    exact h.frame rfl rfl rfl id rfl rfl (by simp [Kept, report])
  | send data =>
    have hPayload : Output c (trace ++ [.payload data]) data := by
      refine ⟨?_, h.request, h.armed, h.needed⟩
      have hStream := h.stream.payload data
      rw [acceptedBytes_append]
      simpa [acceptedBytes] using hStream
    have hSend := hPayload.send hOpen hOpen' hLoop
    rwa [List.append_assoc] at hSend
  | close =>
    have hClosed := c.closed_close
    exact Bool.noConfusion (hClosed.symm.trans hOpen')
  | setMessageCallback set =>
      cases set <;> exact h.frame rfl rfl rfl id rfl rfl (by simp [Kept, report, Conn.perform])
  | setCloseCallback | useBuffer => exact h.frame rfl rfl rfl id rfl rfl kept_nil
  | handleRead | handleWrite =>
    exact h.frame rfl rfl rfl (fun _ => by simp [hEnabled.1]) rfl rfl kept_nil
  | recv answer short =>
    have hReading : c.pc = .reading := by
      cases answer with
      | data => exact hEnabled.1
      | failed => exact hEnabled
    have hPc : c.pc ≠ .writing := by
      simp [hReading]
    rcases c.recv_cases short answer with ⟨_, e, hRecv⟩ | ⟨_, b, hRecv, _⟩ | hRecv | hRecv | hRecv
    · rw [show c.perform (.recv answer short) = _ from hRecv]
      exact h.frame rfl rfl rfl (fun _ => hPc) rfl rfl (by simp [Kept, report])
    · rw [show c.perform (.recv answer short) = _ from hRecv]
      exact h.frame rfl rfl rfl (fun _ => hPc) rfl rfl (by simp [Kept, report])
    · rw [show c.perform (.recv answer short) = _ from hRecv]
      exact h.frame rfl rfl rfl (fun _ => hPc) rfl rfl kept_nil
    · rw [show c.perform (.recv answer short) = _ from hRecv]
      unfold Conn.deliver
      split <;> exact h.frame rfl rfl rfl (fun _ => hPc) rfl rfl (by simp [Kept, report])
    · rw [show c.perform (.recv answer short) = _ from hRecv, closed_close] at hOpen'
      cases hOpen'
  | drain answer =>
    have hPc : c.pc = .writing := by
      cases answer with
      | count => exact hEnabled.1
      | failed => exact hEnabled
    refine h.drain hPc ?_ hOpen hOpen' hLoop
    rintro n rfl
    exact hEnabled.2
  | elsewhere => exact h.frame rfl rfl hEnabled.2 id rfl rfl kept_nil

theorem Output.of_reaches {start : Conn} (hLive : Live start) (hStart : Output start [] [])
    (h : (connectionMachine start).Reaches c trace) (hLoop : ∀ e, .threw (.loop e) ∉ trace)
    (hOpen : c.connection.closed = false) : Output c trace [] := by
  induction h with
  | start => exact hStart
  | step prior last ih =>
    have hLive' := Live.of_reaches hLive prior
    obtain ⟨hEnabled, rfl, rfl⟩ := of_next last
    have hBefore := (fate_perform hEnabled).open_of_open hOpen
    refine (ih (fun e hMem => hLoop e (List.mem_append_left _ hMem)) hBefore).perform hLive'
      hEnabled hBefore hOpen ?_
    intro e hError
    exact hLoop e (List.mem_append_right _ (by simp [report, hError]))

end Calls

end Conn

end Tinycoro.Net
