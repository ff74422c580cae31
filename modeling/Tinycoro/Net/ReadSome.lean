import Tinycoro.Library.Transition
import Tinycoro.Library.History
import Tinycoro.Buffer.Queue
import Tinycoro.Net.TcpStream

/-! The coroutine `TcpStream::read_some` of several streams that read into one
buffer, among tasks that use the buffer themselves. Nothing else runs between two
suspensions of a coroutine, so a resumption is one step; its label holds the answers
of `::recv`. -/
namespace Tinycoro.Net.ReadSome

open Transition History Effect

variable {ι : Type}

inductive Pc where
  | idle
  | waiting (maxBytes : UInt64) (deadline : Deadline)
  deriving DecidableEq

/-- A stream and its `read_some`, if one is suspended. -/
structure Reader where
  fd : Int
  pc : Pc
  deriving DecidableEq

/-- The answer of `::recv`. No bytes is the end of the stream. -/
inductive Answer where
  | data (chunk : Bytes)
  | failed (errno : Nat)
  deriving DecidableEq

/-- A call begins and ends with the readable bytes of the buffer at that time.
`recv` is one call of `::recv` with the writable space it finds, the space it is
told of, and the bytes it takes from the socket. -/
inductive Event (ι : Type) where
  | began (i : ι) (maxBytes : UInt64) (old : Bytes)
  | recv (i : ι) (room maxBytes : UInt64) (chunk : Bytes)
  | waitReadable (i : ι) (fd : Int) (timeout : Duration)
  | returned (i : ι) (result : IoResult) (new : Bytes)
  | threw (i : ι) (e : StdError) (new : Bytes)
  | closed (i : ι)
  | used (op : BufferOp) (result : BufferResult)
  deriving DecidableEq

/-- `call` starts a `read_some` with the clock at its `Deadline` and at its first
wait, `resume` continues it; `short` and `refused` say that the buffer cannot grow and
that a wait cannot be armed. Another task closes a stream, whose `cancel` may throw,
or uses the buffer. -/
inductive Action (ι : Type) where
  | call (i : ι) (maxBytes : UInt64) (timeout : Duration) (start now : Int) (short : Bool)
      (refused : Option StdError) (answers : List Answer)
  | resume (i : ι) (ready : Bool) (now : Int) (refused : Option StdError) (answers : List Answer)
  | close (i : ι) (threw : Bool)
  | use (op : BufferOp)

/-- Store the bytes at `write_ptr()` and commit them. Of bytes that do not fit only
those inside the storage are kept. -/
def commit (output : RawBuffer) (chunk : Bytes) : BufferOutcome :=
  (BufferOp.write (chunk.take output.writable.toNat) (.ofNat chunk.length)).perform output

/-- The loop of `read_some` up to its end or to the next suspension. -/
def receive (i : ι) (fd : Int) (maxBytes : UInt64) (deadline : Deadline) (now : Int)
    (refused : Option StdError) (output : RawBuffer) :
    List Answer → Option (Pc × RawBuffer × List (Event ι))
  | [] => none
  | .data chunk :: _ =>
    if chunk.length ≤ maxBytes.toNat then
      let first := .recv i output.writable maxBytes chunk
      if chunk = [] then some (.idle, output, [first, .returned i ⟨.eof, 0, 0⟩ output.bytes])
      else
        let outcome := commit output chunk
        match outcome.error with
        | none =>
          some (.idle, outcome.state, [first, .returned i ⟨.ok, chunk.length, 0⟩
            outcome.state.bytes])
        | some e => some (.idle, outcome.state, [first, .threw i e outcome.state.bytes])
    else none
  | .failed errno :: answers =>
    let first := .recv i output.writable maxBytes []
    if errno = EINTR then
      (receive i fd maxBytes deadline now refused output answers).map
        (fun r => (r.1, r.2.1, first :: r.2.2))
    else if errno ≠ EAGAIN ∧ errno ≠ EWOULDBLOCK then
      some (.idle, output, [first, .returned i ⟨.error, 0, errno⟩ output.bytes])
    else match refused with
      | some e => some (.idle, output, [first, .threw i e output.bytes])
      | none =>
        some (.waiting maxBytes deadline, output, [first, .waitReadable i fd
          (deadline.remaining now)])

namespace Reader

/-- `read_some` from its start. -/
def call (r : Reader) (i : ι) (maxBytes : UInt64) (timeout : Duration) (start now : Int)
    (short : Bool) (refused : Option StdError) (output : RawBuffer) (answers : List Answer) :
    Option (Pc × RawBuffer × List (Event ι)) :=
  let first := .began i maxBytes output.bytes
  if r.pc ≠ .idle then none
  else if r.fd < 0 then some (.idle, output, [first, .returned i ⟨.closed, 0, EBADF⟩ output.bytes])
  else if maxBytes = 0 then some (.idle, output, [first, .returned i ⟨.ok, 0, 0⟩ output.bytes])
  else
    let outcome := (BufferOp.ensureWritable short maxBytes).perform output
    match outcome.error with
    | some e => some (.idle, outcome.state, [first, .threw i e outcome.state.bytes])
    | none =>
      (receive i r.fd maxBytes (.create timeout start) now refused outcome.state answers).map
        (fun r => (r.1, r.2.1, first :: r.2.2))

/-- `read_some` behind `co_await wait_readable`. -/
def resume (r : Reader) (i : ι) (ready : Bool) (now : Int) (refused : Option StdError)
    (output : RawBuffer) (answers : List Answer) : Option (Pc × RawBuffer × List (Event ι)) :=
  match r.pc with
  | .idle => none
  | .waiting maxBytes deadline =>
    if !ready then
      if r.fd < 0 then some (.idle, output, [.returned i ⟨.closed, 0, EBADF⟩ output.bytes])
      else some (.idle, output, [.returned i ⟨.timeout, 0, 0⟩ output.bytes])
    else if r.fd < 0 then some (.idle, output, [.returned i ⟨.closed, 0, EBADF⟩ output.bytes])
    else receive i r.fd maxBytes deadline now refused output answers

end Reader

structure State (ι : Type) where
  output : RawBuffer
  reader : ι → Reader

namespace State

variable [DecidableEq ι]

/-- The reader's coroutine has run up to `pc`. -/
def turn (s : State ι) (i : ι) (r : Pc × RawBuffer × List (Event ι)) : State ι × List (Event ι) :=
  (⟨r.2.1, Function.update s.reader i { s.reader i with pc := r.1 }⟩, r.2.2)

def next (s : State ι) : Action ι → Option (State ι × List (Event ι))
  | .call i maxBytes timeout start now short refused answers =>
    ((s.reader i).call i maxBytes timeout start now short refused s.output answers).map (s.turn i)
  | .resume i ready now refused answers =>
    ((s.reader i).resume i ready now refused s.output answers).map (s.turn i)
  | .close i threw =>
    if (s.reader i).fd < 0 ∨ threw then some (s, [])
    else some ({ s with reader := Function.update s.reader i { s.reader i with fd := -1 } },
      [.closed i])
  | .use op =>
    if op.Valid s.output then some ({ s with output := (op.perform s.output).state },
      [.used op (op.result s.output)])
    else none

end State

/-- Idle streams with the given descriptors and a buffer. -/
def machine [DecidableEq ι] (fd : ι → Int) (output : Buffer) :
    Machine (State ι) (Action ι) (Event ι) where
  start := ⟨output.toRaw, fun i => ⟨fd i, .idle⟩⟩
  next := State.next

/-- The bytes a stream took from its socket, in order. -/
def received [DecidableEq ι] (i : ι) (trace : List (Event ι)) : Bytes :=
  trace.flatMap fun
    | .recv j _ _ chunk => if j = i then chunk else []
    | _ => []

/-- A call in progress: what it asked for, the bytes it found and those it took. -/
structure Call where
  maxBytes : UInt64
  old : Bytes
  got : Bytes
  deriving DecidableEq

section Monitors

variable [DecidableEq ι]

/-- The call of a stream in progress, for as long as nobody else uses the buffer. -/
def track (i : ι) (call : Option Call) : Event ι → Option Call
  | .began j maxBytes old => if j = i then some ⟨maxBytes, old, []⟩ else none
  | .recv j _ _ chunk =>
      if j = i then call.map (fun c => { c with got := c.got ++ chunk }) else none
  | .waitReadable j _ _ => if j = i then call else none
  | .closed _ => call
  | .returned _ _ _ => none
  | .threw _ _ _ => none
  | .used _ _ => none

def current (i : ι) (trace : List (Event ι)) : Option Call := trace.foldl (track i) none

/-- Bytes are added to the buffer. -/
def Event.commits : Event ι → Bool
  | .recv _ _ _ chunk => chunk ≠ []
  | .used (.append _ (some _) len) (.ok _) => len ≠ 0
  | .used (.write _ n) (.ok _) => n ≠ 0
  | _ => false

/-- The space asked for by the last call of a stream, for as long as nobody adds
bytes. -/
def reserve (i : ι) (space : Option UInt64) : Event ι → Option UInt64
  | .began j maxBytes _ => if j = i then some maxBytes else space
  | e => if e.commits then none else space

def reserved (i : ι) (trace : List (Event ι)) : Option UInt64 := trace.foldl (reserve i) none

@[simp] theorem current_concat (i : ι) (trace : List (Event ι)) (e : Event ι) :
    current i (trace ++ [e]) = track i (current i trace) e := List.foldl_concat ..

@[simp] theorem reserved_concat (i : ι) (trace : List (Event ι)) (e : Event ι) :
    reserved i (trace ++ [e]) = reserve i (reserved i trace) e := List.foldl_concat ..

/-- What an ended call has done to the buffer. -/
structure Returns (call : Call) (result : IoResult) (new : Bytes) : Prop where
  appended : new = call.old ++ call.got
  ok : result.status = .ok → 0 < call.maxBytes →
    1 ≤ call.got.length ∧ call.got.length ≤ call.maxBytes.toNat ∧ result = ⟨.ok, call.got.length, 0⟩
  other : ¬ (result.status = .ok ∧ 0 < call.maxBytes) → call.got = []

/-- What each event says about the call it belongs to. -/
def Judged (past : List (Event ι)) : Event ι → Prop
  | .returned i result new => ∀ call, current i past = some call → Returns call result new
  | .threw i _ new =>
    (∀ call, current i past = some call → call.got = [] ∧ new = call.old) ∧
      ∀ room maxBytes chunk, past.getLast? = some (.recv i room maxBytes chunk) →
        chunk = [] ∨ room.toNat < chunk.length
  | .recv i room maxBytes chunk =>
    (∀ space, reserved i past = some space → space = maxBytes ∧ maxBytes ≤ room) ∧
      chunk.length ≤ maxBytes.toNat
  | _ => True

/-- A call of `maxBytes` bytes that is about to receive, or waits for it. -/
structure Ready (i : ι) (maxBytes : UInt64) (output : RawBuffer) (trace : List (Event ι)) :
  Prop where
  positive : 0 < maxBytes
  untouched : ∀ call, current i trace = some call →
    call = ⟨maxBytes, output.bytes, []⟩ ∧ maxBytes ≤ output.writable
  room : ∀ space, reserved i trace = some space → space = maxBytes ∧ maxBytes ≤ output.writable

end Monitors

theorem toNat_ofNat_length {chunk : Bytes} {maxBytes : UInt64} (h : chunk.length ≤ maxBytes.toNat) :
    (UInt64.ofNat chunk.length).toNat = chunk.length :=
  UInt64.toNat_ofNat_of_lt' (Nat.lt_of_le_of_lt h maxBytes.toNat_lt)

/-- Received bytes that fit are added at the end; others make `has_written` throw. -/
theorem commit_toRaw (b : Buffer) {chunk : Bytes} {maxBytes : UInt64}
    (h : chunk.length ≤ maxBytes.toNat) :
    (∃ b', commit b.toRaw chunk = .ok (Buffer.toRaw b') [] ∧ b'.bytes = b.bytes ++ chunk) ∨
      b.writable < chunk.length ∧
        ∃ b', commit b.toRaw chunk = .fail (.outOfRange "Buffer::has_written") (Buffer.toRaw b')
        [] := by
  have hCount := toNat_ofNat_length h
  have hFits : (chunk.take b.toRaw.writable.toNat).length ≤ b.writable := by
    rw [b.toNat_writable]
    exact List.length_take_le ..
  have hPerform : commit b.toRaw chunk = (b.writeDirect _ hFits).answer
      ((b.writeDirect _ hFits).hasWritten chunk.length) := by
    rw [commit, BufferOp.perform, b.writeDirect_toRaw _ hFits, Buffer.hasWritten_toRaw, hCount]
  by_cases hPast : chunk.length > (b.writeDirect _ hFits).writable
  · right
    rw [Buffer.hasWritten, dif_pos hPast] at hPerform
    rw [Buffer.writeDirect_writable] at hPast
    exact ⟨hPast, _, hPerform⟩
  · left
    rw [Buffer.hasWritten, dif_neg hPast] at hPerform
    refine ⟨_, hPerform, ?_⟩
    rw [Buffer.writeDirect_writable] at hPast
    have hTake : chunk.take b.toRaw.writable.toNat = chunk := by
      rw [b.toNat_writable, List.take_of_length_le (Nat.le_of_not_lt hPast)]
    rw [b.bytes_advanceWrite_writeDirect _ _ hFits (by rw [hTake])]
    simp [hTake]

section Room

variable (b : Buffer)

theorem writable_consume_le (n : UInt64) :
    b.toRaw.writable ≤ (b.toRaw.consume n).state.writable := by
  rw [b.consume_toRaw, UInt64.le_iff_toNat_le, b.toNat_writable]
  unfold Buffer.consume
  split_ifs
  · rw [Buffer.answer, Outcome.fail_state, b.toNat_writable]
  · rw [Buffer.answer, Outcome.ok_state, Buffer.toNat_writable]
    exact Nat.sub_le_sub_left (Nat.zero_le _) _
  · rw [Buffer.answer, Outcome.ok_state, Buffer.toNat_writable]
    exact Nat.le_refl _

theorem writable_room_le {len : Nat} {room : {room : Buffer // len ≤ room.writable}}
    (h : b.ensureWritable len = .ok room) : b.toRaw.writable ≤ room.val.toRaw.writable := by
  rw [UInt64.le_iff_toNat_le, b.toNat_writable, Buffer.toNat_writable]
  by_cases hRoom : b.writable ≥ len
  · rw [Buffer.ensureWritable, dif_pos hRoom] at h
    cases h
    exact Nat.le_refl _
  · have hHeld := room.property
    omega

theorem writable_ensureWritable_le (short : Bool) (len : UInt64) :
    b.toRaw.writable ≤ (b.toRaw.ensureWritable short len).state.writable := by
  rcases b.ensureWritable_toRaw short len with ⟨room, hRoom, hRaw⟩ | ⟨e, -, hRaw⟩
  · rw [hRaw, Outcome.ok_state]
    exact writable_room_le b hRoom
  · rw [hRaw, Outcome.fail_state]
    exact UInt64.le_refl _

theorem writable_write_le {data : Bytes} (hFits : data.length ≤ b.writable) {n : UInt64}
    (h : n = 0 ∨ ((b.toRaw.writeDirect data).hasWritten n).error ≠ none) :
    b.toRaw.writable ≤ ((b.toRaw.writeDirect data).hasWritten n).state.writable := by
  rw [b.writeDirect_toRaw data hFits, Buffer.hasWritten_toRaw] at h ⊢
  rw [UInt64.le_iff_toNat_le, b.toNat_writable]
  unfold Buffer.hasWritten at h ⊢
  split_ifs at h ⊢ with hPast
  · rw [Buffer.answer, Outcome.fail_state, Buffer.toNat_writable, Buffer.writeDirect_writable]
  · rcases h with rfl | hError
    · rw [Buffer.answer, Outcome.ok_state, Buffer.toNat_writable]
      exact Nat.le_of_eq (b.writeDirect_writable data hFits).symm
    · exact absurd rfl hError

/-- A call that adds no bytes takes no space away. -/
theorem writable_perform_le {op : BufferOp} (hValid : op.Valid b.toRaw)
    (h : (Event.used (ι := ι) op (op.result b.toRaw)).commits = false) :
    b.toRaw.writable ≤ (op.perform b.toRaw).state.writable := by
  unfold BufferOp.result at h
  cases op with
  | consume n => exact writable_consume_le b n
  | ensureWritable short len => exact writable_ensureWritable_le b short len
  | retrieveAllAsString =>
    rw [BufferOp.perform, RawBuffer.retrieveAllAsString]
    split_ifs
    · exact UInt64.le_refl _
    · exact UInt64.le_refl _
    · exact writable_consume_le b b.toRaw.readable
  | write data n =>
    refine writable_write_le b ?_ ?_
    · rw [← b.toNat_writable]
      exact hValid.1
    · cases hError : ((BufferOp.write data n).perform b.toRaw).error with
      | none =>
        rw [hError] at h
        exact .inl (by simpa [Event.commits] using h)
      | some =>
        refine .inr ?_
        rw [BufferOp.perform] at hError
        rw [hError]
        simp
  | append short data len =>
    by_cases hZero : len = 0
    · rw [BufferOp.perform, RawBuffer.append.eq_def, if_pos hZero]
      exact UInt64.le_refl _
    · cases data with
      | none =>
        rw [BufferOp.perform, RawBuffer.append, if_neg hZero]
        exact UInt64.le_refl _
      | some source =>
        cases hError : ((BufferOp.append short (some source) len).perform b.toRaw).error with
        | none =>
          rw [hError] at h
          exact absurd (by simpa [Event.commits] using h) hZero
        | some =>
          rw [BufferOp.perform, RawBuffer.append, if_neg hZero] at hError ⊢
          rcases b.ensureWritable_toRaw short len with ⟨room, -, hRaw⟩ | ⟨e', -, hRaw⟩
          · simp [hRaw] at hError
          · rw [hRaw, Outcome.fail_andThen]
            exact UInt64.le_refl _

end Room

section Receiving

variable [DecidableEq ι] {i : ι} {maxBytes : UInt64} {trace : List (Event ι)}

/-- The stream's own call has come to `pc` through these events. -/
structure Turned (i : ι) (before output : RawBuffer) (trace events : List (Event ι)) (pc : Pc) :
  Prop where
  wellFormed : ∃ b : Buffer, output = b.toRaw
  judged : Each (fun past => Judged (trace ++ past)) events
  ready : ∀ maxBytes deadline, pc = .waiting maxBytes deadline →
    Ready i maxBytes output (trace ++ events)
  others : ∀ j ≠ i, ∀ maxBytes, Ready j maxBytes before trace →
    Ready j maxBytes output (trace ++ events)

variable {output : RawBuffer} {e : Event ι} {pc : Pc} {events : List (Event ι)} {now : Int}
  {refused : Option StdError} {answers : List Answer}

/-- An event that leaves a call alone, or ends what is known of it. -/
theorem Ready.frame {j : ι} {space : UInt64} {output' : RawBuffer} (h : Ready j space output trace)
    (hTrack : track j (current j trace) e = none ∨
      output' = output ∧ track j (current j trace) e = current j trace)
    (hReserve : reserve j (reserved j trace) e = none ∨
      output.writable ≤ output'.writable ∧ reserve j (reserved j trace) e = reserved j trace) :
    Ready j space output' (trace ++ [e]) where
  positive := h.positive
  untouched := by
    rw [current_concat]
    rcases hTrack with hNone | ⟨rfl, hSame⟩
    · rw [hNone]
      exact nofun
    · rw [hSame]
      exact h.untouched
  room := by
    rw [reserved_concat]
    rcases hReserve with hNone | ⟨hLe, hSame⟩
    · rw [hNone]
      exact nofun
    · rw [hSame]
      intro held hHeld
      obtain ⟨rfl, hRoom⟩ := h.room held hHeld
      exact ⟨rfl, UInt64.le_trans hRoom hLe⟩

theorem Ready.recv (h : Ready i maxBytes output trace) :
    Judged trace (.recv i output.writable maxBytes []) ∧
      Ready i maxBytes output (trace ++ [.recv i output.writable maxBytes []]) where
  left := ⟨h.room, Nat.zero_le _⟩
  right :=
    { positive := h.positive
      untouched := by
        intro call hCall
        simp only [current_concat, track, if_pos, Option.map_eq_some_iff] at hCall
        obtain ⟨c, hCurrent, rfl⟩ := hCall
        obtain ⟨rfl, hRoom⟩ := h.untouched c hCurrent
        exact ⟨rfl, hRoom⟩
      room := by simpa [reserve, Event.commits] using h.room }

/-- A call that ends, or waits, right behind a `::recv` that took nothing. -/
theorem Ready.turned_of_nothing {b : Buffer} (h : Ready i maxBytes b.toRaw trace)
    (hOwn : ∀ call, track i call e = none ∨ track i call e = call)
    (hOthers : ∀ j ≠ i, ∀ call, track j call e = none)
    (hReserve : ∀ j space, reserve j space e = space)
    (hJudged : Judged (trace ++ [.recv i b.toRaw.writable maxBytes []]) e)
    (hPc : ∀ space deadline, pc = .waiting space deadline → space = maxBytes) :
    Turned i b.toRaw b.toRaw trace [.recv i b.toRaw.writable maxBytes [], e] pc := by
  obtain ⟨hRecv, hReady⟩ := h.recv
  refine ⟨⟨b, rfl⟩, by simpa using ⟨hRecv, hJudged⟩, ?_, ?_⟩
  · intro space deadline hWaiting
    obtain rfl := hPc space deadline hWaiting
    rw [List.append_cons]
    refine hReady.frame ?_ (.inr ⟨UInt64.le_refl _, hReserve ..⟩)
    exact (hOwn _).imp id fun hSame => ⟨rfl, hSame⟩
  · intro j hj space hOther
    rw [List.append_cons]
    refine Ready.frame (hOther.frame (.inl ?_) (.inr ⟨UInt64.le_refl _, ?_⟩))
      (.inl (hOthers j hj _)) (.inr ⟨UInt64.le_refl _, hReserve ..⟩)
    · simp [track, hj.symm]
    · simp [reserve, Event.commits]

/-- A call that ends right behind a `::recv` that took some bytes. -/
theorem turned_of_chunk {b b' : Buffer} {room : UInt64} {chunk : Bytes} (hChunk : chunk ≠ [])
    (hOthers : ∀ j ≠ i, ∀ call, track j call e = none)
    (hReserve : ∀ j space, reserve j space e = space)
    (hRecv : Judged trace (.recv i room maxBytes chunk))
    (hJudged : Judged (trace ++ [.recv i room maxBytes chunk]) e) :
    Turned i b.toRaw b'.toRaw trace [.recv i room maxBytes chunk, e] .idle := by
  refine ⟨⟨b', rfl⟩, by simpa using ⟨hRecv, hJudged⟩, nofun, ?_⟩
  intro j hj space hOther
  rw [List.append_cons]
  have hNone : ∀ held, reserve j held (.recv i room maxBytes chunk) = none := by
    simp [reserve, Event.commits, hChunk]
  have hAfter : Ready j space b'.toRaw (trace ++ [.recv i room maxBytes chunk]) :=
    hOther.frame (.inl (by simp [track, hj.symm])) (.inl (hNone _))
  exact hAfter.frame (.inl (hOthers j hj _)) (.inr ⟨UInt64.le_refl _, hReserve ..⟩)

theorem Ready.returns_nothing {status : IoStatus} {errno : Nat} (h : Ready i maxBytes output trace)
    (hStatus : status ≠ .ok) : Judged trace (.returned i ⟨status, 0, errno⟩ output.bytes) := by
  intro call hCall
  obtain ⟨rfl, -⟩ := h.untouched call hCall
  exact ⟨(List.append_nil _).symm, fun hOk => absurd hOk hStatus, fun _ => rfl⟩

theorem Ready.threw_nothing {e : StdError} (h : Ready i maxBytes output trace) :
    Judged (trace ++ [.recv i output.writable maxBytes []]) (.threw i e output.bytes) := by
  refine ⟨?_, ?_⟩
  · intro call hCall
    obtain ⟨rfl, -⟩ := h.recv.2.untouched call hCall
    exact ⟨rfl, rfl⟩
  · intro room space chunk hLast
    rw [List.getLast?_concat] at hLast
    cases hLast
    exact .inl rfl

/-- Received bytes are committed, unless others have used up the space. -/
theorem Ready.turned_of_data {b : Buffer} (h : Ready i maxBytes b.toRaw trace) {chunk : Bytes}
    (hChunk : chunk ≠ []) (hLength : chunk.length ≤ maxBytes.toNat)
    (hEvents : (match (commit b.toRaw chunk).error with
      | none => some (Pc.idle, (commit b.toRaw chunk).state,
          [.recv i b.toRaw.writable maxBytes chunk,
            .returned i ⟨.ok, chunk.length, 0⟩ (commit b.toRaw chunk).state.bytes])
      | some e => some (Pc.idle, (commit b.toRaw chunk).state,
          [.recv i b.toRaw.writable maxBytes chunk,
            .threw i e (commit b.toRaw chunk).state.bytes])) =
      some (pc, output, events)) : Turned i b.toRaw output trace events pc := by
  have hCall : ∀ call, current i (trace ++ [.recv i b.toRaw.writable maxBytes chunk]) = some call →
      call = ⟨maxBytes, b.bytes, chunk⟩ ∧ chunk.length ≤ b.writable := by
    intro call hCall
    simp only [current_concat, track, if_pos, Option.map_eq_some_iff] at hCall
    obtain ⟨c, hCurrent, rfl⟩ := hCall
    obtain ⟨rfl, hRoom⟩ := h.untouched c hCurrent
    rw [UInt64.le_iff_toNat_le, b.toNat_writable] at hRoom
    exact ⟨by rw [b.bytes_toRaw, List.nil_append], hLength.trans hRoom⟩
  rcases commit_toRaw b hLength with ⟨b', hCommit, hBytes⟩ | ⟨hPast, b', hCommit⟩
  · simp only [hCommit, Outcome.ok_error, Outcome.ok_state] at hEvents
    cases hEvents
    refine turned_of_chunk hChunk (fun _ _ _ => rfl) (fun _ _ => rfl) ⟨h.room, hLength⟩ ?_
    intro call hCurrent
    obtain ⟨rfl, -⟩ := hCall call hCurrent
    refine ⟨by rw [b'.bytes_toRaw, hBytes], fun _ _ => ⟨?_, hLength, rfl⟩, fun hNot => ?_⟩
    · exact List.length_pos_iff.mpr hChunk
    · exact absurd ⟨rfl, h.positive⟩ hNot
  · simp only [hCommit, Outcome.fail_error, Outcome.fail_state] at hEvents
    cases hEvents
    refine turned_of_chunk hChunk (fun _ _ _ => rfl) (fun _ _ => rfl) ⟨h.room, hLength⟩ ⟨?_, ?_⟩
    · intro call hCurrent
      have hFits := (hCall call hCurrent).2
      omega
    · intro room space chunk' hLast
      rw [List.getLast?_concat] at hLast
      cases hLast
      rw [b.toNat_writable]
      exact .inr hPast

/-- An event in front of the others. -/
theorem Turned.cons {before middle : RawBuffer}
    (h : Turned i middle output (trace ++ [e]) events pc) (hJudged : Judged trace e)
    (hOthers : ∀ j ≠ i, ∀ space, Ready j space before trace → Ready j space middle (trace ++ [e])) :
    Turned i before output trace (e :: events) pc where
  wellFormed := h.wellFormed
  judged := by
    rw [each_cons]
    exact ⟨by simpa using hJudged, by simpa using h.judged⟩
  ready := by simpa using h.ready
  others := by
    intro j hj space hOther
    simpa using h.others j hj space (hOthers j hj space hOther)

/-- The loop of `read_some` keeps its promise whatever `::recv` answers. -/
theorem receive_turned {fd : Int} {deadline : Deadline} {b : Buffer}
    (hReady : Ready i maxBytes b.toRaw trace)
    (h : receive i fd maxBytes deadline now refused b.toRaw answers = some (pc, output, events)) :
    Turned i b.toRaw output trace events pc := by
  induction answers generalizing trace pc output events with
  | nil => cases h
  | cons answer answers ih =>
    cases answer with
    | data chunk =>
      simp only [receive] at h
      split at h
      · rename_i hLength
        split at h
        · rename_i hEmpty
          subst hEmpty
          cases h
          exact hReady.turned_of_nothing (fun _ => .inl rfl) (fun _ _ _ => rfl) (fun _ _ => rfl)
            (hReady.recv.2.returns_nothing nofun) nofun
        · rename_i hSome
          exact hReady.turned_of_data hSome hLength h
      · cases h
    | failed =>
      simp only [receive] at h
      split at h
      · obtain ⟨⟨pc', output', events'⟩, hRest, hEq⟩ := Option.map_eq_some_iff.mp h
        cases hEq
        refine (ih hReady.recv.2 hRest).cons hReady.recv.1 ?_
        intro j hj space hOther
        exact hOther.frame (.inl (by simp [track, hj.symm]))
          (.inr ⟨UInt64.le_refl _, by simp [reserve, Event.commits]⟩)
      · split at h
        · cases h
          exact hReady.turned_of_nothing (fun _ => .inl rfl) (fun _ _ _ => rfl) (fun _ _ => rfl)
            (hReady.recv.2.returns_nothing nofun) nofun
        · cases refused with
          | some =>
            cases h
            exact hReady.turned_of_nothing (fun _ => .inl rfl) (fun _ _ _ => rfl) (fun _ _ => rfl)
              hReady.threw_nothing nofun
          | none =>
            cases h
            refine hReady.turned_of_nothing (fun _ => .inr (by simp [track])) ?_ (fun _ _ => rfl)
              trivial ?_
            · intro j hj call
              simp [track, hj.symm]
            · intro space deadline hWaiting
              cases hWaiting
              rfl

/-- A call that ends without another `::recv`, the buffer as it was. -/
theorem turned_of_end {b : Buffer} (hTrack : ∀ j call, track j call e = none)
    (hReserve : ∀ j space, reserve j space e = space) (hJudged : Judged trace e) :
    Turned i b.toRaw b.toRaw trace [e] .idle where
  wellFormed := ⟨b, rfl⟩
  judged := by simpa using hJudged
  ready := nofun
  others := fun j _ _ hOther => hOther.frame (.inl (hTrack j _))
    (.inr ⟨UInt64.le_refl _, hReserve j _⟩)

/-- A call up to its end or its first suspension does what its events say. -/
theorem call_turned (trace : List (Event ι)) {r : Reader} {timeout : Duration} {start : Int}
    {short : Bool} {b : Buffer}
    (h : r.call i maxBytes timeout start now short refused b.toRaw answers =
      some (pc, output, events)) : Turned i b.toRaw output trace events pc := by
  have hCurrent : ∀ call, current i (trace ++ [.began i maxBytes b.toRaw.bytes]) = some call →
      call = ⟨maxBytes, b.toRaw.bytes, []⟩ := by
    intro call hCall
    simpa [track, eq_comm] using hCall
  have hOthers : ∀ middle : RawBuffer, b.toRaw.writable ≤ middle.writable → ∀ j ≠ i, ∀ space,
      Ready j space b.toRaw trace → Ready j space middle
      (trace ++ [.began i maxBytes b.toRaw.bytes]) := by
    intro middle hLe j hj space hOther
    exact hOther.frame (.inl (by simp [track, hj.symm])) (.inr ⟨hLe, by simp [reserve, hj.symm]⟩)
  unfold Reader.call at h
  split at h
  · cases h
  split at h
  · cases h
    refine Turned.cons (turned_of_end (fun _ _ => rfl) (fun _ _ => rfl) ?_) trivial
      (hOthers _ (UInt64.le_refl _))
    intro call hCall
    obtain rfl := hCurrent call hCall
    exact ⟨(List.append_nil _).symm, nofun, fun _ => rfl⟩
  split at h
  · rename_i hZero
    cases h
    refine Turned.cons (turned_of_end (fun _ _ => rfl) (fun _ _ => rfl) ?_) trivial
      (hOthers _ (UInt64.le_refl _))
    intro call hCall
    obtain rfl := hCurrent call hCall
    exact ⟨(List.append_nil _).symm, fun _ hPos => absurd hZero.symm (UInt64.ne_of_lt hPos),
      fun _ => rfl⟩
  rename_i hPositive
  rcases b.ensureWritable_toRaw short maxBytes with ⟨room, hRoom, hRaw⟩ | ⟨e, -, hRaw⟩
  · simp only [BufferOp.perform, hRaw, Outcome.ok_error, Outcome.ok_state] at h
    obtain ⟨⟨pc', output', events'⟩, hReceive, hEq⟩ := Option.map_eq_some_iff.mp h
    cases hEq
    refine (receive_turned ?_ hReceive).cons trivial (hOthers _ (writable_room_le b hRoom))
    have hHeld : maxBytes ≤ room.val.toRaw.writable := by
      rw [UInt64.le_iff_toNat_le, Buffer.toNat_writable]
      exact room.property
    refine ⟨UInt64.pos_iff_ne_zero.mpr hPositive, ?_, ?_⟩
    · intro call hCall
      obtain rfl := hCurrent call hCall
      rw [Buffer.bytes_toRaw, Buffer.bytes_toRaw, Buffer.bytes_ensureWritable hRoom]
      exact ⟨rfl, hHeld⟩
    · intro space hSpace
      simp only [reserved_concat, reserve, if_pos, Option.some.injEq] at hSpace
      exact ⟨hSpace.symm, hHeld⟩
  · simp only [BufferOp.perform, hRaw, Outcome.fail_error, Outcome.fail_state] at h
    cases h
    refine Turned.cons (turned_of_end (fun _ _ => rfl) (fun _ _ => rfl) ⟨?_, ?_⟩) trivial
      (hOthers _ (UInt64.le_refl _))
    · intro call hCall
      obtain rfl := hCurrent call hCall
      exact ⟨rfl, rfl⟩
    · intro room space chunk hLast
      rw [List.getLast?_concat] at hLast
      cases hLast

theorem resume_turned {r : Reader} {ready : Bool} {b : Buffer}
    (hReady : ∀ maxBytes deadline, r.pc = .waiting maxBytes deadline →
      Ready i maxBytes b.toRaw trace)
    (h : r.resume i ready now refused b.toRaw answers = some (pc, output, events)) :
    Turned i b.toRaw output trace events pc := by
  unfold Reader.resume at h
  cases hPc : r.pc with
  | idle =>
    simp only [hPc] at h
    cases h
  | waiting maxBytes deadline =>
    have hHeld := hReady maxBytes deadline hPc
    simp only [hPc] at h
    split_ifs at h
    · cases h
      exact turned_of_end (fun _ _ => rfl) (fun _ _ => rfl) (hHeld.returns_nothing nofun)
    · cases h
      exact turned_of_end (fun _ _ => rfl) (fun _ _ => rfl) (hHeld.returns_nothing nofun)
    · cases h
      exact turned_of_end (fun _ _ => rfl) (fun _ _ => rfl) (hHeld.returns_nothing nofun)
    · exact receive_turned hHeld h

end Receiving

section Runs

variable [DecidableEq ι] {s s' : State ι} {trace events : List (Event ι)}

structure Inv (s : State ι) (trace : List (Event ι)) : Prop where
  wellFormed : ∃ b : Buffer, s.output = b.toRaw
  waiting : ∀ i maxBytes deadline, (s.reader i).pc = .waiting maxBytes deadline →
    Ready i maxBytes s.output trace
  judged : Each Judged trace

theorem Inv.turn (h : Inv s trace) {i : ι} {r : Pc × RawBuffer × List (Event ι)}
    (hTurned : Turned i s.output r.2.1 trace r.2.2 r.1) :
    Inv (s.turn i r).1 (trace ++ (s.turn i r).2) where
  wellFormed := hTurned.wellFormed
  waiting := by
    intro j maxBytes deadline hPc
    by_cases hj : j = i
    · subst hj
      simp only [State.turn, Function.update_self] at hPc
      exact hTurned.ready maxBytes deadline hPc
    · simp only [State.turn, Function.update_of_ne hj] at hPc
      exact hTurned.others j hj maxBytes (h.waiting j maxBytes deadline hPc)
  judged := each_append.mpr ⟨h.judged, hTurned.judged⟩

/-- Every step keeps the buffer well formed and a suspended call with the space it asked for. -/
theorem Inv.next (h : Inv s trace) {a : Action ι} (hNext : s.next a = some (s', events)) :
    Inv s' (trace ++ events) := by
  obtain ⟨b, hOutput⟩ := h.wellFormed
  cases a with
  | call =>
    obtain ⟨⟨pc, output, events'⟩, hCall, hEq⟩ := Option.map_eq_some_iff.mp hNext
    rw [hOutput] at hCall
    have hTurned := call_turned trace hCall
    rw [← hOutput] at hTurned
    have hInv := h.turn (r := (pc, output, events')) hTurned
    rwa [hEq] at hInv
  | resume i =>
    obtain ⟨⟨pc, output, events'⟩, hResume, hEq⟩ := Option.map_eq_some_iff.mp hNext
    rw [hOutput] at hResume
    have hTurned := resume_turned (hOutput ▸ h.waiting i) hResume
    rw [← hOutput] at hTurned
    have hInv := h.turn (r := (pc, output, events')) hTurned
    rwa [hEq] at hInv
  | close i =>
    simp only [State.next] at hNext
    split at hNext
    · cases hNext
      rwa [List.append_nil]
    · cases hNext
      refine ⟨h.wellFormed, ?_, each_append.mpr ⟨h.judged, by simp [Judged]⟩⟩
      intro j maxBytes deadline hPc
      have hWas : (s.reader j).pc = .waiting maxBytes deadline := by
        by_cases hj : j = i
        · subst hj
          simpa using hPc
        · simpa [Function.update_of_ne hj] using hPc
      exact (h.waiting j maxBytes deadline hWas).frame (.inr ⟨rfl, rfl⟩)
        (.inr ⟨UInt64.le_refl _, rfl⟩)
  | use op =>
    simp only [State.next] at hNext
    split at hNext
    · rename_i hValid
      cases hNext
      rw [hOutput] at hValid
      obtain ⟨b', hServed⟩ := served b op hValid
      refine ⟨⟨b', by rw [hOutput]; exact hServed.state⟩, ?_,
        each_append.mpr ⟨h.judged, by simp [Judged]⟩⟩
      intro j maxBytes deadline hPc
      refine (h.waiting j maxBytes deadline hPc).frame (.inl rfl) ?_
      cases hCommits : (Event.used (ι := ι) op (op.result s.output)).commits with
      | true => exact .inl (by simp [reserve, hCommits])
      | false =>
        refine .inr ⟨?_, by simp [reserve, hCommits]⟩
        rw [hOutput] at hCommits ⊢
        exact writable_perform_le b hValid hCommits
    · cases hNext

theorem Inv.of_reaches {fd : ι → Int} {output : Buffer} (h : (machine fd output).Reaches s trace) :
    Inv s trace :=
  h.invariant (P := Inv) ⟨⟨output, rfl⟩, nofun, each_nil⟩ (fun _ hInv hNext => hInv.next hNext)

end Runs

end Tinycoro.Net.ReadSome
