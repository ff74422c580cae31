import Tinycoro.Net.ReadSome
import Mathlib.Algebra.BigOperators.Group.List.Basic
import Mathlib.Algebra.GroupWithZero.Nat
import Mathlib.Data.List.Induction

/-! What `read_some` does to the stream and to the buffer. A stream that has the
buffer for itself moves exactly the bytes it takes from its socket, call by call and
over any sequence of calls. Where others use the buffer too, the space that a call
reserved is only safe until somebody adds bytes. -/
namespace Tinycoro.Net.ReadSome

open Transition History Effect

variable {ι : Type} {s s' : State ι} {trace events : List (Event ι)}

/-- What happens to a stream inside one of its calls, as long as nobody else uses
the buffer. -/
def Event.Within (i : ι) : Event ι → Prop
  | .recv j _ _ _ => j = i
  | .waitReadable j _ _ => j = i
  | .closed _ => True
  | _ => False

/-- The events of a stream that has the buffer for itself. Its owner takes bytes out. -/
def Event.Alone (i : ι) : Event ι → Prop
  | .began j _ _ => j = i
  | .recv j _ _ _ => j = i
  | .waitReadable j _ _ => j = i
  | .returned j _ _ => j = i
  | .threw j _ _ => j = i
  | .closed _ => True
  | .used (.consume _) _ => True
  | .used (.retrieveAllAsString _) _ => True
  | .used _ _ => False

/-- The number of bytes taken out of the buffer. -/
def taken (trace : List (Event ι)) : Nat :=
  (trace.map fun
    | .used (.consume n) (.ok _) => n.toNat
    | .used (.retrieveAllAsString _) (.ok strings) => strings.flatten.length
    | _ => 0).sum

/-- The events of one stream's coroutine. -/
def Event.Own (i : ι) : Event ι → Prop
  | .began j _ _ => j = i
  | .recv j _ _ _ => j = i
  | .waitReadable j _ _ => j = i
  | .returned j _ _ => j = i
  | .threw j _ _ => j = i
  | .closed _ => False
  | .used _ _ => False

section Turns

variable {i : ι} {maxBytes : UInt64} {now : Int} {refused : Option StdError} {b : RawBuffer}
  {answers : List Answer} {pc : Pc} {output : RawBuffer}

theorem receive_own {fd : Int} {deadline : Deadline}
    (h : receive i fd maxBytes deadline now refused b answers = some (pc, output, events)) :
    events ≠ [] ∧ ∀ e ∈ events, e.Own i := by
  induction answers generalizing pc output events with
  | nil => cases h
  | cons answer answers ih =>
    cases answer with
    | data =>
      simp only [receive] at h
      split_ifs at h
      · cases h
        simp [Event.Own]
      · split at h
        all_goals
          cases h
          simp [Event.Own]
    | failed =>
      simp only [receive] at h
      split_ifs at h
      · obtain ⟨⟨pc', output', events'⟩, hRest, hEq⟩ := Option.map_eq_some_iff.mp h
        cases hEq
        refine ⟨List.cons_ne_nil _ _, ?_⟩
        rw [List.forall_mem_cons]
        exact ⟨rfl, (ih hRest).2⟩
      · cases h
        simp [Event.Own]
      · cases refused with
        | some | none =>
          cases h
          simp [Event.Own]

theorem call_own {r : Reader} {timeout : Duration} {start : Int} {short : Bool}
    (h : r.call i maxBytes timeout start now short refused b answers = some (pc, output, events)) :
    events ≠ [] ∧ ∀ e ∈ events, e.Own i := by
  unfold Reader.call at h
  split_ifs at h
  · cases h
    simp [Event.Own]
  · cases h
    simp [Event.Own]
  · dsimp only at h
    split at h
    · cases h
      simp [Event.Own]
    · obtain ⟨⟨pc', output', events'⟩, hReceive, hEq⟩ := Option.map_eq_some_iff.mp h
      cases hEq
      refine ⟨List.cons_ne_nil _ _, ?_⟩
      rw [List.forall_mem_cons]
      exact ⟨rfl, (receive_own hReceive).2⟩

theorem resume_own {r : Reader} {ready : Bool}
    (h : r.resume i ready now refused b answers = some (pc, output, events)) :
    events ≠ [] ∧ ∀ e ∈ events, e.Own i := by
  unfold Reader.resume at h
  cases hPc : r.pc with
  | idle =>
    simp only [hPc] at h
    cases h
  | waiting =>
    simp only [hPc] at h
    split_ifs at h
    · cases h
      simp [Event.Own]
    · cases h
      simp [Event.Own]
    · cases h
      simp [Event.Own]
    · exact receive_own h

/-- Where a stream has the buffer for itself, no other coroutine takes a turn. -/
theorem eq_of_own_alone {j : ι} (hOwn : events ≠ [] ∧ ∀ e ∈ events, e.Own j)
    (hAlone : ∀ e ∈ events, e.Alone i) : j = i := by
  obtain ⟨e, hMem⟩ := List.exists_mem_of_ne_nil _ hOwn.1
  have hOf := hOwn.2 e hMem
  have hOnly := hAlone e hMem
  cases e with
  | closed => cases hOf
  | used => cases hOf
  | _ => exact (Eq.symm hOf).trans hOnly

theorem taken_of_own (hOwn : ∀ e ∈ events, e.Own i) : taken events = 0 := by
  unfold taken
  rw [List.sum_eq_zero]
  intro n hn
  obtain ⟨e, hMem, rfl⟩ := List.mem_map.mp hn
  have hOf := hOwn e hMem
  cases e with
  | used => cases hOf
  | _ => rfl

end Turns

theorem taken_append (trace events : List (Event ι)) :
    taken (trace ++ events) = taken trace + taken events := by
  simp [taken]

variable [DecidableEq ι]

variable {i : ι} {b : Buffer} {now : Int} {refused : Option StdError} {answers : List Answer}
  {start : Bytes}

theorem current_of_within {middle : List (Event ι)} (h : ∀ e ∈ middle, e.Within i)
    (before : List (Event ι)) (maxBytes : UInt64) (old : Bytes) :
    current i (before ++ .began i maxBytes old :: middle) =
      some ⟨maxBytes, old, received i middle⟩ := by
  induction middle using List.reverseRecOn with
  | nil => simp [track, received]
  | append_singleton middle e ih =>
    rw [← List.cons_append, ← List.append_assoc, current_concat,
      ih (fun e he => h e (List.mem_append_left _ he))]
    have hWithin := h e (by simp)
    cases e with
    | recv j | waitReadable j =>
      obtain rfl : j = i := hWithin
      simp [track, received]
    | closed => simp [track, received]
    | began | returned | threw | used => cases hWithin

theorem received_append (i : ι) (trace events : List (Event ι)) :
    received i (trace ++ events) = received i trace ++ received i events := List.flatMap_append

/-- With the space that was reserved still there, exactly the received bytes are
added. -/
theorem receive_bytes {fd : Int} {maxBytes : UInt64} {deadline : Deadline} {pc : Pc}
    {output : RawBuffer} (hRoom : maxBytes ≤ b.toRaw.writable)
    (h : receive i fd maxBytes deadline now refused b.toRaw answers = some (pc, output, events)) :
    output.bytes = b.toRaw.bytes ++ received i events ∧
      ∀ space until', pc = .waiting space until' → space ≤ output.writable := by
  induction answers generalizing pc output events with
  | nil => cases h
  | cons answer answers ih =>
    cases answer with
    | data =>
      simp only [receive] at h
      split_ifs at h with hLength hEmpty
      · subst hEmpty
        cases h
        exact ⟨by simp [received], by simp⟩
      · rcases commit_toRaw b hLength with ⟨b', hCommit, hBytes⟩ | ⟨hPast, -⟩
        · simp only [hCommit, Outcome.ok_error, Outcome.ok_state] at h
          cases h
          exact ⟨by simp [received, hBytes, Buffer.bytes_toRaw], by simp⟩
        · rw [UInt64.le_iff_toNat_le, b.toNat_writable] at hRoom
          omega
    | failed =>
      simp only [receive] at h
      split_ifs at h with hAgain hError
      · obtain ⟨⟨pc', output', events'⟩, hRest, hEq⟩ := Option.map_eq_some_iff.mp h
        cases hEq
        obtain ⟨hBytes, hWaiting⟩ := ih hRest
        exact ⟨by simpa [received] using hBytes, hWaiting⟩
      · cases h
        exact ⟨by simp [received], by simp⟩
      · cases refused with
        | some =>
          cases h
          exact ⟨by simp [received], by simp⟩
        | none =>
          cases h
          refine ⟨by simp [received], ?_⟩
          intro space until' hWaiting
          cases hWaiting
          exact hRoom

theorem call_bytes {r : Reader} {maxBytes : UInt64} {timeout : Duration} {start : Int}
    {short : Bool} {pc : Pc} {output : RawBuffer}
    (h : r.call i maxBytes timeout start now short refused b.toRaw answers =
      some (pc, output, events)) :
    output.bytes = b.toRaw.bytes ++ received i events ∧
      ∀ space until', pc = .waiting space until' → space ≤ output.writable := by
  unfold Reader.call at h
  split_ifs at h with hBusy hClosed hZero
  · cases h
    exact ⟨by simp [received], nofun⟩
  · cases h
    exact ⟨by simp [received], nofun⟩
  · rcases b.ensureWritable_toRaw short maxBytes with ⟨room, hRoom, hRaw⟩ | ⟨e, -, hRaw⟩
    · simp only [BufferOp.perform, hRaw, Outcome.ok_error, Outcome.ok_state] at h
      obtain ⟨⟨pc', output', events'⟩, hReceive, hEq⟩ := Option.map_eq_some_iff.mp h
      cases hEq
      have hHeld : maxBytes ≤ room.val.toRaw.writable := by
        rw [UInt64.le_iff_toNat_le, Buffer.toNat_writable]
        exact room.property
      obtain ⟨hBytes, hWaiting⟩ := receive_bytes hHeld hReceive
      rw [Buffer.bytes_toRaw, Buffer.bytes_ensureWritable hRoom, ← b.bytes_toRaw] at hBytes
      exact ⟨by simpa [received] using hBytes, hWaiting⟩
    · simp only [BufferOp.perform, hRaw, Outcome.fail_error, Outcome.fail_state] at h
      cases h
      exact ⟨by simp [received], nofun⟩

theorem resume_bytes {r : Reader} {ready : Bool} {pc : Pc} {output : RawBuffer}
    (hRoom : ∀ maxBytes deadline, r.pc = .waiting maxBytes deadline → maxBytes ≤ b.toRaw.writable)
    (h : r.resume i ready now refused b.toRaw answers = some (pc, output, events)) :
    output.bytes = b.toRaw.bytes ++ received i events ∧
      ∀ space until', pc = .waiting space until' → space ≤ output.writable := by
  unfold Reader.resume at h
  cases hPc : r.pc with
  | idle =>
    simp only [hPc] at h
    cases h
  | waiting maxBytes deadline =>
    simp only [hPc] at h
    split_ifs at h
    · cases h
      exact ⟨by simp [received], nofun⟩
    · cases h
      exact ⟨by simp [received], nofun⟩
    · cases h
      exact ⟨by simp [received], nofun⟩
    · exact receive_bytes (hRoom maxBytes deadline hPc) h

/-- The bytes received and not taken out are in the buffer, and a suspended call
still has its space. -/
structure Moves (i : ι) (start : Bytes) (s : State ι) (trace : List (Event ι)) : Prop where
  room : ∀ maxBytes deadline, (s.reader i).pc = .waiting maxBytes deadline →
    maxBytes ≤ s.output.writable
  bytes : s.output.bytes = (start ++ received i trace).drop (taken trace)
  held : taken trace ≤ (start ++ received i trace).length

/-- A turn of the stream's own coroutine. -/
theorem Moves.turn {r : Pc × RawBuffer × List (Event ι)} (h : Moves i start s trace)
    (hTaken : taken r.2.2 = 0) (hTurn : r.2.1.bytes = s.output.bytes ++ received i r.2.2 ∧
      ∀ space until', r.1 = .waiting space until' → space ≤ r.2.1.writable) :
    Moves i start (s.turn i r).1 (trace ++ (s.turn i r).2) where
  room := by
    intro maxBytes deadline hPc
    simp only [State.turn, Function.update_self] at hPc
    exact hTurn.2 maxBytes deadline hPc
  bytes := by
    simp only [State.turn, taken_append, received_append, hTaken, Nat.add_zero]
    rw [hTurn.1, h.bytes, ← List.append_assoc, List.drop_append_of_le_length h.held]
  held := by
    simp only [State.turn, taken_append, received_append, hTaken, Nat.add_zero]
    rw [← List.append_assoc, List.length_append]
    exact Nat.le_add_right_of_le h.held

/-- The owner takes bytes out: the rest of what was received is still there. -/
theorem Moves.use {op : BufferOp} {b' : Buffer} (h : Moves i start s trace)
    (hOutput : s.output = b.toRaw) (hServed : Served b op b') (hValid : op.Valid b.toRaw)
    (hAlone : (Event.used (ι := ι) op (op.result b.toRaw)).Alone i) :
    Moves i start { s with output := b'.toRaw } (trace ++ [.used op (op.result b.toRaw)]) := by
  have hQuiet : (Event.used (ι := ι) op (op.result b.toRaw)).commits = false := by
    cases op with
    | consume => rfl
    | retrieveAllAsString => rfl
    | _ => cases hAlone
  have hRoom := writable_perform_le b hValid hQuiet
  rw [hServed.state, ← hOutput] at hRoom
  obtain ⟨since, -, hFifo⟩ := hServed.fifo _ (Nat.le_refl b.writeIdx)
  have hBytes := h.bytes
  have hHeld := h.held
  rw [hOutput, b.bytes_toRaw] at hBytes
  have hNone : received i [Event.used op (op.result b.toRaw)] = [] := rfl
  suffices hTaken : b'.bytes = b.bytes.drop (taken [Event.used (ι := ι) op (op.result b.toRaw)]) ∧
      taken [Event.used (ι := ι) op (op.result b.toRaw)] ≤ b.bytes.length by
    refine ⟨fun maxBytes deadline hPc => UInt64.le_trans (h.room maxBytes deadline hPc) hRoom, ?_,
      ?_⟩
    · rw [received_append, hNone, List.append_nil, taken_append]
      rw [b'.bytes_toRaw, hTaken.1, hBytes, List.drop_drop]
    · have hLength := congrArg List.length hBytes
      rw [List.length_drop] at hLength
      rw [received_append, hNone, List.append_nil, taken_append]
      omega
  generalize op.result b.toRaw = result at hFifo hAlone ⊢
  cases op with
  | consume =>
    rcases hFifo.of_consume with ⟨hLe, rfl, hLeft⟩ | ⟨⟨e, rfl⟩, hSame⟩
    · exact ⟨by simpa [taken] using hLeft, by simpa [taken] using hLe⟩
    · exact ⟨by simpa [taken] using congrArg ByteQueue.content hSame, by simp [taken]⟩
  | retrieveAllAsString =>
    rcases hFifo.of_retrieve with ⟨rfl, hLeft⟩ | ⟨⟨e, rfl⟩, hSame⟩
    · exact ⟨by simpa [taken] using hLeft, by simp [taken]⟩
    · exact ⟨by simpa [taken] using congrArg ByteQueue.content hSame, by simp [taken]⟩
  | _ => cases hAlone

/-- Every step keeps in the buffer what was received and not taken out, in order. -/
theorem Moves.next (h : Moves i start s trace) (hInv : Inv s trace) {a : Action ι}
    (hNext : s.next a = some (s', events)) (hAlone : ∀ e ∈ events, e.Alone i) :
    Moves i start s' (trace ++ events) := by
  obtain ⟨b, hOutput⟩ := hInv.wellFormed
  cases a with
  | call =>
    obtain ⟨⟨pc, output, events'⟩, hCall, hEq⟩ := Option.map_eq_some_iff.mp hNext
    rw [State.turn, Prod.mk.injEq] at hEq
    obtain ⟨rfl, rfl⟩ := hEq
    have hOwn := call_own hCall
    obtain rfl := eq_of_own_alone hOwn hAlone
    rw [hOutput] at hCall
    have hBytes := call_bytes hCall
    rw [← hOutput] at hBytes
    exact h.turn (r := (pc, output, events')) (taken_of_own hOwn.2) hBytes
  | resume =>
    obtain ⟨⟨pc, output, events'⟩, hResume, hEq⟩ := Option.map_eq_some_iff.mp hNext
    rw [State.turn, Prod.mk.injEq] at hEq
    obtain ⟨rfl, rfl⟩ := hEq
    have hOwn := resume_own hResume
    obtain rfl := eq_of_own_alone hOwn hAlone
    rw [hOutput] at hResume
    have hBytes := resume_bytes (hOutput ▸ h.room) hResume
    rw [← hOutput] at hBytes
    exact h.turn (r := (pc, output, events')) (taken_of_own hOwn.2) hBytes
  | close j =>
    simp only [State.next] at hNext
    split at hNext
    · cases hNext
      rwa [List.append_nil]
    · cases hNext
      have hNone : received i [Event.closed j] = [] := rfl
      have hZero : taken [Event.closed j] = 0 := rfl
      refine ⟨?_, ?_, ?_⟩
      · intro maxBytes deadline hPc
        refine h.room maxBytes deadline ?_
        by_cases hi : i = j
        · subst hi
          simpa using hPc
        · simpa [Function.update_of_ne hi] using hPc
      · rw [received_append, taken_append, hNone, hZero, List.append_nil, Nat.add_zero]
        exact h.bytes
      · rw [received_append, taken_append, hNone, hZero, List.append_nil, Nat.add_zero]
        exact h.held
  | use op =>
    simp only [State.next] at hNext
    split at hNext
    · rename_i hValid
      cases hNext
      rw [hOutput] at hValid hAlone ⊢
      obtain ⟨b', hServed⟩ := served b op hValid
      rw [hServed.state]
      exact h.use hOutput hServed hValid (hAlone _ List.mem_cons_self)
    · cases hNext

/-- What `read_some` guarantees to the owner of a stream. -/
structure Conserves (i : ι) (start : Bytes) (s : State ι) (trace : List (Event ι)) : Prop where
  /-- A call that ended, while nobody else used the buffer. -/
  call : ∀ before maxBytes old middle result new after,
    trace = before ++ .began i maxBytes old :: (middle ++ .returned i result new :: after) →
    (∀ e ∈ middle, e.Within i) → Returns ⟨maxBytes, old, received i middle⟩ result new
  /-- All calls, with the bytes that the owner has taken out in between. -/
  stream : (∀ e ∈ trace, e.Alone i) → s.output.bytes = (start ++ received i trace).drop
    (taken trace)

/-- Whatever `::recv` answers, however the waits end and whenever the stream is
closed, `read_some` adds to the buffer exactly the bytes it takes from the socket. -/
theorem readSome_conserves {fd : ι → Int} {output : Buffer}
    (h : (machine fd output).Reaches s trace) (i : ι) : Conserves i output.bytes s trace where
  call := by
    rintro before maxBytes old middle result new after hEq hWithin
    refine (Inv.of_reaches h).judged (before ++ .began i maxBytes old :: middle)
      (.returned i result new) after (by simp [hEq]) _ ?_
    exact current_of_within hWithin before maxBytes old
  stream := by
    intro hAlone
    refine (h.invariant (P := fun s trace => (∀ e ∈ trace, e.Alone i) →
      Moves i output.bytes s trace) ?_ ?_ hAlone).bytes
    · exact fun _ => ⟨nofun, by simp [machine, received, taken, Buffer.bytes_toRaw], Nat.zero_le _⟩
    · intro s s' trace events a hReaches hMoves hNext hAlone
      rw [List.forall_mem_append] at hAlone
      exact (hMoves hAlone.1).next (Inv.of_reaches hReaches) hNext hAlone.2

/-- A call that timed out, a second one that was interrupted and then received, and
a byte taken out. -/
theorem readSome_conserves_two_calls :
    ∃ (s : State Unit) (trace : List (Event Unit)), s.output.bytes = [8] ∧
      trace = [.began () 4 [], .recv () 4 4 [], .waitReadable () 5 2, .returned () ⟨.timeout, 0, 0⟩
        [], .began () 4 [], .recv () 4 4 [], .recv () 4 4 [7, 8], .returned () ⟨.ok, 2, 0⟩ [7, 8],
        .used (.consume 1) (.ok [])] ∧ Conserves () [] s trace := by
  have hRun : ((machine (fun _ : Unit => 5) (.create 4 (by decide))).run
      (machine (fun _ : Unit => 5) (.create 4 (by decide))).start
      [.call () 4 2 10 10 false none [.failed EAGAIN], .resume () false 20 none [],
        .call () 4 2 20 20 false none [.failed EINTR, .data [7, 8]], .use (.consume 1)]).map
      (fun r => (r.1.output.bytes, r.2)) = some ([8],
        [.began () 4 [], .recv () 4 4 [], .waitReadable () 5 2, .returned () ⟨.timeout, 0, 0⟩ [],
          .began () 4 [], .recv () 4 4 [], .recv () 4 4 [7, 8], .returned () ⟨.ok, 2, 0⟩ [7, 8],
          .used (.consume 1) (.ok [])]) := by decide +kernel
  obtain ⟨⟨s, trace⟩, hRun, hEq⟩ := Option.map_eq_some_iff.mp hRun
  simp only [Prod.mk.injEq] at hEq
  exact ⟨s, trace, hEq.1, hEq.2, readSome_conserves (Machine.Reaches.start.run hRun) ()⟩

/-- Neither a new call of the stream nor bytes added to the buffer by anybody. -/
def Event.Keeps (i : ι) : Event ι → Prop
  | .began j _ _ => j ≠ i
  | e => e.commits = false

theorem reserved_of_keeps {middle : List (Event ι)} (h : ∀ e ∈ middle, e.Keeps i)
    (before : List (Event ι)) (maxBytes : UInt64) (old : Bytes) :
    reserved i (before ++ .began i maxBytes old :: middle) = some maxBytes := by
  induction middle using List.reverseRecOn with
  | nil => simp [reserve]
  | append_singleton middle e ih =>
    rw [← List.cons_append, ← List.append_assoc, reserved_concat,
      ih (fun e he => h e (List.mem_append_left _ he))]
    have hKeeps := h e (by simp)
    cases e with
    | began => exact if_neg hKeeps
    | recv | used => exact if_neg (Bool.eq_false_iff.mp hKeeps)
    | _ => rfl

/-- What a call has of the space it reserved. -/
structure KeepsReservation (trace : List (Event ι)) : Prop where
  room : ∀ before i maxBytes old middle room space chunk after,
    trace = before ++ .began i maxBytes old :: (middle ++ .recv i room space chunk :: after) →
    (∀ e ∈ middle, e.Keeps i) → space = maxBytes ∧ maxBytes ≤ room
  committed : ∀ before i maxBytes old middle room space chunk e new after,
    trace = before ++ .began i maxBytes old ::
      (middle ++ .recv i room space chunk :: .threw i e new :: after) →
    (∀ e ∈ middle, e.Keeps i) → chunk = []

/-- As long as nobody adds bytes to the buffer between the start of a call and its
`::recv`, whatever else is done with the buffer, `::recv` finds the reserved space and
`has_written` does not throw. -/
theorem readSome_keepsReservation {fd : ι → Int} {output : Buffer}
    (h : (machine fd output).Reaches s trace) : KeepsReservation trace := by
  have hJudged := (Inv.of_reaches h).judged
  refine ⟨?_, ?_⟩
  · rintro before i maxBytes old middle room space chunk after hEq hKeeps
    have hRecv := hJudged (before ++ .began i maxBytes old :: middle) (.recv i room space chunk)
      after (by simp [hEq])
    obtain ⟨rfl, hRoom⟩ := hRecv.1 maxBytes (reserved_of_keeps hKeeps before maxBytes old)
    exact ⟨rfl, hRoom⟩
  · rintro before i maxBytes old middle room space chunk e new after hEq hKeeps
    have hRecv := hJudged (before ++ .began i maxBytes old :: middle) (.recv i room space chunk)
      (.threw i e new :: after) (by simp [hEq])
    have hThrew := hJudged (before ++ .began i maxBytes old :: middle ++ [.recv i room space chunk])
      (.threw i e new) after (by simp [hEq])
    rcases hThrew.2 room space chunk (List.getLast?_concat ..) with hNone | hPast
    · exact hNone
    · obtain ⟨rfl, hRoom⟩ := hRecv.1 maxBytes (reserved_of_keeps hKeeps before maxBytes old)
      rw [UInt64.le_iff_toNat_le] at hRoom
      have hLength := hRecv.2
      omega

/-- Others reserve and take out bytes while the call is suspended. -/
theorem readSome_keepsReservation_consume :
    ∃ trace : List (Event Unit),
      trace = [.began () 4 [9], .recv () 4 4 [], .waitReadable () 5 2, .used (.consume 1) (.ok []),
        .used (.ensureWritable false 8) (.ok []), .recv () 8 4 [7], .returned () ⟨.ok, 1, 0⟩ [7]] ∧
      KeepsReservation trace := by
  have hRun : ((machine (fun _ : Unit => 5) (.holding [9] (by decide))).run
      (machine (fun _ : Unit => 5) (.holding [9] (by decide))).start
      [.call () 4 2 10 10 false none [.failed EAGAIN], .use (.consume 1),
        .use (.ensureWritable false 8), .resume () true 20 none [.data [7]]]).map (·.2) =
      some [.began () 4 [9], .recv () 4 4 [], .waitReadable () 5 2, .used (.consume 1) (.ok []),
        .used (.ensureWritable false 8) (.ok []), .recv () 8 4 [7], .returned () ⟨.ok, 1, 0⟩
        [7]] := by
    decide +kernel
  obtain ⟨⟨s, trace⟩, hRun, rfl⟩ := Option.map_eq_some_iff.mp hRun
  exact ⟨_, rfl, readSome_keepsReservation (Machine.Reaches.start.run hRun)⟩

/-- Another task appends one byte while the call is suspended. `::recv` is then told
of one byte more than the storage has, and `has_written` throws when it uses it. -/
theorem recv_past_reservation :
    ∃ (s : State Unit) (trace : List (Event Unit)),
      (machine (fun _ : Unit => 5) (.create 4 (by decide))).Reaches s trace ∧
      .recv () 3 4 [5, 6, 7, 8] ∈ trace ∧
      .threw () (.outOfRange "Buffer::has_written") [1] ∈ trace := by
  have hRun : ((machine (fun _ : Unit => 5) (.create 4 (by decide))).run
      (machine (fun _ : Unit => 5) (.create 4 (by decide))).start
      [.call () 4 2 10 10 false none [.failed EAGAIN], .use (.append false (some [1]) 1),
        .resume () true 20 none [.data [5, 6, 7, 8]]]).map (·.2) =
      some [.began () 4 [], .recv () 4 4 [], .waitReadable () 5 2,
        .used (.append false (some [1]) 1) (.ok []), .recv () 3 4 [5, 6, 7, 8],
        .threw () (.outOfRange "Buffer::has_written") [1]] := by
    decide +kernel
  obtain ⟨⟨s, trace⟩, hRun, hTrace⟩ := Option.map_eq_some_iff.mp hRun
  dsimp only at hTrace
  subst hTrace
  exact ⟨s, _, Machine.Reaches.start.run hRun, by simp, by simp⟩

end Tinycoro.Net.ReadSome
