import Tinycoro.Net.Lifecycle

/-! Which received bytes reach the message callback. `handle_read` collects what it
receives and calls the callback when the socket has no more to give. A call that ends
with the end of the stream or with an error closes the connection before it comes to
that, and what it has received is never shown to the user. -/
namespace Tinycoro.Net

open Effect Transition

/-- The bytes received, in order. -/
def receivedBytes (trace : List ConnEvent) : Bytes :=
  trace.flatMap fun
    | .received chunk => chunk
    | _ => []

/-- Each chunk received is in the buffer of a message callback that runs later and
before the connection is closed, at its place: behind it only what was received since. -/
def Delivered (trace : List ConnEvent) : Prop :=
  ∀ before chunk after, trace = before ++ .received chunk :: after →
    ∃ mid old rest, after = mid ++ .message (old ++ chunk ++ receivedBytes mid) :: rest ∧
      ∀ callback, .closed callback ∉ mid

/-- The answer of `recv` on which `handle_read` closes the connection: the end of the stream,
or an error that does not ask to try again. -/
def Received.ends : Received → Bool
  | .data chunk => chunk.isEmpty
  | .failed errno => errno ≠ EINTR ∧ errno ≠ EAGAIN ∧ errno ≠ EWOULDBLOCK

/-- The answer of `recv` has bytes in it. -/
def Received.hasData : Received → Bool
  | .data chunk => !chunk.isEmpty
  | .failed _ => false

/-- A turn of `handle_read` that goes on with the next, or something happening elsewhere. -/
def ConnAction.goesOn : ConnAction → Bool
  | .recv answer _ => answer.hasData || answer = .failed EINTR
  | .elsewhere _ => true
  | _ => false

/-- The call of `handle_read` that is running has got bytes from `recv`. -/
def Gathering (labels : List ConnAction) : Prop :=
  ∃ before answer short turns, labels = before ++ .recv answer short :: turns ∧
    answer.hasData = true ∧ ∀ a ∈ turns, a.goesOn = true

/-- A call of `handle_read` got bytes from `recv`, and later the end of the stream or an
error. -/
def CutOff (labels : List ConnAction) : Prop :=
  ∃ before answer short after, labels = before ++ .recv answer short :: after ∧ Gathering before ∧
    answer.ends = true

/-- The connection was closed right after a chunk was received. -/
def Cut (trace : List ConnEvent) : Prop :=
  ∃ before chunk callback after, trace = before ++ .received chunk :: .closed callback :: after

section Labels

variable {labels : List ConnAction} {a : ConnAction}

/-- The last of several labels is the last of the second part of any split. -/
theorem concat_eq_split {before after : List ConnAction} {b : ConnAction}
    (h : labels ++ [a] = before ++ b :: after) :
    (after = [] ∧ before = labels ∧ b = a) ∨ ∃ rest, after = rest ++ [a] ∧
      labels = before ++ b :: rest := by
  rcases List.eq_nil_or_concat after with rfl | ⟨rest, last, rfl⟩
  · obtain ⟨rfl, hLast⟩ := List.append_inj' h rfl
    exact .inl ⟨rfl, rfl, (List.singleton_inj.mp hLast).symm⟩
  · rw [List.concat_eq_append, ← List.cons_append, ← List.append_assoc] at h
    rw [List.concat_eq_append]
    obtain ⟨hLabels, hLast⟩ := List.append_inj' h rfl
    exact .inr ⟨rest, by rw [List.singleton_inj.mp hLast], hLabels⟩

theorem gathering_concat :
    Gathering (labels ++ [a]) ↔
    (∃ answer short, a = .recv answer short ∧ answer.hasData = true) ∨ Gathering labels ∧
      a.goesOn = true := by
  constructor
  · rintro ⟨before, answer, short, turns, hSplit, hData, hTurns⟩
    rcases concat_eq_split hSplit with ⟨-, -, rfl⟩ | ⟨rest, rfl, rfl⟩
    · exact .inl ⟨answer, short, rfl, hData⟩
    · exact .inr ⟨⟨before, answer, short, rest, rfl, hData, fun b hMem =>
        hTurns b (List.mem_append_left _ hMem)⟩, hTurns a
        (List.mem_append_right _ (List.mem_singleton_self _))⟩
  · rintro (⟨answer, short, rfl, hData⟩ | ⟨⟨before, answer, short, turns, rfl, hData, hTurns⟩,
      hGoes⟩)
    · exact ⟨labels, answer, short, [], rfl, hData, nofun⟩
    · refine ⟨before, answer, short, turns ++ [a], by simp, hData, fun b hMem => ?_⟩
      rcases List.mem_append.mp hMem with hMem | hMem
      · exact hTurns b hMem
      · rwa [List.mem_singleton.mp hMem]

theorem cutOff_concat :
    CutOff (labels ++ [a]) ↔
    CutOff labels ∨ Gathering labels ∧ ∃ answer short, a = .recv answer short ∧
      answer.ends = true := by
  constructor
  · rintro ⟨before, answer, short, after, hSplit, hGathering, hEnds⟩
    rcases concat_eq_split hSplit with ⟨-, rfl, rfl⟩ | ⟨rest, rfl, rfl⟩
    · exact .inr ⟨hGathering, answer, short, rfl, hEnds⟩
    · exact .inl ⟨before, answer, short, rest, rfl, hGathering, hEnds⟩
  · rintro (⟨before, answer, short, after, rfl, hGathering, hEnds⟩ | ⟨hGathering, answer, short,
      rfl, hEnds⟩)
    · exact ⟨before, answer, short, after ++ [a], by simp, hGathering, hEnds⟩
    · exact ⟨labels, answer, short, [], rfl, hGathering, hEnds⟩

end Labels

section Traces

variable {trace events : List ConnEvent}

theorem Cut.append (h : Cut trace) (events : List ConnEvent) : Cut (trace ++ events) := by
  obtain ⟨before, chunk, callback, after, rfl⟩ := h
  exact ⟨before, chunk, callback, after ++ events, by simp⟩

/-- A split of a sequence at one event lies in its first part or in its second. -/
theorem split_append {e : ConnEvent} {before after : List ConnEvent}
    (h : trace ++ events = before ++ e :: after) :
    (∃ rest, trace = before ++ e :: rest ∧ after = rest ++ events) ∨
      ∃ front, events = front ++ e :: after ∧ before = trace ++ front := by
  rcases List.append_eq_append_iff.mp h with ⟨front, hBefore, hEvents⟩ | ⟨tail, hTrace, hAfter⟩
  · exact .inr ⟨front, hEvents, hBefore⟩
  · cases tail with
    | nil =>
      refine .inr ⟨[], ?_, ?_⟩
      · simpa using hAfter.symm
      · simpa using hTrace.symm
    | cons e' rest =>
      rw [List.cons_append, List.cons.injEq] at hAfter
      exact .inl ⟨rest, by rw [hTrace, hAfter.1], hAfter.2⟩

theorem Delivered.append (h : Delivered trace) (hEvents : Delivered events) :
    Delivered (trace ++ events) := by
  intro before chunk after hSplit
  rcases split_append hSplit with ⟨rest, hTrace, rfl⟩ | ⟨front, hFront, _⟩
  · obtain ⟨mid, old, rest', hRest, hOpen⟩ := h before chunk rest hTrace
    exact ⟨mid, old, rest' ++ events, by rw [hRest]; simp, hOpen⟩
  · exact hEvents front chunk after hFront

theorem delivered_of_quiet (h : ∀ chunk, .received chunk ∉ events) : Delivered events := by
  intro before chunk after hSplit
  exact absurd (hSplit ▸ by simp) (h chunk)

theorem receivedBytes_map (chunks : List Bytes) :
    receivedBytes (chunks.map .received) = chunks.flatten := by
  induction chunks with
  | nil => rfl
  | cons chunk chunks ih =>
    rw [List.flatten_cons, ← ih]
    rfl

/-- A message callback that sees the chunks of its call delivers them. -/
theorem delivered_message (pending : List Bytes) (old : Bytes) :
    Delivered (pending.map .received ++ [.message (old ++ pending.flatten)]) := by
  intro front chunk after hSplit
  rcases split_append hSplit with ⟨later, hMap, rfl⟩ | ⟨_, hLast, _⟩
  · obtain ⟨earlier, tail, rfl, _, hTail⟩ := List.map_eq_append_iff.mp hMap
    obtain ⟨chunk', later', rfl, hChunk, rfl⟩ := List.map_eq_cons_iff.mp hTail
    cases hChunk
    refine ⟨later'.map .received, old ++ earlier.flatten, [], ?_, by simp⟩
    rw [receivedBytes_map]
    simp
  · exact absurd hLast (by simp [List.singleton_eq_append_iff])

end Traces

namespace Conn

/-- `before` is settled, and `pending` are the chunks that the running `handle_read`
has received. -/
structure Collects (c : Conn) (labels : List ConnAction) (before : List ConnEvent)
  (pending : List Bytes) : Prop where
  callback : c.connection.messageCallback = true
  settled : ¬ CutOff labels → Delivered before
  cut : CutOff labels → Cut before
  gathering : Gathering labels ↔ pending ≠ []
  buffer : ∃ old, c.connection.readBuffer.bytes = old ++ pending.flatten
  nonempty : ∀ chunk ∈ pending, chunk ≠ []
  reading : c.pc ≠ .reading → pending = []

/-- The message callback was there all the time, and there was memory for every chunk. -/
def Calm (trace : List ConnEvent) : Prop := .unset ∉ trace ∧ ∀ e, .threw (.readBuffer e) ∉ trace

section Steps

variable {c c' : Conn} {labels : List ConnAction} {a : ConnAction}
  {trace before events : List ConnEvent} {pending : List Bytes}

/-- Where nothing is pending, events that receive nothing change nothing. -/
theorem Collects.quiet (h : Collects c labels before [])
    (hCallback : c'.connection.messageCallback = true) (hQuiet : ∀ chunk, .received chunk ∉ events)
    (hData : ∀ answer short, a = .recv answer short → answer.hasData = false) :
    Collects c' (labels ++ [a]) (before ++ events) [] := by
  have hNone : ¬ Gathering labels := fun hGathering => h.gathering.mp hGathering rfl
  refine ⟨hCallback, fun hUncut => ?_, fun hCut => ?_,
    ⟨fun hGathering => ?_, fun hNil => absurd rfl hNil⟩, ⟨_, (List.append_nil _).symm⟩, nofun,
    fun _ => rfl⟩
  · exact (h.settled fun hCut => hUncut (cutOff_concat.mpr (.inl hCut))).append
      (delivered_of_quiet hQuiet)
  · exact (h.cut ((cutOff_concat.mp hCut).resolve_right fun hEnd => hNone hEnd.1)).append events
  · rcases gathering_concat.mp hGathering with ⟨answer, short, rfl, hSome⟩ | ⟨hBefore, -⟩
    · exact absurd ((hData answer short rfl).symm.trans hSome) nofun
    · exact absurd hBefore hNone

/-- A turn that gets nothing and goes on. -/
theorem Collects.waits (h : Collects c labels before pending)
    (hCallback : c'.connection.messageCallback = true)
    (hBuffer : c'.connection.readBuffer = c.connection.readBuffer) (hPc : c'.pc = c.pc)
    (hGoes : a.goesOn = true)
    (hData : ∀ answer short, a = .recv answer short → answer.hasData = false ∧ answer.ends = false)
      : Collects c' (labels ++ [a]) before pending where
  callback := hCallback
  settled hUncut := h.settled fun hCut => hUncut (cutOff_concat.mpr (.inl hCut))
  cut hCut := by
    rcases cutOff_concat.mp hCut with hCut | ⟨-, answer, short, rfl, hEnds⟩
    · exact h.cut hCut
    · exact absurd ((hData answer short rfl).2.symm.trans hEnds) nofun
  gathering := by
    rw [gathering_concat, ← h.gathering]
    refine ⟨?_, fun hGathering => .inr ⟨hGathering, hGoes⟩⟩
    rintro (⟨answer, short, rfl, hSome⟩ | ⟨hGathering, -⟩)
    · exact absurd ((hData answer short rfl).1.symm.trans hSome) nofun
    · exact hGathering
  buffer := by
    rw [hBuffer]
    exact h.buffer
  nonempty := h.nonempty
  reading hNot := h.reading (hPc ▸ hNot)

variable {short : Bool} {answer : Received}

theorem Collects.receives (h : Collects c labels before pending) {chunk : Bytes} {b : Buffer}
    (hPc : c.pc = .reading) (hChunk : chunk ≠ [])
    (hBytes : b.bytes = c.connection.readBuffer.bytes ++ chunk) :
    Collects { c with connection.readBuffer := b } (labels ++ [.recv (.data chunk) short]) before
      (pending ++ [chunk]) := by
  obtain ⟨old, hOld⟩ := h.buffer
  have hData : Received.hasData (.data chunk) = true := by simp [Received.hasData, hChunk]
  have hGoes : ¬ Received.ends (.data chunk) = true := by simp [Received.ends, hChunk]
  refine ⟨h.callback, fun hUncut => h.settled fun hCut => hUncut (cutOff_concat.mpr (.inl hCut)),
    fun hCut => ?_, ⟨fun _ => by simp, fun _ => gathering_concat.mpr (.inl ⟨_, _, rfl, hData⟩)⟩,
    ⟨old, ?_⟩, fun chunk' hMem => ?_,
    fun hNot => absurd hPc hNot⟩
  · rcases cutOff_concat.mp hCut with hCut | ⟨-, answer, short, hEq, hEnds⟩
    · exact h.cut hCut
    · cases hEq
      exact absurd hEnds hGoes
  · simp [hBytes, hOld]
  · rcases List.mem_append.mp hMem with hOld | hNew
    · exact h.nonempty chunk' hOld
    · rwa [List.mem_singleton.mp hNew]

theorem deliver_state (c : Conn) : c.deliver.state = c := by
  unfold Conn.deliver
  split <;> rfl

theorem deliver_report (c : Conn) : (report c.deliver).2 = c.deliver.events := by
  unfold Conn.deliver
  split <;> rfl

theorem close_report (c : Conn) : (report c.close).2 = c.close.events := by
  unfold Conn.close
  split <;> rfl

/-- A call that ends has gathered nothing from then on. -/
theorem not_gathering_of_ended (hData : answer.hasData = false) (hEintr : answer ≠ .failed EINTR) :
    ¬ Gathering (labels ++ [.recv answer short]) := by
  rw [gathering_concat]
  rintro (⟨_, _, hEq, hSome⟩ | ⟨-, hGoes⟩)
  · cases hEq
    exact absurd (hData.symm.trans hSome) nofun
  · simp [ConnAction.goesOn, hData, hEintr] at hGoes

/-- The chunks of a call that reaches its end are shown to the message callback. -/
theorem Collects.deliver (h : Collects c labels before pending) (hData : answer.hasData = false)
    (hEintr : answer ≠ .failed EINTR) (hEnds : answer.ends = false) :
    Collects { c with pc := .idle } (labels ++ [.recv answer short])
      (before ++ pending.map .received ++ { c with pc := .idle }.deliver.events) [] := by
  obtain ⟨old, hOld⟩ := h.buffer
  have hCutOff : CutOff (labels ++ [.recv answer short]) ↔ CutOff labels := by
    rw [cutOff_concat, or_iff_left]
    rintro ⟨-, _, _, hEq, hEnd⟩
    cases hEq
    exact absurd (hEnds.symm.trans hEnd) nofun
  refine ⟨h.callback, fun hUncut => ?_, fun hCut => ?_,
    ⟨fun hGathering => absurd hGathering (not_gathering_of_ended hData hEintr), fun hNil =>
    absurd rfl hNil⟩,
    ⟨_, (List.append_nil _).symm⟩, nofun, fun _ => rfl⟩
  · rw [hCutOff] at hUncut
    rw [List.append_assoc]
    refine (h.settled hUncut).append ?_
    by_cases hSome : c.connection.readBuffer.readable > 0
    · rw [Conn.deliver, if_pos ⟨hSome, h.callback⟩, Outcome.ok_events, hOld]
      exact delivered_message pending old
    · have hEmpty : pending = [] := by
        rw [← Buffer.length_bytes, hOld, List.length_append] at hSome
        have hFlat : pending.flatten = [] := List.length_eq_zero_iff.mp (by omega)
        cases pending with
        | nil => rfl
        | cons chunk =>
          have hNil : chunk = [] := List.flatten_eq_nil_iff.mp hFlat chunk List.mem_cons_self
          exact absurd hNil (h.nonempty chunk List.mem_cons_self)
      rw [Conn.deliver, if_neg (fun hBoth => hSome hBoth.1), hEmpty]
      exact delivered_of_quiet (by simp)
  · rw [List.append_assoc]
    exact (h.cut (hCutOff.mp hCut)).append _

/-- A call that closes the connection cuts off the chunks it has received. -/
theorem Collects.close (h : Collects c labels before pending) (hOpen : c.connection.closed = false)
    {answer : Received} {short : Bool} (hEnds : answer.ends = true) :
    Collects { c with pc := .idle }.close.state (labels ++ [.recv answer short])
      (before ++ pending.map .received ++ { c with pc := .idle }.close.events) [] := by
  have hCalls : Calls { c with pc := .idle } { c with pc := .idle }.close := calls_close rfl
  have hEvents := (close_of_open (c := { c with pc := .idle }) hOpen).2
  have hData : answer.hasData = false := by
    cases answer <;> simp_all [Received.ends, Received.hasData]
  have hEintr : answer ≠ .failed EINTR := by
    rintro rfl
    simp [Received.ends] at hEnds
  have hCutOff : CutOff (labels ++ [.recv answer short]) ↔ CutOff labels ∨ pending ≠ [] := by
    rw [cutOff_concat, h.gathering]
    exact or_congr_right (and_iff_left ⟨answer, short, rfl, hEnds⟩)
  refine ⟨hCalls.callback.trans h.callback, fun hUncut => ?_, fun hCut => ?_,
    ⟨fun hGathering => absurd hGathering (not_gathering_of_ended hData hEintr), fun hNil =>
    absurd rfl hNil⟩,
    ⟨_, (List.append_nil _).symm⟩, nofun, fun _ => rfl⟩
  · rw [hCutOff, not_or, not_not] at hUncut
    rw [hUncut.2, List.map_nil, List.append_nil]
    exact (h.settled hUncut.1).append (delivered_of_quiet hCalls.silent)
  · rcases hCutOff.mp hCut with hCut | hSome
    · rw [List.append_assoc]
      exact (h.cut hCut).append _
    · obtain ⟨earlier, chunk, rfl⟩ := (List.eq_nil_or_concat pending).resolve_left hSome
      exact ⟨before ++ earlier.map .received, chunk, c.connection.closeCallback,
        [], by rw [hEvents]; simp⟩

/-- One turn of the loop of `handle_read`. -/
theorem Collects.recv (h : Collects c labels before pending) (hPc : c.pc = .reading)
    (hOpen : c.connection.closed = false)
    (hCalm : ∀ e, .threw (.readBuffer e) ∉ (report (c.recv short answer)).2) :
    ∃ before' pending', before ++ pending.map .received ++ (report (c.recv short answer)).2 =
      before' ++ pending'.map .received ∧
        Collects (c.recv short answer).state (labels ++ [.recv answer short]) before' pending' := by
  have hDone {o : ConnOutcome} (hReport : (report o).2 = o.events)
      (hEnd : Collects o.state (labels ++ [.recv answer short])
      (before ++ pending.map .received ++ o.events) []) :
      ∃ before' pending', before ++ pending.map .received ++ (report o).2 = before' ++ pending'.map
        .received ∧ Collects o.state (labels ++ [.recv answer short]) before' pending' :=
    ⟨_, [], by rw [hReport, List.map_nil, List.append_nil], hEnd⟩
  cases answer with
  | data chunk =>
    cases chunk with
    | nil => exact hDone (close_report _) (h.close hOpen rfl)
    | cons byte chunk =>
      simp only [Conn.recv, Outcome.ok_andThen] at hCalm ⊢
      cases hAppend : c.connection.readBuffer.appendOr short (byte :: chunk) with
      | error e =>
        simp only [hAppend] at hCalm
        exact absurd (by simp [report]) (hCalm e)
      | ok =>
        refine ⟨before, pending ++ [byte :: chunk], by simp [report], ?_⟩
        exact h.receives hPc (List.cons_ne_nil _ _) (Buffer.bytes_appendOr hAppend)
  | failed errno =>
    simp only [Conn.recv]
    by_cases hEintr : errno = EINTR
    · subst hEintr
      rw [if_pos rfl]
      refine ⟨before,
        pending, by simp [report], h.waits h.callback rfl rfl (by simp [ConnAction.goesOn]) ?_⟩
      rintro _ _ hEq
      cases hEq
      exact ⟨rfl, by simp [Received.ends]⟩
    · rw [if_neg hEintr]
      by_cases hAgain : errno = EAGAIN ∨ errno = EWOULDBLOCK
      · rw [if_pos hAgain]
        refine hDone (deliver_report _) ?_
        rw [deliver_state]
        refine h.deliver rfl (by simpa using hEintr) ?_
        rcases hAgain with rfl | rfl <;> simp [Received.ends]
      · rw [if_neg hAgain]
        refine hDone (close_report _) (h.close hOpen ?_)
        rw [not_or] at hAgain
        simp [Received.ends, hEintr, hAgain.1, hAgain.2]

/-- During a call of `handle_read` nothing happens to the connection but its turns. -/
theorem elsewhere_of_reading (hPc : c.pc = .reading) (hEnabled : c.Enabled a)
    (hRecv : ∀ answer short, a ≠ .recv answer short) : ∃ loop, a = .elsewhere loop := by
  cases a with
  | recv answer short => exact absurd rfl (hRecv answer short)
  | elsewhere loop => exact ⟨loop, rfl⟩
  | send data answer | drain answer => cases answer <;> simp [Enabled, hPc] at hEnabled
  | _ => simp [Enabled, hPc] at hEnabled

/-- Every call keeps the chunks of the running `handle_read` apart from what was delivered. -/
theorem Collects.perform (hLive : Live c) (h : Collects c labels before pending)
    (hEnabled : c.Enabled a)
    (hCalm : Calm (before ++ pending.map .received ++ (report (c.perform a)).2)) :
    ∃ before' pending', before ++ pending.map .received ++ (report (c.perform a)).2 =
      before' ++ pending'.map .received ∧
        Collects (c.perform a).state (labels ++ [a]) before' pending' := by
  by_cases hRecv : ∃ answer short, a = .recv answer short
  · obtain ⟨answer, short, rfl⟩ := hRecv
    have hPc : c.pc = .reading := by
      cases answer with
      | data => exact hEnabled.1
      | failed => exact hEnabled
    exact h.recv hPc (hLive.pc (by simp [hPc])) (fun e hMem =>
      hCalm.2 e (List.mem_append_right _ hMem))
  have hOther : ∀ answer short, a ≠ .recv answer short := fun answer short hEq =>
      hRecv ⟨answer, short, hEq⟩
  by_cases hPc : c.pc = .reading
  · obtain ⟨loop, rfl⟩ := elsewhere_of_reading hPc hEnabled hOther
    refine ⟨before, pending, by simp [report, Conn.perform], h.waits h.callback rfl rfl rfl ?_⟩
    rintro _ _ hEq
    cases hEq
  have hNothing (hCallback : (c.perform a).state.connection.messageCallback = true)
      (hQuiet : ∀ chunk, .received chunk ∉ (report (c.perform a)).2) :
      ∃ before' pending', before ++ pending.map .received ++ (report (c.perform a)).2 =
        before' ++ pending'.map .received ∧ Collects (c.perform a).state (labels ++ [a]) before'
        pending' := by
    cases h.reading hPc
    rw [List.map_nil, List.append_nil]
    exact ⟨_, [], (List.append_nil _).symm,
      h.quiet hCallback hQuiet fun answer short hEq => absurd hEq (hOther answer short)⟩
  cases Step.of_enabled (fun _ _ => hLive.life) hEnabled with
  | calls _ hCalls =>
    refine hNothing (hCalls.callback.trans h.callback) ?_
    cases hError : (c.perform a).error <;> simpa [report, hError] using hCalls.silent
  | setsCallback set _ hEq =>
    rw [hEq] at hCalm hNothing ⊢
    cases set with
    | true => exact hNothing rfl (by simp [report])
    | false => exact absurd (by simp [report]) hCalm.1
  | setsClose callback _ _ hEq | enters pc _ _ hEq =>
    rw [hEq] at hNothing ⊢
    exact hNothing h.callback (by simp [report])
  | waits hReading | receives chunk b hReading | fails chunk e hReading | delivers hReading
  | closes hReading => exact absurd hReading hPc

end Steps

end Conn

end Tinycoro.Net
