import Tinycoro.Io.Answers
import Tinycoro.Library.History
import Tinycoro.Net.DeadlineWord
import Tinycoro.Net.Operations

/-! What `read_some`, `write_all` and `accept` end with. An operation that is resumed
knows why from two things only, the result of its wait and `fd_`: it takes `false` on an
open descriptor for a timeout. -/
namespace Tinycoro.Net.Operations

open Io Transition History

/-- `Timeout`, or no connection. -/
def Outcome.timedOut : Outcome → Bool
  | .io result => result.status = .timeout
  | .connection none => true
  | _ => false

/-- `Closed`, or the exception of an `accept` whose listener was closed meanwhile. -/
def Outcome.isClosed : Outcome → Bool
  | .io result => result.status = .closed
  | .threw e => e = closedWhileAwaiting
  | _ => false

/-- The call has a timeout, and at this time it is over. -/
def Call.Due (call : Call) (time : Int) : Prop :=
  0 ≤ call.timeout ∧ call.start + call.timeout * nanoseconds ≤ time

/-- `close` was called on an open stream or listener; it may have thrown. -/
def CloseCalled (past : List Event) (socket : Nat) : Prop :=
  .closed socket ∈ past ∨ .closeThrew socket ∈ past

/-- Outcomes tell the truth: a timeout is never early and never for a stream that was
closed, and who finds its stream closed says so. -/
def Judged (past : List Event) : Event → Prop
  | .ended _ call resumed outcome now =>
    (outcome.timedOut = true → call.Due now ∧ ¬CloseCalled past call.socket) ∧
    (outcome.isClosed = true → CloseCalled past call.socket) ∧
    (resumed = true → CloseCalled past call.socket → outcome.isClosed = true)
  | .continued _ call => ¬CloseCalled past call.socket
  | _ => True

/-- The stream or listener whose operation goes on or ends. -/
def Event.socket : Event → Option Nat
  | .ended _ call _ _ _ | .continued _ call => some call.socket
  | _ => none

/-- As long as no `close` of the stream or listener has thrown. -/
def JudgedUnlessThrew (past : List Event) (e : Event) : Prop :=
  (∀ socket, e.socket = some socket → .closeThrew socket ∉ past) → Judged past e

section Bodies

/-- The code has come to its next system call, to a wait, or to an end that tells
neither a timeout nor a `close`. -/
inductive Pc.Calm : Pc → Prop where
  | trying (written : Nat) : Calm (.trying written)
  | asking (written : Nat) : Calm (.asking written)
  | ended {outcome : Outcome} (hTime : outcome.timedOut = false)
      (hClosed : outcome.isClosed = false) :
      Calm (.ended outcome)

theorem Failure.calm (failure : Failure) : (Pc.ended (.threw failure.error)).Calm := by
  cases failure <;> exact .ended rfl rfl

variable (request : Request) {fd : Int}

theorem begin_of_open (failure : Option Failure) (hFd : 0 ≤ fd) :
    (request.body.begin fd failure).Calm := by
  have hOpen : ¬fd < 0 := Int.not_lt.mpr hFd
  cases request with
  | readSome =>
    simp only [Request.body, readSome, if_neg hOpen]
    split_ifs
    · exact .ended rfl rfl
    · cases failure with
      | none => exact .trying 0
      | some failure => exact failure.calm
  | writeAll =>
    simp only [Request.body, writeAll, if_neg hOpen]
    exact .trying 0
  | accept =>
    simp only [Request.body, accept, if_neg hOpen]
    exact .trying 0

theorem begin_of_closed (failure : Option Failure) (hFd : fd < 0) :
    ∃ outcome, request.body.begin fd failure = .ended outcome ∧ outcome.timedOut = false := by
  cases request with
  | readSome | writeAll | accept => exact ⟨_, if_pos hFd, rfl⟩

/-- The answer of a system call ends no operation with a timeout or as closed. -/
theorem attempt_calm {written : Nat} {answer : Transfer} {failure : Option Failure} {pc : Pc}
    (h : request.body.attempt written answer failure = some pc) : pc.Calm := by
  cases request with
  | readSome =>
    simp only [Request.body, readSome] at h
    cases answer with
    | count =>
      simp only at h
      split_ifs at h
      · cases failure with
        | none =>
          cases h
          exact .ended rfl rfl
        | some failure =>
          cases h
          exact failure.calm
      · cases h
        exact .ended rfl rfl
    | failed =>
      simp only at h
      split_ifs at h
      · cases h
        exact .trying _
      · cases h
        exact .ended rfl rfl
      · cases h
        exact .asking _
  | writeAll =>
    simp only [Request.body, writeAll] at h
    split_ifs at h
    · cases answer with
      | count =>
        simp only at h
        split_ifs at h
        · cases h
          exact .trying _
        · cases h
          exact .asking _
      | failed =>
        simp only at h
        split_ifs at h
        · cases h
          exact .trying _
        · cases h
          exact .ended rfl rfl
        · cases h
          exact .asking _
    · cases h
      exact .ended rfl rfl
  | accept =>
    simp only [Request.body, accept] at h
    cases answer with
    | count =>
      cases failure with
      | none =>
        cases h
        exact .ended rfl rfl
      | some failure =>
        cases h
        exact failure.calm
    | failed =>
      simp only at h
      split_ifs at h
      · cases h
        exact .trying _
      · cases h
        exact .ended rfl rfl
      · cases h
        exact .asking _

theorem resume_of_closed (written : Nat) (hFd : fd < 0) (ready : Bool) :
    ∃ outcome,
    request.body.resume written ready fd = .ended outcome ∧ outcome.isClosed = true ∧
      outcome.timedOut = false := by
  cases request with
  | readSome | writeAll => cases ready <;> exact ⟨_, if_pos hFd, rfl, rfl⟩
  | accept => cases ready <;> exact ⟨_, if_pos hFd, by decide, rfl⟩

theorem resume_of_ready (written : Nat) (hFd : 0 ≤ fd) :
    request.body.resume written true fd = .trying written := by
  cases request <;> exact if_neg (Int.not_lt.mpr hFd)

theorem resume_of_false (written : Nat) (hFd : 0 ≤ fd) :
    ∃ outcome,
    request.body.resume written false fd = .ended outcome ∧ outcome.timedOut = true ∧
      outcome.isClosed = false := by
  cases request <;> exact ⟨_, if_neg (Int.not_lt.mpr hFd), rfl, rfl⟩

end Bodies

/-- What holds of an operation wherever it stands. One that waits is suspended with its
stream open, and its timers are not early; or it has its answer, and `false` has a
reason. Any other has the thread. -/
inductive Tracks (w : World) (sockets : List Int) (closing : Nat → Prop) (h : Nat) (call : Call) :
  Pc → Prop where
  | calm {pc : Pc} {fd : Int} (hCalm : pc.Calm) (hRuns : w.Runs h)
      (hFd : sockets[call.socket]? = some fd) (hOpen : 0 ≤ fd) :
      Tracks w sockets closing h call pc
  | arming {written : Nat} {timeout : Duration} {fd : Int} (hRuns : w.Runs h)
      (hFd : sockets[call.socket]? = some fd) (hOpen : 0 ≤ fd)
      (hTimeout : (0 : Int) ≤ timeout → call.Due (w.now + timeout * 1000000)) :
      Tracks w sockets closing h call (.arming written timeout)
  | pending {written token : Nat} {fd : Int} (hFd : sockets[call.socket]? = some fd)
      (hSuspended : w.IsSuspended h)
      (hSlot : w.slotAt fd call.request.body.event = some ⟨h, token, h⟩)
      (hTimers : ∀ timer ∈ w.timers, timer.token = token → call.Due timer.deadline) :
      Tracks w sockets closing h call (.waiting written fd)
  | answered {written : Nat} {fd : Int} {result : Bool} (hHeld : w.IsSuspended h ∨ w.Runs h)
      (hNone : w.NoWait h) (hAnswer : w.answer h = some result)
      (hFalse : result = false → closing call.socket ∨ call.Due w.now) :
      Tracks w sockets closing h call (.waiting written fd)
  | ended {outcome : Outcome} (hRuns : w.Runs h) : Tracks w sockets closing h call (.ended outcome)

theorem Call.Due.mono {call : Call} {time later : Int} (h : call.Due time) (hLe : time ≤ later) :
    call.Due later :=
  ⟨h.1, h.2.trans hLe⟩

namespace Tracks

variable {wrap : Nat → Nat} {w w' : World} {sockets sockets' : List Int}
  {closing closing' : Nat → Prop} {h : Nat} {call : Call} {pc : Pc} {past events : List Obs}
  {label : Io.Label}

/-- The executor takes a step, and the coroutine is not the one that runs. -/
theorem next (hTracks : Tracks w sockets closing h call pc) (hIdle : ¬w.Runs h)
    (hReaches : (Io.machine (.tokens wrap)).Reaches w past)
    (hNext : w.next (.tokens wrap) label = some (w', events))
    (hWrap : Set.InjOn wrap (Set.Iio w'.nextToken))
    (hClosing : ∀ {socket}, closing socket → closing' socket)
    (hCancel : ∀ {fd faults}, label = .cancel fd faults → sockets[call.socket]? = some fd →
      closing' call.socket) : Tracks w' sockets closing' h call pc := by
  have hNow := now_le_of_step (allKeyed_of_reaches hReaches) (Io.step_of_next hNext)
  cases hTracks with
  | calm hCalm hRuns | arming hRuns | ended hRuns => exact absurd hRuns hIdle
  | pending hFd hSuspended hSlot hTimers =>
    rcases fate_of_next hReaches hNext hWrap hSuspended hSlot with
      ⟨hStill, hKept, hOld⟩ | ⟨result, hHeld, hNone, hAnswer, hFalse⟩
    · exact .pending hFd hStill hKept (fun timer hTimer hToken =>
        hTimers timer (hOld timer hTimer hToken) hToken)
    · refine .answered hHeld hNone hAnswer (fun hEq => ?_)
      rcases hFalse hEq with ⟨faults, hLabel⟩ | ⟨timer, hTimer, hToken, hDue⟩
      · exact .inl (hCancel hLabel hFd)
      · exact .inr ((hTimers timer hTimer hToken).mono hDue)
  | answered hHeld hNone hAnswer hFalse =>
    obtain ⟨hHeld', hNone', hSame⟩ := answer_of_next hReaches hNext (hHeld.resolve_right hIdle)
      hNone
    exact .answered hHeld' hNone' (hSame.trans hAnswer)
      (fun hEq => (hFalse hEq).imp hClosing (fun hDue => hDue.mono hNow))

/-- Neither the coroutines nor their waits change. -/
theorem still (hTracks : Tracks w sockets closing h call pc) (hFrames : w'.frames = w.frames)
    (hStates : w'.fdStates = w.fdStates) (hTimers : w'.timers = w.timers)
    (hControl : w'.control = w.control) (hNow : w.now ≤ w'.now)
    (hSockets : ∀ {fd}, sockets[call.socket]? = some fd → sockets'[call.socket]? = some fd)
    (hClosing : ∀ {socket}, closing socket → closing' socket) :
    Tracks w' sockets' closing' h call pc := by
  have hRuns' (hRuns : w.Runs h) : w'.Runs h := by
    obtain ⟨left, hEq⟩ := hRuns
    exact ⟨left, hControl.trans hEq⟩
  have hSuspended' (hSuspended : w.IsSuspended h) : w'.IsSuspended h := by
    obtain ⟨frame, hFrame, hStatus⟩ := hSuspended
    exact ⟨frame, (congrFun hFrames h).trans hFrame, hStatus⟩
  have hSlots (fd : Int) (event : Io.Event) : w'.slotAt fd event = w.slotAt fd event := by
    rw [World.slotAt, hStates, World.slotAt]
  cases hTracks with
  | calm hCalm hRuns hFd hOpen => exact .calm hCalm (hRuns' hRuns) (hSockets hFd) hOpen
  | arming hRuns hFd hOpen hTimeout =>
    refine .arming (hRuns' hRuns) (hSockets hFd) hOpen (fun hLe => (hTimeout hLe).mono ?_)
    exact Int.add_le_add_right hNow _
  | ended hRuns => exact .ended (hRuns' hRuns)
  | pending hFd hSuspended hSlot hDue =>
    refine .pending (hSockets hFd) (hSuspended' hSuspended) ((hSlots ..).trans hSlot) ?_
    rw [hTimers]
    exact hDue
  | answered hHeld hNone hAnswer hFalse =>
    refine .answered (hHeld.imp hSuspended' hRuns') ?_ ((answer_of_frames hFrames).trans hAnswer)
      (fun hEq => (hFalse hEq).imp hClosing (fun hDue => hDue.mono hNow))
    intro fd event waitSlot hSlot
    exact hNone fd event waitSlot ((hSlots ..).symm.trans hSlot)

/-- Descriptors change that nobody waits for. -/
theorem reseat (hTracks : Tracks w sockets closing h call pc) (hIdle : ¬w.Runs h)
    (hSockets : ∀ {fd event}, sockets[call.socket]? = some fd → w.slotAt fd event ≠ none →
      sockets'[call.socket]? = some fd) : Tracks w sockets' closing h call pc := by
  cases hTracks with
  | calm hCalm hRuns | arming hRuns | ended hRuns => exact absurd hRuns hIdle
  | pending hFd hSuspended hSlot hDue =>
    exact .pending (hSockets hFd (ne_of_eq_of_ne hSlot (Option.some_ne_none _))) hSuspended hSlot
      hDue
  | answered hHeld hNone hAnswer hFalse => exact .answered hHeld hNone hAnswer hFalse

end Tracks

section Runs

variable {wrap : Nat → Nat} {s s' : State} {trace events : List Event}

theorem CloseCalled.mono {socket : Nat} (h : CloseCalled trace socket) :
    CloseCalled (trace ++ events) socket :=
  h.imp (List.mem_append_left _) (List.mem_append_left _)

/-- Open descriptors have one owner, `fd_` tells which are closed, and every operation
is where it should be. -/
structure Tracked (s : State) (trace : List Event) : Prop where
  distinct : ∀ {i j : Nat} {fd : Int}, s.sockets[i]? = some fd → s.sockets[j]? = some fd → 0 ≤ fd →
    i = j
  closed_iff : ∀ {i : Nat}, .closed i ∈ trace ↔ ∃ fd, s.sockets[i]? = some fd ∧ fd < 0
  tracks : ∀ {h op}, s.operations h = some op →
    Tracks s.world s.sockets (CloseCalled trace) h op.call op.pc

namespace Tracked

theorem start : Tracked .create [] where
  distinct h := nomatch h
  closed_iff := by simp [State.create]
  tracks h := nomatch h

variable {h c : Nat} {label : Io.Label} {w : World} {observed : List Obs}

theorem idle_of_inactive (hActive : s.active = none) {op : Operation}
    (hOp : s.operations h = some op) : ¬s.world.Runs h := by
  intro hRuns
  have hSome := active_eq_some.mpr ⟨hRuns, hOp⟩
  rw [hActive] at hSome
  cases hSome

theorem idle_of_ne {left : Nat} (hControl : s.world.control = .running c left) (hNe : h ≠ c) :
    ¬s.world.Runs h := by
  rintro ⟨left', hEq⟩
  cases hControl.symm.trans hEq
  exact hNe rfl

/-- No `close` returns in this step. -/
theorem of_kept (inv : Tracked s trace) (hSockets : s'.sockets = s.sockets)
    (hEvents : ∀ {i}, .closed i ∉ events)
    (hTracks : ∀ {h op}, s'.operations h = some op →
      Tracks s'.world s'.sockets (CloseCalled (trace ++ events)) h op.call op.pc) :
    Tracked s' (trace ++ events) where
  distinct := hSockets ▸ inv.distinct
  closed_iff := by
    intro i
    rw [List.mem_append, or_iff_left hEvents, hSockets]
    exact inv.closed_iff
  tracks := hTracks

theorem closed_not_mem_io {i : Nat} (observed : List Obs) : .closed i ∉ observed.map Event.io := by
  intro hMem
  obtain ⟨o, -, hEq⟩ := List.mem_map.mp hMem
  cases hEq

theorem closed_not_mem_goto {i : Nat} {call : Call} {resumed : Bool} {pc : Pc} :
    .closed i ∉ (s.goto h call resumed pc).2 := by
  unfold State.goto
  cases pc with
  | ended => simp
  | _ => cases resumed <;> simp

/-- Only the operation that runs moves. -/
theorem goto (inv : Tracked s trace) {call : Call} {resumed : Bool} {pc : Pc} (first : List Event)
    (hFirst : ∀ {i}, .closed i ∉ first) (hOwn : Tracks s.world s.sockets
      (CloseCalled (trace ++ (first ++ (s.goto c call resumed pc).2))) c call pc) :
    Tracked (s.goto c call resumed pc).1 (trace ++ (first ++ (s.goto c call resumed pc).2)) := by
  refine inv.of_kept rfl ?_ ?_
  · intro i hMem
    rcases List.mem_append.mp hMem with hMem | hMem
    · exact hFirst hMem
    · exact closed_not_mem_goto hMem
  · intro h op hOp
    by_cases hEq : h = c
    · subst hEq
      rw [goto_operations, Function.update_self] at hOp
      cases hOp
      exact hOwn
    · rw [goto_operations, Function.update_of_ne hEq] at hOp
      exact (inv.tracks hOp).still rfl rfl rfl rfl le_rfl id CloseCalled.mono

/-- While an operation has the thread, only the kernel and the clock move beside it. -/
theorem outside_of_allows (hAllows : s.allows label = true) (hActive : s.active ≠ none)
    (hNext : s.world.next (.tokens wrap) label = some (w, observed)) :
    w.frames = s.world.frames ∧ w.fdStates = s.world.fdStates ∧ w.timers = s.world.timers ∧
      w.control = s.world.control ∧ s.world.now ≤ w.now := by
  obtain ⟨⟨h, op⟩, hSome⟩ := Option.ne_none_iff_exists'.mp hActive
  cases label with
  | change | close =>
    cases hNext
    exact ⟨rfl, rfl, rfl, rfl, le_rfl⟩
  | tick d =>
    cases hNext
    exact ⟨rfl, rfl, rfl, rfl, Int.le_add_of_nonneg_right (Int.natCast_nonneg d)⟩
  | advance =>
    obtain ⟨⟨left, hControl⟩, -⟩ := active_eq_some.mp hSome
    simp [World.next, World.outsideStep, World.advance, hControl] at hNext
  | cancel => cases hAllows
  | _ => simp [State.allows, hSome] at hAllows

theorem io (inv : Tracked s trace)
    (hReaches : (Io.machine (.tokens wrap)).Reaches s.world (ios trace))
    (hAllows : s.allows label = true)
    (hNext : s.world.next (.tokens wrap) label = some (w, observed))
    (hWrap : Set.InjOn wrap (Set.Iio w.nextToken)) :
    Tracked { s with world := w } (trace ++ observed.map .io) := by
  refine inv.of_kept rfl (closed_not_mem_io observed) ?_
  intro h op hOp
  by_cases hActive : s.active = none
  · refine (inv.tracks hOp).next (idle_of_inactive hActive hOp) hReaches hNext hWrap
      CloseCalled.mono ?_
    rintro fd faults rfl
    cases hAllows
  · obtain ⟨hFrames, hStates, hTimers, hControl, hNow⟩ := outside_of_allows hAllows hActive hNext
    exact (inv.tracks hOp).still hFrames hStates hTimers hControl hNow id CloseCalled.mono

/-- A new stream has a descriptor that no other has. -/
theorem opens (inv : Tracked s trace) {fd : Int} (hFd : 0 ≤ fd) (hNew : fd ∉ s.sockets) :
    Tracked { s with sockets := s.sockets ++ [fd] } (trace ++ [.opened s.sockets.length]) where
  distinct := by
    have hCases {i : Nat} {fd' : Int} (h : (s.sockets ++ [fd])[i]? = some fd') :
        s.sockets[i]? = some fd' ∨ i = s.sockets.length ∧ fd' = fd := by
      rw [List.getElem?_append] at h
      split_ifs at h with hLt
      · exact .inl h
      · obtain ⟨hZero, hEq⟩ := List.getElem?_eq_some_iff.mp h
        simp only [List.length_singleton] at hZero
        have hIndex : i = s.sockets.length := by omega
        subst hIndex
        simp only [Nat.sub_self, List.getElem_cons_zero] at hEq
        exact .inr ⟨rfl, hEq.symm⟩
    intro i j fd' hi hj hOpen
    rcases hCases hi with hOld | ⟨rfl, hEq⟩
    · rcases hCases hj with hOld' | ⟨-, hEq⟩
      · exact inv.distinct hOld hOld' hOpen
      · exact absurd (hEq ▸ List.mem_of_getElem? hOld) hNew
    · rcases hCases hj with hOld | ⟨rfl, -⟩
      · exact absurd (hEq ▸ List.mem_of_getElem? hOld) hNew
      · rfl
  closed_iff := by
    intro i
    rw [List.mem_append, or_iff_left (by simp), inv.closed_iff]
    constructor
    · rintro ⟨fd', hSome, hNeg⟩
      refine ⟨fd', ?_, hNeg⟩
      exact (List.getElem?_append_left (List.getElem?_eq_some_iff.mp hSome).1).trans hSome
    · rintro ⟨fd', hSome, hNeg⟩
      refine ⟨fd', ?_, hNeg⟩
      rw [List.getElem?_append] at hSome
      split_ifs at hSome
      · exact hSome
      · have hMem := List.mem_singleton.mp (List.mem_of_getElem? hSome)
        omega
  tracks := by
    intro h op hOp
    refine (inv.tracks hOp).still rfl rfl rfl rfl le_rfl ?_ CloseCalled.mono
    intro fd' hSome
    exact (List.getElem?_append_left (List.getElem?_eq_some_iff.mp hSome).1).trans hSome

/-- `cancel` for a descriptor ends only the waits of its owner. -/
theorem cancel (inv : Tracked s trace)
    (hReaches : (Io.machine (.tokens wrap)).Reaches s.world (ios trace)) (hActive : s.active = none)
    {socket : Nat} {fd : Int} {faults : Faults} {w : World} {observed : List Obs}
    (hFd : s.sockets[socket]? = some fd)
    (hNext : s.world.next (.tokens wrap) (.cancel fd faults) = some (w, observed))
    (hWrap : Set.InjOn wrap (Set.Iio w.nextToken)) (hClose : CloseCalled events socket)
    (hOpen : 0 ≤ fd) {h : Nat} {op : Operation} (hOp : s.operations h = some op) :
    Tracks w s.sockets (CloseCalled (trace ++ events)) h op.call op.pc := by
  refine (inv.tracks hOp).next (idle_of_inactive hActive hOp) hReaches hNext hWrap CloseCalled.mono
    ?_
  rintro fd' faults' hLabel hOwner
  cases hLabel
  rw [inv.distinct hOwner hFd hOpen]
  exact hClose.imp (List.mem_append_right _) (List.mem_append_right _)

/-- `close` completes the waits of the descriptor before `fd_` is reset, so the operation that is
resumed next finds it closed. -/
theorem closed (inv : Tracked s trace)
    (hReaches : (Io.machine (.tokens wrap)).Reaches s.world (ios trace)) (hActive : s.active = none)
    {socket : Nat} {fd : Int} {faults : Faults} {w w' : World} {observed later : List Obs}
    (hFd : s.sockets[socket]? = some fd) (hOpen : 0 ≤ fd)
    (hNext : s.world.next (.tokens wrap) (.cancel fd faults) = some (w, observed))
    (hOk : (s.world.cancel faults fd).error = none)
    (hClose : w.next (.tokens wrap) (.close fd) = some (w', later))
    (hWrap : Set.InjOn wrap (Set.Iio w'.nextToken)) :
    Tracked ⟨w', s.sockets.set socket (-1), s.operations⟩
      (trace ++ (observed.map .io ++ later.map .io ++ [.closed socket])) := by
  have hLt : socket < s.sockets.length := (List.getElem?_eq_some_iff.mp hFd).1
  have hSet (i : Nat) : (s.sockets.set socket (-1))[i]? = if i = socket then some (-1)
      else s.sockets[i]? := by
    by_cases hEq : i = socket
    · rw [hEq, List.getElem?_set_self hLt, if_pos rfl]
    · rw [List.getElem?_set_ne (Ne.symm hEq), if_neg hEq]
  have hLast {i : Nat} : .closed i ∈ observed.map Event.io ++ later.map Event.io ++
      [.closed socket] ↔ i = socket := by
    simp
  have hWrap' := hWrap.mono (Set.Iio_subset_Iio (nextToken_le_of_step (Io.step_of_next hClose)))
  obtain rfl := cancel_of_next hNext
  cases hClose
  refine ⟨?_, ?_, ?_⟩
  · intro i j fd' hi hj hOpen'
    rw [hSet] at hi hj
    split_ifs at hi hj
    · cases hi
      exact absurd hOpen' (by decide)
    · cases hi
      exact absurd hOpen' (by decide)
    · cases hj
      exact absurd hOpen' (by decide)
    · exact inv.distinct hi hj hOpen'
  · intro i
    rw [List.mem_append, hLast, inv.closed_iff, hSet]
    by_cases hEq : i = socket
    · simp [hEq]
    · simp [hEq]
  · intro h op hOp
    have hTracks := inv.cancel hReaches hActive hFd hNext hWrap' (.inl (hLast.mpr rfl)) hOpen hOp
    have hIdle : ¬World.Runs (s.world.cancel faults fd).state h := by
      rintro ⟨left, hEq⟩
      rw [(elsewhere_cancel (allKeyed_of_reaches hReaches fd)).control] at hEq
      exact idle_of_inactive hActive hOp ⟨left, hEq⟩
    refine (hTracks.reseat hIdle ?_).still rfl rfl rfl rfl le_rfl id id
    intro fd' event hOwner hSlot
    rw [hSet]
    split_ifs with hEq
    · rw [hEq, hFd] at hOwner
      cases hOwner
      exact absurd (cancel_slotAt_of_returned hOk) hSlot
    · exact hOwner

/-- The coroutine that runs gives the thread away or keeps it; the others wait. -/
theorem others (inv : Tracked s trace)
    (hReaches : (Io.machine (.tokens wrap)).Reaches s.world (ios trace)) {left : Nat}
    (hControl : s.world.control = .running c left)
    (hNext : s.world.next (.tokens wrap) label = some (w, observed))
    (hLabel : ∀ {fd faults}, label ≠ .cancel fd faults)
    (hWrap : Set.InjOn wrap (Set.Iio w.nextToken)) (hNe : h ≠ c) {op : Operation}
    (hOp : s.operations h = some op) :
    Tracks w s.sockets (CloseCalled (trace ++ events)) h op.call op.pc :=
  (inv.tracks hOp).next (idle_of_ne hControl hNe) hReaches hNext hWrap CloseCalled.mono
    (fun hEq => absurd hEq hLabel)

end Tracked

/-- The time left does not end before the call's own. -/
theorem due_remaining (call : Call) {now : Int} (h : (0 : Int) ≤ call.deadline.remaining now) :
    call.Due (now + call.deadline.remaining now * 1000000) := by
  by_cases hTimeout : 0 ≤ call.timeout
  · have hEnabled : call.deadline.enabled = true := decide_eq_true hTimeout
    obtain ⟨-, hLate, -⟩ := Deadline.remaining_bounds hEnabled now
    have hDeadline : call.deadline.deadline = call.start + call.timeout * nanoseconds :=
      if_pos hTimeout
    rw [hDeadline] at hLate
    exact ⟨hTimeout, hLate⟩
  · have hDisabled : call.deadline.enabled = false := decide_eq_false hTimeout
    have hNone : call.deadline.remaining now = kNoTimeout := by
      rw [Deadline.remaining, hDisabled]
      rfl
    rw [hNone] at h
    exact absurd h (by decide)

/-- An operation that is resumed has its answer. -/
theorem Tracks.answer_of_runs {w : World} {past : List Obs} {sockets : List Int}
    {closing : Nat → Prop} {h written : Nat} {call : Call} {fd : Int} {frame : Frame}
    (hTracks : Tracks w sockets closing h call (.waiting written fd))
    (hReaches : (Io.machine (.tokens wrap)).Reaches w past) (hRuns : w.Runs h)
    (hFrame : w.frames h = some frame) (hFalse : frame.ready = false) :
    closing call.socket ∨ call.Due w.now := by
  cases hTracks with
  | calm hCalm => cases hCalm
  | pending hFd hSuspended =>
    obtain ⟨left, hControl⟩ := hRuns
    exact absurd rfl (ne_running ((scheduled_of_reaches hReaches).mono (fun _ => trivial))
      hSuspended hControl)
  | answered hHeld hNone hAnswer hReason =>
    rw [World.answer, hFrame, Option.map_some] at hAnswer
    exact hReason ((Option.some.inj hAnswer).symm.trans hFalse)

theorem nextToken_le_of_step (h : Step wrap s s' events) :
    s.world.nextToken ≤ s'.world.nextToken := by
  have hLe {w w' : World} {label : Io.Label} {observed : List Obs}
      (hNext : w.next (.tokens wrap) label = some (w', observed)) :
      w.nextToken ≤ w'.nextToken := Io.nextToken_le_of_step (Io.step_of_next hNext)
  cases h with
  | io hAllows hNext | closeThrew hActive hFd hOpen hNext | arm hControl hOp hFd hNext
  | refused hControl hOp hNext | leave hControl hOp hNext => exact hLe hNext
  | closed hActive hFd hOpen hNext hOk hClose => exact (hLe hNext).trans (hLe hClose)
  | _ => exact le_rfl

/-- Every step keeps descriptors with one owner and each operation where it should be, so that a
resumed one can tell from `fd_` and the clock why its wait has ended. -/
theorem Tracked.step (inv : Tracked s trace)
    (hReaches : (Io.machine (.tokens wrap)).Reaches s.world (ios trace)) (h : Step wrap s s' events)
    (hWrap : Set.InjOn wrap (Set.Iio s'.world.nextToken)) : Tracked s' (trace ++ events) := by
  cases h with
  | io hAllows hNext => exact inv.io hReaches hAllows hNext hWrap
  | opens hFd hNew => exact inv.opens hFd hNew
  | closedBefore =>
    rw [List.append_nil]
    exact inv
  | @closeThrew socket fd faults w observed hActive hFd hOpen hNext =>
    refine inv.of_kept rfl (by simp) ?_
    intro h op hOp
    exact inv.cancel hReaches hActive hFd hNext hWrap (.inr (by simp)) hOpen hOp
  | closed hActive hFd hOpen hNext hOk hClose =>
      exact inv.closed hReaches hActive hFd hOpen hNext hOk hClose hWrap
  | @begin c left socket fd request timeout failure hControl hFree hFd =>
    refine inv.goto [.began c ⟨socket, request, timeout, s.world.now⟩] (by simp) ?_
    by_cases hOpen : 0 ≤ fd
    · exact .calm (begin_of_open request failure hOpen) ⟨left, hControl⟩ hFd hOpen
    · obtain ⟨outcome, hEnded, -⟩ := begin_of_closed request failure (Int.not_le.mp hOpen)
      rw [hEnded]
      exact .ended ⟨left, hControl⟩
  | @attempt c left written call answer failure pc hControl hOp hAttempt =>
    refine inv.goto [.tried c call answer] (by simp) ?_
    cases inv.tracks hOp with
    | calm hCalm hRuns hFd hOpen => exact .calm (attempt_calm call.request hAttempt) hRuns hFd hOpen
  | @ask c left written call hControl hOp =>
    refine inv.goto [] nofun ?_
    cases inv.tracks hOp with
    | calm hCalm hRuns hFd hOpen => exact .arming hRuns hFd hOpen (due_remaining call)
  | @arm c left written address call timeout fd faults w observed hControl hOp hFd hNext hOk =>
    refine inv.of_kept rfl (Tracked.closed_not_mem_io observed) ?_
    intro h op hMoved
    rw [goto_operations] at hMoved
    rcases Update.some_cases hMoved with ⟨rfl, rfl⟩ | ⟨hEq, hMoved⟩
    · obtain ⟨hSuspended, hSlot, hTimers⟩ := armed_of_next hReaches hNext hWrap hControl hOk
      refine .pending hFd hSuspended hSlot (fun timer hTimer hToken => ?_)
      obtain ⟨hTimeout, hDeadline⟩ := hTimers timer hTimer hToken
      rw [hDeadline]
      cases inv.tracks hOp with
      | calm hCalm => cases hCalm
      | arming hRuns hFd' hOpen hDue => exact hDue hTimeout
    · exact inv.others hReaches hControl hNext nofun hWrap hEq hMoved
  | @refused c left written address call timeout fd faults w observed e hControl hOp hNext hError =>
    have hKept : w.control = s.world.control := by
      cases Io.step_of_next hNext with
      | wait hRunning hFresh hArmed =>
        cases hControl.symm.trans hRunning
        rw [hArmed] at hError
        cases hError
      | waitThrows =>
        exact (elsewhere_armWait (allKeyed_of_reaches hReaches _) (Set.mem_univ _) ..).control
    refine inv.of_kept rfl ?_ ?_
    · intro i hMem
      rcases List.mem_append.mp hMem with hMem | hMem
      · exact Tracked.closed_not_mem_io observed hMem
      · exact Tracked.closed_not_mem_goto hMem
    · intro h op hMoved
      rw [goto_operations] at hMoved
      rcases Update.some_cases hMoved with ⟨rfl, rfl⟩ | ⟨hEq, hMoved⟩
      · exact .ended ⟨left, hKept.trans hControl⟩
      · exact inv.others hReaches hControl hNext nofun hWrap hEq hMoved
  | @resume c left written call target fd frame hControl hOp hFd =>
    refine inv.goto [] nofun ?_
    by_cases hOpen : 0 ≤ fd
    · cases frame.ready with
      | true =>
        rw [resume_of_ready call.request written hOpen]
        exact .calm (.trying written) ⟨left, hControl⟩ hFd hOpen
      | false =>
        obtain ⟨outcome, hEnded, -⟩ := resume_of_false call.request written hOpen
        rw [hEnded]
        exact .ended ⟨left, hControl⟩
    · obtain ⟨outcome, hEnded, -⟩ := resume_of_closed call.request written (Int.not_le.mp hOpen)
        frame.ready
      rw [hEnded]
      exact .ended ⟨left, hControl⟩
  | @leave c left call outcome exception w observed hControl hOp hNext =>
    refine inv.of_kept rfl (Tracked.closed_not_mem_io observed) ?_
    intro h op hMoved
    dsimp only at hMoved
    obtain ⟨hEq, hMoved⟩ := Update.of_none hMoved
    exact inv.others hReaches hControl hNext nofun hWrap hEq hMoved

theorem tracked_of_reaches (h : (machine wrap).Reaches s trace)
    (hWrap : Set.InjOn wrap (Set.Iio s.world.nextToken)) : Tracked s trace := by
  revert hWrap
  apply h.invariant (P := fun s trace => Set.InjOn wrap (Set.Iio s.world.nextToken) →
    Tracked s trace)
  · exact fun _ => .start
  · intro s s' trace events label hReaches ih hNext hWrap
    have hStep := step_of_next hNext
    exact (ih (hWrap.mono (Set.Iio_subset_Iio (nextToken_le_of_step hStep)))).step
      (world_of_reaches hReaches) hStep hWrap

theorem each_silent {past : List Event → List Event} (hSilent : ∀ e ∈ events, e.socket = none) :
    Each (fun later => JudgedUnlessThrew (past later)) events := by
  intro before e after hEq _
  have hNone : e.socket = none := hSilent e (hEq ▸ List.mem_append_right _ (List.mem_cons_self ..))
  cases e with
  | ended => cases hNone
  | continued => cases hNone
  | _ => trivial

theorem silent_map (observed : List Obs) : ∀ e ∈ observed.map Event.io, e.socket = none := by
  intro e hMem
  obtain ⟨o, -, rfl⟩ := List.mem_map.mp hMem
  rfl

theorem each_calm {past : List Event → List Event} {h : Nat} {call : Call} {pc : Pc}
    (hCalm : pc.Calm) :
    Each (fun later => JudgedUnlessThrew (past later)) (s.goto h call false pc).2 := by
  cases hCalm with
  | trying => exact each_nil
  | asking => exact each_nil
  | @ended outcome hTime hClosed =>
    refine each_cons.mpr ⟨fun _ => ⟨?_, ?_, nofun⟩, each_nil⟩
    · rw [hTime]
      exact nofun
    · rw [hClosed]
      exact nofun

/-- A resumed operation ends with a result that the reason of its resumption explains. -/
theorem each_resumed (inv : Tracked s trace)
    (hReaches : (Io.machine (.tokens wrap)).Reaches s.world (ios trace)) {c left written : Nat}
    {call : Call} {target fd : Int} {frame : Frame} (hControl : s.world.control = .running c left)
    (hOp : s.operations c = some ⟨call, .waiting written target⟩)
    (hFd : s.sockets[call.socket]? = some fd) (hFrame : s.world.frames c = some frame) :
    Each (fun later => JudgedUnlessThrew (trace ++ later))
      (s.goto c call true (call.request.body.resume written frame.ready fd)).2 := by
  by_cases hOpen : 0 ≤ fd
  · have hStill (hThrew : .closeThrew call.socket ∉ trace ++ []) : ¬CloseCalled (trace ++ [])
        call.socket := by
      rintro (hClosed | hMem)
      · rw [List.append_nil, inv.closed_iff] at hClosed
        obtain ⟨fd', hFd', hNeg⟩ := hClosed
        cases hFd.symm.trans hFd'
        exact absurd hOpen (Int.not_le.mpr hNeg)
      · exact hThrew hMem
    cases hReady : frame.ready with
    | true =>
      rw [resume_of_ready call.request written hOpen]
      exact each_cons.mpr ⟨fun hThrew => hStill (hThrew _ rfl), each_nil⟩
    | false =>
      obtain ⟨outcome, hEnded, -, hNotClosed⟩ := resume_of_false call.request written hOpen
      rw [hEnded]
      refine each_cons.mpr ⟨fun hThrew => ?_, each_nil⟩
      have hOpenStill := hStill (hThrew _ rfl)
      refine ⟨fun _ => ⟨?_, hOpenStill⟩, ?_, fun _ hCalled => absurd hCalled hOpenStill⟩
      · rcases (inv.tracks hOp).answer_of_runs hReaches ⟨left, hControl⟩ hFrame
          hReady with hCalled | hDue
        · exact absurd hCalled.mono hOpenStill
        · exact hDue
      · rw [hNotClosed]
        exact nofun
  · obtain ⟨outcome, hEnded, hClosed, hTime⟩ :=
      resume_of_closed call.request written (Int.not_le.mp hOpen) frame.ready
    have hCalled : CloseCalled (trace ++ []) call.socket :=
      CloseCalled.mono (.inl (inv.closed_iff.mpr ⟨fd, hFd, Int.not_le.mp hOpen⟩))
    rw [hEnded]
    refine each_cons.mpr ⟨fun _ => ⟨?_, fun _ => hCalled, fun _ _ => hClosed⟩, each_nil⟩
    rw [hTime]
    exact nofun

theorem judged_of_step (inv : Tracked s trace)
    (hReaches : (Io.machine (.tokens wrap)).Reaches s.world (ios trace))
    (h : Step wrap s s' events) :
    Each (fun later => JudgedUnlessThrew (trace ++ later)) events := by
  cases h with
  | io | arm | leave => exact each_silent (silent_map _)
  | opens => exact each_silent (by simp [Event.socket])
  | closedBefore => exact each_nil
  | closeThrew =>
    exact each_append.mpr ⟨each_silent (silent_map _), each_silent (by simp [Event.socket])⟩
  | closed =>
    refine each_append.mpr ⟨each_append.mpr ⟨?_, ?_⟩, each_silent (by simp [Event.socket])⟩
    · exact each_silent (silent_map _)
    · exact each_silent (silent_map _)
  | @begin c left socket fd request timeout failure hControl hFree hFd =>
    refine each_cons.mpr ⟨fun _ => trivial, ?_⟩
    by_cases hOpen : 0 ≤ fd
    · exact each_calm (begin_of_open request failure hOpen)
    · obtain ⟨outcome, hEnded, hTime⟩ := begin_of_closed request failure (Int.not_le.mp hOpen)
      rw [hEnded]
      refine each_cons.mpr ⟨fun _ => ⟨?_, fun _ => ?_, nofun⟩, each_nil⟩
      · rw [hTime]
        exact nofun
      · exact CloseCalled.mono (.inl (inv.closed_iff.mpr ⟨fd, hFd, Int.not_le.mp hOpen⟩))
  | @attempt c left written call answer failure pc hControl hOp hAttempt =>
    refine each_cons.mpr ⟨fun _ => trivial, ?_⟩
    exact each_calm (attempt_calm call.request hAttempt)
  | ask => exact each_nil
  | refused => exact each_append.mpr ⟨each_silent (silent_map _), each_calm (.ended rfl rfl)⟩
  | resume hControl hOp hFd hFrame => exact each_resumed inv hReaches hControl hOp hFd hFrame

theorem judged_of_reaches (h : (machine wrap).Reaches s trace)
    (hWrap : Set.InjOn wrap (Set.Iio s.world.nextToken)) : Each JudgedUnlessThrew trace := by
  revert hWrap
  apply h.invariant (P := fun s trace => Set.InjOn wrap (Set.Iio s.world.nextToken) →
    Each JudgedUnlessThrew trace)
  · exact fun _ => each_nil
  · intro s s' trace events label hReaches ih hNext hWrap
    have hStep := step_of_next hNext
    have hBefore := hWrap.mono (Set.Iio_subset_Iio (nextToken_le_of_step hStep))
    refine each_append.mpr ⟨ih hBefore, ?_⟩
    exact judged_of_step (tracked_of_reaches hReaches hBefore) (world_of_reaches hReaches) hStep

end Runs

/-- Unless a `close` has thrown, timeouts are never early and every outcome is the right
one: for tokens that are counted without end, and for 64-bit tokens while they last. -/
theorem outcomes_judged (s : State) (trace : List Event) :
    ((machine id).Reaches s trace → Each JudgedUnlessThrew trace) ∧
    ((machine (· % 2 ^ 64)).Reaches s trace → s.world.nextToken ≤ 2 ^ 64 →
      Each JudgedUnlessThrew trace) := by
  constructor
  · intro h
    exact judged_of_reaches h Function.injective_id.injOn
  · intro h hTokens
    exact judged_of_reaches h (injOn_word hTokens)

/-- A `read_some` with 5 ms is resumed by its timer, and the `accept` of a listener by
`close`. -/
theorem outcomes_judged_timer_and_close :
    ∃ s trace, (machine (· % 2 ^ 64)).Reaches s trace ∧ s.world.nextToken ≤ 2 ^ 64 ∧
      .ended 1 ⟨0, .readSome 10, 5, 0⟩ true (.io ⟨.timeout, 0, 0⟩) 5000000 ∈ trace ∧
      .ended 2 ⟨1, .accept, 9, 0⟩ true (.threw closedWhileAwaiting) 5000000 ∈ trace ∧
      Each JudgedUnlessThrew trace := by
  let go : Label := .io (.advance 0 none .none)
  let labels : List Label :=
    [.opens 3, .opens 4, .io (.create 1), .io (.create 2), .io (.spawn (some 1) false),
      .io (.spawn (some 2) false),
      .io .run, go, go, .begin 0 (.readSome 10) 5 none, .attempt (.failed EAGAIN) none, .ask,
      .arm 100 .none, go, go,
      .begin 1 .accept 9 none, .attempt (.failed EAGAIN) none, .ask, .arm 101 .none, go,
      .io (.tick 5000000), go, go, go,
      .io (.advance 0 (some []) .none), go, go, go, go, .resume, .leave 0, .close 1 .none, go, go,
      go, go,
      .io (.advance 0 (some []) .none), go, go, go, go, .resume]
  have hRun : ((machine (· % 2 ^ 64)).run (machine (· % 2 ^ 64)).start labels).map (fun r =>
      decide (r.1.world.nextToken ≤ 2 ^ 64 ∧
        .ended 1 ⟨0, .readSome 10, 5, 0⟩ true (.io ⟨.timeout, 0, 0⟩) 5000000 ∈ r.2 ∧
        .ended 2 ⟨1, .accept, 9, 0⟩ true (.threw closedWhileAwaiting) 5000000 ∈ r.2)) =
        some true := by
    decide +kernel
  obtain ⟨⟨s, trace⟩, hRun, hEq⟩ := Option.map_eq_some_iff.mp hRun
  obtain ⟨hTokens, hTimeout, hClosed⟩ := of_decide_eq_true hEq
  have hReaches := Machine.Reaches.start.run hRun
  exact ⟨s, trace, hReaches, hTokens, hTimeout, hClosed, (outcomes_judged s trace).2 hReaches
    hTokens⟩

/-- A reader and a writer wait without a timeout when `close` is called. It schedules
the reader with `false`, finds no memory for the writer and throws, with `fd_` as it
was. The reader reports a timeout. -/
theorem timeout_of_failed_close :
    ∃ s before, (machine (· % 2 ^ 64)).Reaches s
        (before ++ [.ended 1 ⟨0, .readSome 10, -1, 0⟩ true (.io ⟨.timeout, 0, 0⟩) 0]) ∧
      CloseCalled before 0 ∧ ¬Judged before (.ended 1 ⟨0, .readSome 10, -1, 0⟩ true
        (.io ⟨.timeout, 0, 0⟩) 0) := by
  let go : Label := .io (.advance 0 none .none)
  let labels : List Label :=
    [.opens 3, .io (.create 1), .io (.create 2), .io (.create 9), .io (.spawn (some 1) false),
      .io (.spawn (some 2) false), .io (.spawn (some 9) false), .io .run, go, go,
      .begin 0 (.readSome 10) (-1) none, .attempt (.failed EAGAIN) none, .ask, .arm 100 .none, go,
      go,
      .begin 0 (.writeAll 10) (-1) none, .attempt (.failed EAGAIN) none, .ask, .arm 101 .none, go,
      go,
      .close 0 { Faults.none with pushAgain := true }, .io (.finish none), go, go, go, go,
      .io (.advance 0 (some []) .none), go, go, go, go, .resume]
  have hRun : ((machine (· % 2 ^ 64)).run (machine (· % 2 ^ 64)).start labels).map (fun r =>
      (r.2.getLast?, decide (.closeThrew 0 ∈ r.2.dropLast))) =
        some (some (.ended 1 ⟨0, .readSome 10, -1, 0⟩ true (.io ⟨.timeout, 0, 0⟩) 0), true) := by
    decide +kernel
  obtain ⟨⟨s, trace⟩, hRun, hEq⟩ := Option.map_eq_some_iff.mp hRun
  obtain ⟨hLast, hThrew⟩ := Prod.mk.inj hEq
  have hTrace := List.dropLast_append_getLast? (l := trace) _ hLast
  have hReaches := Machine.Reaches.start.run hRun
  rw [List.nil_append, ← hTrace] at hReaches
  have hCalled : CloseCalled trace.dropLast 0 := .inr (of_decide_eq_true hThrew)
  exact ⟨s, trace.dropLast, hReaches, hCalled, fun hJudged => (hJudged.1 rfl).2 hCalled⟩

end Tinycoro.Net.Operations
