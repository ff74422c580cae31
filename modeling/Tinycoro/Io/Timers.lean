import Tinycoro.Io.Arming
import Tinycoro.Library.Tombstones
import Mathlib.Data.Rat.Floor

/-! The timer heap and the time `run` sleeps. A timer stays in the heap when its
wait ends early, so the heap holds stale entries of every age. The timers of the
waits that are still there are each in it once, and the earliest of these decides
how long `epoll_wait` may block. -/
namespace Tinycoro.Io

open Effect Transition World Tombstones

/-- The deadlines the waits were armed with, by descriptor and direction. -/
abbrev Deadlines := Int × Event → Option Int

/-- A wait that is armed is noted with its deadline, if it has one. -/
def noteDeadline (wrap : Wrap) (deadlines : Deadlines) (w : World) (label : Label)
    (events : List Obs) : Deadlines :=
  match label with
  | .wait fd event timeout _ _ =>
    if armings events = [] then deadlines
    else Function.update deadlines (fd, event) (if 0 ≤ timeout then some (w.deadlineOf wrap timeout)
      else none)
  | _ => deadlines

/-- The executor, with the deadline of every wait noted when it is armed. -/
def timedMachine (wrap : Wrap) : Machine (World × Deadlines) Label Obs :=
  (machine wrap).annotate (fun _ => none) (noteDeadline wrap)

/-- The heap, the slots and the notes belong together. -/
structure TimersKept (w : World) (deadlines : Deadlines) (trace : List Obs) : Prop where
  armed : ∀ {timer}, timer ∈ w.timers → .armed timer.token timer.fd timer.event ∈ trace
  ended : ∀ {token fd event}, .armed token fd event ∈ trace → token ∈ completions trace ∨
    ∃ waitSlot, w.slotAt fd event = some waitSlot ∧ waitSlot.token = token
  single : ∀ {fd event waitSlot}, w.slotAt fd event = some waitSlot →
    w.timers.filter (fun timer => timer.token = waitSlot.token) =
      (deadlines (fd, event)).toList.map (fun deadline => ⟨deadline, waitSlot.token, fd, event⟩)

namespace TimersKept

variable {wrap : Wrap} {w w' : World} {deadlines : Deadlines} {trace events : List Obs}

/-- Waits that end are completed, and only timers of waits that are over are popped. -/
theorem ebbs (inv : TimersKept w deadlines trace) (tokens : Tokens wrap w trace)
    (h : Ebbs w w' events) : TimersKept w' deadlines (trace ++ events) where
  armed hTimer := List.mem_append_left _ (inv.armed (h.timers.subset hTimer))
  ended := by
    intro token fd event hArmed
    rw [completions_append, List.mem_append]
    rcases List.mem_append.mp hArmed with hOld | hNew
    · rcases inv.ended hOld with hSpent | ⟨waitSlot, hSlot, rfl⟩
      · exact .inl (.inl hSpent)
      · rcases h.lost hSlot with hKept | hSpent
        · exact .inr ⟨waitSlot, hKept, rfl⟩
        · exact .inl (.inr hSpent)
    · have hMem := mem_armings.mpr ⟨fd, event, hNew⟩
      rw [h.armings] at hMem
      cases hMem
  single := by
    intro fd event waitSlot hSlot
    have hBefore := h.slots hSlot
    rw [← inv.single hBefore]
    refine h.kept fun timer hTimer hOver => decide_eq_false fun hToken => ?_
    obtain ⟨rfl, rfl⟩ := tokens.home (.inl (inv.armed hTimer))
      (.inr (.inr ⟨waitSlot, hBefore, hToken.symm⟩))
    rw [timerActive_iff.mpr ⟨waitSlot, hSlot, hToken.symm⟩] at hOver
    cases hOver

/-- A wait is armed under a new token. -/
theorem arms (inv : TimersKept w deadlines trace) (tokens : Tokens wrap w trace)
    (hWrap : Set.InjOn wrap.token (Set.Iio (w.nextToken + 1))) {fd timeout : Int} {event : Event}
    {waitSlot : WaitSlot} (hToken : waitSlot.token = wrap w.nextToken)
    (hFree : w.slotAt fd event = none)
    (hSlots : ∀ other direction, w'.slotAt other direction = if other = fd ∧
      direction = event then some waitSlot else w.slotAt other direction)
    (hTimers : w'.timers = w.timers ++
      if 0 ≤ timeout then [w.timerOf wrap waitSlot.token fd event timeout] else [])
    (hEvents : ∀ {token other direction}, .armed token other direction ∈ events ↔
      token = waitSlot.token ∧ other = fd ∧ direction = event) :
    TimersKept w' (Function.update deadlines (fd, event)
      (if 0 ≤ timeout then some (w.deadlineOf wrap timeout) else none)) (trace ++ events) := by
  have hNew {token : Nat} {other : Int} {direction : Event}
      (hMem : Mentions w trace token other direction) : token ≠ waitSlot.token := by
    rintro rfl
    obtain ⟨i, hLt, hEq⟩ := tokens.issued hMem
    have hSame := hWrap (Set.mem_Iio.mpr (by omega)) (Set.mem_Iio.mpr (by omega))
        (hToken.symm.trans hEq)
    omega
  constructor
  · intro timer hTimer
    rw [hTimers, List.mem_append] at hTimer
    rcases hTimer with hOld | hAdded
    · exact List.mem_append_left _ (inv.armed hOld)
    · split_ifs at hAdded
      · rw [List.mem_singleton.mp hAdded]
        exact List.mem_append_right _ (hEvents.mpr ⟨rfl, rfl, rfl⟩)
      · cases hAdded
  · intro token other direction hArmed
    rcases List.mem_append.mp hArmed with hOld | hAdded
    · rcases inv.ended hOld with hSpent | ⟨s, hSlot, hEq⟩
      · rw [completions_append]
        exact .inl (List.mem_append_left _ hSpent)
      · refine .inr ⟨s, ?_, hEq⟩
        rw [hSlots, if_neg]
        · exact hSlot
        · rintro ⟨rfl, rfl⟩
          rw [hFree] at hSlot
          cases hSlot
    · obtain ⟨rfl, rfl, rfl⟩ := hEvents.mp hAdded
      exact .inr ⟨waitSlot, by rw [hSlots, if_pos ⟨rfl, rfl⟩], rfl⟩
  · intro other direction s hSlot
    rw [hSlots] at hSlot
    rw [hTimers, List.filter_append]
    split_ifs at hSlot with hPlace
    · obtain ⟨rfl, rfl⟩ := hPlace
      cases hSlot
      have hNone : w.timers.filter (fun timer => timer.token = waitSlot.token) = [] := by
        apply List.filter_eq_nil_iff.mpr
        intro timer hTimer
        rw [decide_eq_true_eq]
        exact hNew (.inl (inv.armed hTimer))
      rw [hNone, Function.update_self]
      split_ifs <;> simp [timerOf]
    · have hOther : s.token ≠ waitSlot.token := hNew (.inr (.inr ⟨s, hSlot, rfl⟩))
      rw [Function.update_of_ne (by simpa using hPlace), ← inv.single hSlot]
      split_ifs <;> simp [timerOf, hOther.symm]

/-- Every step keeps the deadlines of the armed waits in `timers_`. -/
theorem next (inv : TimersKept w deadlines trace) (tokens : Tokens wrap w trace) {label : Label}
    (hNext : w.next wrap label = some (w', events))
    (hWrap : Set.InjOn wrap.token (Set.Iio w'.nextToken)) :
    TimersKept w' (noteDeadline wrap deadlines w label events) (trace ++ events) := by
  cases label with
  | wait fd event timeout address faults =>
    cases step_of_next hNext with
    | @wait h left _ _ _ _ _ hControl hFresh hOk =>
      obtain ⟨hFree, hSlots, hTimers, first, hFaults, hEvents⟩ := armWait_returned hOk
      have hArmings : armings ((w.armWait wrap faults address fd event timeout (some h)
          (some h)).events ++ [.suspended h]) ≠ [] := by
        rw [hEvents]
        simp [armings]
      simp only [noteDeadline, if_neg hArmings]
      refine inv.arms tokens (hWrap.mono (Set.Iio_subset_Iio (armWait_nextToken_lt hOk))) rfl hFree
        hSlots hTimers ?_
      intro token other direction
      rw [hEvents]
      constructor
      · intro hMem
        simp only [List.mem_append, List.mem_singleton, reduceCtorEq, or_false] at hMem
        rcases hMem with hFirst | hLast
        · obtain ⟨fault, hFault⟩ := hFaults _ hFirst
          cases hFault
        · cases hLast
          exact ⟨rfl, rfl, rfl⟩
      · rintro ⟨rfl, rfl, rfl⟩
        simp
    | @waitThrows h left _ _ _ _ _ e hControl hFresh hError =>
      have hDrops : Drops w (w.armWait wrap faults address fd event timeout (some h) (some h)).state
          ((w.armWait wrap faults address fd event timeout (some h) (some h)).events ++ [.threw e])
          :=
        (armWait_thrown (by simp [hError])).trans (.of_same (fun _ _ => rfl) rfl rfl)
      simp only [noteDeadline, if_pos hDrops.armings]
      exact inv.ebbs tokens hDrops.ebbs
  | _ => exact inv.ebbs tokens (ebbs_of_step (step_of_next hNext) (by simp))

end TimersKept

/-- Along every run, as long as no stored token was issued twice. -/
theorem timersKept_of_reaches {wrap : Wrap} {s : World × Deadlines} {trace : List Obs}
    (h : (timedMachine wrap).Reaches s trace)
    (hWrap : Set.InjOn wrap.token (Set.Iio s.1.nextToken)) : TimersKept s.1 s.2 trace := by
  revert hWrap
  apply h.invariant (P := fun s trace => Set.InjOn wrap.token (Set.Iio s.1.nextToken) →
    TimersKept s.1 s.2 trace)
  · exact fun _ => ⟨nofun, nofun, nofun⟩
  · rintro ⟨w, deadlines⟩ ⟨w', deadlines'⟩ trace events label hReaches ih hNext hWrap
    obtain ⟨hStep, rfl⟩ := Machine.annotate_next.mp hNext
    have hBefore := hWrap.mono (Set.Iio_subset_Iio (nextToken_le_of_step (step_of_next hStep)))
    exact (ih hBefore).next (tokens_of_reaches hReaches.forget hBefore) hStep hWrap

/-- A coroutine waits at this place, with this deadline. -/
def WaitsUntil (w : World) (deadlines : Deadlines) (fd : Int) (event : Event) (deadline : Int) :
    Prop :=
  (w.slotAt fd event).isSome ∧ deadlines (fd, event) = some deadline

/-- The deadlines of the waits that are there. -/
def dueTimes (w : World) (deadlines : Deadlines) : Set Int :=
  { d | ∃ fd event, WaitsUntil w deadlines fd event d }

section Timeouts

variable {wrap : Wrap} {w : World} {deadlines : Deadlines} {trace : List Obs}

/-- The timers that count are those of the waits that are there. -/
theorem TimersKept.mem_dueTimes (inv : TimersKept w deadlines trace) {d : Int} :
    d ∈ dueTimes w deadlines ↔ ∃ timer ∈ w.timers, w.timerActive timer = true ∧
    timer.deadline = d := by
  constructor
  · rintro ⟨fd, event, hWaits, hDeadline⟩
    obtain ⟨waitSlot, hSlot⟩ := Option.isSome_iff_exists.mp hWaits
    have hSingle := inv.single hSlot
    rw [hDeadline] at hSingle
    have hMem : (⟨d, waitSlot.token, fd, event⟩ : TimerEntry) ∈
        w.timers.filter (fun timer => timer.token = waitSlot.token) := by simp [hSingle]
    exact ⟨_, List.mem_of_mem_filter hMem, timerActive_iff.mpr ⟨waitSlot, hSlot, rfl⟩, rfl⟩
  · rintro ⟨timer, hTimer, hActive, rfl⟩
    obtain ⟨waitSlot, hSlot, hToken⟩ := timerActive_iff.mp hActive
    refine ⟨timer.fd, timer.event, by simp [hSlot], ?_⟩
    have hMem : timer ∈ w.timers.filter (fun timer => timer.token = waitSlot.token) :=
      List.mem_filter.mpr ⟨hTimer, by simp [hToken]⟩
    rw [inv.single hSlot, List.mem_map] at hMem
    obtain ⟨d, hDeadline, hEq⟩ := hMem
    have hSame : d = timer.deadline := congrArg TimerEntry.deadline hEq
    rw [← hSame]
    exact Option.mem_toList.mp hDeadline

/-- `next_poll_timeout` returns what the earliest deadline asks for. -/
theorem TimersKept.nextPollTimeout_eq (inv : TimersKept w deadlines trace) (now : Int)
    (pick : Pick) :
    (dueTimes w deadlines = ∅ ∧ (w.nextPollTimeout now pick).2 = -1) ∨
    ∃ timer, IsLeast (dueTimes w deadlines) timer.deadline ∧
      (w.nextPollTimeout now pick).2 = pollTimeout now (some timer) := by
  rcases prune_top w.timerActive (picks_topIndex pick) w.timers with ⟨hTop, hNone⟩ | ⟨timer, hTop,
    hMem, hActive, hLeast⟩
  · refine .inl ⟨Set.eq_empty_iff_forall_notMem.mpr fun d hd => ?_, ?_⟩
    · obtain ⟨timer, hTimer, hActive, -⟩ := inv.mem_dueTimes.mp hd
      rw [hNone timer hTimer] at hActive
      cases hActive
    · simp only [World.nextPollTimeout, hTop, pollTimeout]
  · refine .inr ⟨timer, ⟨inv.mem_dueTimes.mpr ⟨timer, hMem, hActive, rfl⟩, ?_⟩, ?_⟩
    · intro d hd
      obtain ⟨other, hOther, hLive, rfl⟩ := inv.mem_dueTimes.mp hd
      exact hLeast other hOther hLive
    · simp only [World.nextPollTimeout, hTop]

theorem pollTimeout_zero {now : Int} {timer : TimerEntry} :
    pollTimeout now (some timer) = 0 ↔ timer.deadline ≤ now := by
  simp only [pollTimeout]
  split_ifs <;> omega

/-- A deadline to come is rounded up to milliseconds, as far as an `int` goes. -/
theorem pollTimeout_pos {now : Int} {timer : TimerEntry} (h : now < timer.deadline) :
    pollTimeout now (some timer) =
      min ⌈((timer.deadline - now : Int) : ℚ) / (1000000 : Nat)⌉ 2147483647 := by
  rw [Rat.ceil_intCast_div_natCast]
  simp only [pollTimeout]
  split_ifs <;> omega

/-- A timeout for `epoll_wait` at this reading of the clock, when these deadlines
are waited for: none, or zero, or the time to the earliest in milliseconds. -/
structure TimeoutFits (due : Set Int) (now timeout : Int) : Prop where
  none : timeout = -1 ↔ due = ∅
  earliest : due.Nonempty → ∃ d, IsLeast due d
  zero : ∀ {d}, IsLeast due d → (timeout = 0 ↔ d ≤ now)
  ceil : ∀ {d}, IsLeast due d → now < d →
    timeout = min ⌈((d - now : Int) : ℚ) / (1000000 : Nat)⌉ 2147483647
  /-- the sleep does not reach a millisecond past the deadline -/
  notLate : ∀ {d}, IsLeast due d → now + timeout * 1000000 < max d now + 1000000
  /-- nor does it end before the deadline, unless that is too far away -/
  notEarly : ∀ {d}, IsLeast due d → ⌈((d - now : Int) : ℚ) / (1000000 : Nat)⌉ ≤ 2147483647 →
    d ≤ now + timeout * 1000000

theorem pollTimeout_nonneg (now : Int) (timer : TimerEntry) : 0 ≤ pollTimeout now (some timer) := by
  simp only [pollTimeout]
  split_ifs <;> omega

/-- The timeout of the poll is the time to the earliest armed deadline, rounded up. -/
theorem TimersKept.timeoutFits (inv : TimersKept w deadlines trace) (now : Int) (pick : Pick) :
    TimeoutFits (dueTimes w deadlines) now (w.nextPollTimeout now pick).2 := by
  rcases inv.nextPollTimeout_eq now pick with ⟨hNone, hEq⟩ | ⟨timer, hLeast, hEq⟩
  · have hAbsurd {d : Int} (h : IsLeast (dueTimes w deadlines) d) : False := by
      rw [hNone] at h
      exact h.1
    refine ⟨by simp [hNone, hEq], fun h => ?_, fun h => (hAbsurd h).elim, fun h => (hAbsurd h).elim,
      fun h => (hAbsurd h).elim, fun h => (hAbsurd h).elim⟩
    rw [hNone] at h
    exact h.elim fun _ hMem => hMem.elim
  · have hSame {d : Int} (h : IsLeast (dueTimes w deadlines) d) : d = timer.deadline :=
      h.unique hLeast
    have hNonneg := pollTimeout_nonneg now timer
    rw [hEq]
    refine ⟨?_, fun _ => ⟨_, hLeast⟩, ?_, ?_, ?_, ?_⟩
    · constructor
      · intro hNeg
        omega
      · intro hNone
        rw [hNone] at hLeast
        exact hLeast.1.elim
    · intro d h
      rw [hSame h]
      exact pollTimeout_zero
    · intro d h hLater
      rw [hSame h] at hLater ⊢
      exact pollTimeout_pos hLater
    · intro d h
      rw [hSame h]
      simp only [pollTimeout]
      split_ifs <;> omega
    · intro d h hFits
      rw [hSame h, Rat.ceil_intCast_div_natCast] at *
      simp only [pollTimeout]
      split_ifs <;> omega

/-- `epoll_wait` is called with the timeout of the turn. -/
theorem timeout_of_pollLoop {timeout : Int} {batch : Option (List Int)} {w' : World}
    {events : List Obs} {reports : List (Int × EpollEvents)}
    (h : w.pollLoop timeout batch = some (w', events)) (hFetched : w'.control = .dispatch reports) :
    w'.loop.kernel.timeout = some timeout := by
  unfold pollLoop at h
  split_ifs at h
  · cases h
    cases hFetched
  · cases batch with
    | none =>
      cases h
      cases hFetched
    | some =>
      simp only [Option.bind_eq_bind, Option.bind_eq_some_iff] at h
      obtain ⟨⟨kernel, fetched⟩, hWait, hEq⟩ := h
      cases hEq
      unfold Kernel.epollWait at hWait
      split_ifs at hWait
      cases hWait
      rfl

/-- What `next_poll_timeout` does in this state. -/
structure PollsOnTime (wrap : Wrap) (w : World) (deadlines : Deadlines) (trace : List Obs) :
  Prop where
  timeout : ∀ now pick, TimeoutFits (dueTimes w deadlines) now (w.nextPollTimeout now pick).2
  /-- only timers of completed waits are removed, and nothing else is changed -/
  popped : ∀ now pick, ∃ popped, w.timers.Perm (popped ++ (w.nextPollTimeout now pick).1.timers) ∧
    (∀ timer ∈ popped, timer.token ∈ completions trace) ∧
    (w.nextPollTimeout now pick).1 = { w with timers := (w.nextPollTimeout now pick).1.timers }
  /-- a wait has one timer with its token, if it has a deadline, and else none -/
  entries : ∀ {fd event waitSlot}, w.slotAt fd event = some waitSlot →
    w.timers.filter (fun timer => timer.token = waitSlot.token) =
      (deadlines (fd, event)).toList.map (fun deadline => ⟨deadline, waitSlot.token, fd, event⟩)
  /-- `run` calls `epoll_wait` with this timeout, or with none at all if a coroutine is ready -/
  asked : w.control = .poll → ∀ {pick batch faults w' events reports},
    (machine wrap).next w (.advance pick batch faults) = some (w', events) →
    w'.control = .dispatch reports →
    w'.loop.kernel.timeout = some (if w.ready = [] then (w.nextPollTimeout w.now pick).2 else 0)

/-- Along every run each `epoll_wait` is given the timeout that fits the deadlines armed then. -/
theorem pollsOnTime_of_reaches (h : (timedMachine wrap).Reaches (w, deadlines) trace)
    (hWrap : Set.InjOn wrap.token (Set.Iio w.nextToken)) : PollsOnTime wrap w deadlines trace := by
  have inv : TimersKept w deadlines trace := timersKept_of_reaches h hWrap
  refine ⟨inv.timeoutFits, fun now pick => ?_, inv.single, ?_⟩
  · obtain ⟨popped, hPerm, hStale⟩ := exists_popped w.timerActive (topIndex pick) w.timers.length
      w.timers
    refine ⟨popped, hPerm, fun timer hTimer => ?_, rfl⟩
    rcases inv.ended (inv.armed (hPerm.mem_iff.mpr (List.mem_append_left _ hTimer))) with hSpent
      | hThere
    · exact hSpent
    · have hActive := timerActive_iff.mpr hThere
      rw [hStale timer hTimer] at hActive
      cases hActive
  · intro hControl pick batch faults w' events reports hNext hFetched
    have hPoll : w.poll pick batch = some (w', events) := by
      simpa [machine, World.next, World.outsideStep, World.advance, hControl] using hNext
    unfold World.poll at hPoll
    split_ifs at hPoll with hStop hReady
    · cases hPoll
      cases hFetched
    · rw [if_neg hReady]
      exact timeout_of_pollLoop hPoll hFetched
    · rw [if_pos (not_not.mp hReady)]
      exact timeout_of_pollLoop hPoll hFetched

end Timeouts

/-- A deadline of 64 bits is the time at which the timeout has passed as long as it does not
overflow. -/
theorem deadlineOf_word {w : World} {timeout : Int} (hNow : 0 ≤ w.now) (hTimeout : 0 ≤ timeout) :
    w.deadlineOf .word timeout = w.now + timeout * 1000000 ↔
    w.now + timeout * 1000000 < 2 ^ 63 := by
  have hRange := Int.bmod_lt (x := w.now + timeout * 1000000) (m := 2 ^ 64) (by decide)
  change Int.bmod _ _ = _ ↔ _
  constructor
  · intro hSame
    omega
  · intro hFits
    apply Int.bmod_eq_of_le <;> omega

/-- In every state the executor can reach, with the deadlines its waits were armed
with, the poll timeout is that of the earliest deadline still waited for: for
tokens that are counted without end, and for 64-bit tokens while they last. A deadline
is what `arm_wait` has computed for the wait, in 64 bits as well. -/
theorem polls_on_time :
    (∀ wrap w trace, (machine wrap).Reaches w trace → ∃ deadlines, (timedMachine wrap).Reaches
    (w, deadlines) trace) ∧
    (∀ w deadlines trace, (timedMachine .unbounded).Reaches (w, deadlines) trace →
      PollsOnTime .unbounded w deadlines trace) ∧
    (∀ w deadlines trace, (timedMachine .word).Reaches (w, deadlines) trace → w.nextToken ≤ 2 ^ 64 →
      PollsOnTime .word w deadlines trace) ∧
    ∀ (w : World) (timeout : Int), 0 ≤ w.now → 0 ≤ timeout →
      (w.deadlineOf .word timeout = w.now + timeout * 1000000 ↔
      w.now + timeout * 1000000 < 2 ^ 63) := by
  refine ⟨fun wrap w trace h => h.annotate _ _, fun w deadlines trace h => ?_,
    fun w deadlines trace h hTokens => ?_, fun w timeout => deadlineOf_word⟩
  · exact pollsOnTime_of_reaches h Function.injective_id.injOn
  · exact pollsOnTime_of_reaches h (injOn_word hTokens)

/-- A wait with 5 ms left its timer behind, and the next, with 8 ms, decides: it is
due 8 ms after it was armed, at 10 ms. -/
theorem polls_on_time_stale_timer :
    ∃ (w : World) (deadlines : Deadlines) (trace : List Obs),
      (timedMachine .word).Reaches (w, deadlines) trace ∧ w.timers.length = 2 ∧
      deadlines (3, .read) = some 10000000 ∧ PollsOnTime .word w deadlines trace := by
  let go : Label := .advance 0 none .none
  let labels : List Label :=
    [.create 0, .spawn (some 0) false, .run, go, go, .wait 3 .read 5 100 .none, go, go, go,
      .change 3 ⟨true, false, false, false, false⟩ false, .tick 2000000, .advance 0 (some [3])
      .none, go, go, go, go,
      go, go, .wait 3 .read 8 100 .none, go]
  have hRun : ((timedMachine .word).run (timedMachine .word).start labels).map
      (fun r => (r.1.1.timers.length, (r.1.2 (3, .read), decide (r.1.1.nextToken ≤ 2 ^ 64)))) =
        some (2, (some 10000000, true)) := by decide +kernel
  obtain ⟨⟨⟨w, deadlines⟩, trace⟩, hRun, hEq⟩ := Option.map_eq_some_iff.mp hRun
  obtain ⟨hTimers, hDeadline, hTokens⟩ : _ ∧ _ ∧ _ := by simpa only [Prod.mk.injEq] using hEq
  have hReaches := Machine.Reaches.start.run hRun
  exact ⟨w, deadlines, _, hReaches, hTimers, hDeadline,
    polls_on_time.2.2.1 w deadlines _ hReaches (of_decide_eq_true hTokens)⟩

end Tinycoro.Io
