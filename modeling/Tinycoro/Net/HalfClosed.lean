import Tinycoro.Io.Wakeup
import Tinycoro.Io.Completion
import Tinycoro.Net.Operations

/-! A writer whose peer does not read. While the socket is neither writable nor in error,
no poll should wake the writer. The event loop asks for `EPOLLRDHUP` whatever it waits for,
and takes it for a reason to write: a peer that has half-closed the connection wakes the
writer at once, and again each time it has registered anew. -/
namespace Tinycoro.Io

open Effect Transition World

/-- No event that was fetched and not yet handled will call `on_write` for the
descriptor. -/
def Control.Mute (fd : Int) : Control → Prop
  | .dispatch events => ∀ flags, (fd, flags) ∈ events → EventLoop.selects flags .write = false
  | .dispatchWrite current flags _ rest =>
    (current = fd → EventLoop.selects flags .write = false) ∧
      ∀ flags, (fd, flags) ∈ rest → EventLoop.selects flags .write = false
  | _ => True

namespace Control.Mute

variable {wrap : Nat → Nat} {w w' : World} {label : Label} {events : List Obs} {fd : Int}

theorem of_outside {control : Control} (h : control.dispatching = false) : control.Mute fd := by
  cases control with
  | dispatch => cases h
  | dispatchWrite => cases h
  | _ => trivial

/-- A report shows nothing that does not hold. -/
theorem selects_report (k : Kernel) (h : EventLoop.selects (k.conditions fd) .write = false) :
    EventLoop.selects (k.report fd) .write = false := by
  simp only [EventLoop.selects, EpollEvents.terminal, Bool.or_eq_false_iff] at h
  unfold Kernel.report
  cases k.registered fd with
  | none => rfl
  | some =>
      simp [EventLoop.selects, EpollEvents.terminal, EpollEvents.visible, h.1, h.2.1.1, h.2.1.2,
        h.2.2]

theorem within {o : IoOutcome} {control : Control} (h : control.Mute fd) :
    (World.within o control).1.control.Mute fd := by
  rcases within_control o control with hEq | hEq
  · rwa [hEq]
  · rw [hEq]
    trivial

theorem past {current : Int} {flags : EpollEvents} {channel : Nat} {event : Event} {after : Control}
    (hAt : w.Dispatches current flags channel event after) (hMute : w.control.Mute fd) :
    after.Mute fd := by
  cases hAt with
  | read hControl =>
    rw [hControl] at hMute
    refine ⟨?_, fun flags hMem => hMute flags (List.mem_cons_of_mem _ hMem)⟩
    rintro rfl
    exact hMute _ List.mem_cons_self
  | write hControl =>
    rw [hControl] at hMute
    exact hMute.2

/-- Polls that find the descriptor not ready for writing do not change this. -/
theorem step (hKeyed : w.AllKeyed) (h : Step (.tokens wrap) w label w' events)
    (hMute : w.control.Mute fd)
    (hQuiet : EventLoop.selects (w.loop.kernel.conditions fd) .write = false) :
    w'.control.Mute fd := by
  cases h with
  | epollWait hControl hTimers hWait =>
    unfold Kernel.epollWait at hWait
    split_ifs at hWait
    cases hWait
    intro flags hMem
    obtain ⟨other, -, hEq⟩ := List.mem_map.mp hMem
    cases hEq
    exact selects_report _ hQuiet
  | unwatched hControl =>
    rw [hControl] at hMute
    exact fun flags hMem => hMute flags (List.mem_cons_of_mem _ hMem)
  | unselected hAt => exact past hAt hMute
  | ready hAt => exact within (past hAt hMute)
  | expire => exact within trivial
  | spawn => rwa [toUser_state, spawn_control]
  | cancel => rwa [toUser_state, (elsewhere_cancel (hKeyed _)).control]
  | yieldThrows => rwa [(@elsewhere_schedule 0 ∅ ..).control]
  | waitThrows => rwa [(elsewhere_armWait (hKeyed _) (Set.mem_univ _) ..).control]
  | finish =>
    unfold finalSuspend
    split_ifs
    · trivial
    · split <;> trivial
  | expired => split_ifs <;> trivial
  | change | close | tick | create | drop | stop | rerun | awaitEmpty => exact hMute
  | _ => trivial

/-- Then nobody waits for writing and is told that it can. -/
theorem not_completed (h : Step (.tokens wrap) w label w' events) (hMute : w.control.Mute fd)
    (token : Nat) : .completed token fd .write true ∉ events := by
  intro hMem
  cases ending_of_step h with
  | plain hPlain => exact nomatch hPlain hMem
  | cancel other faults =>
    obtain ⟨last, hEq, hThrew⟩ := toUser_events (w.cancel faults other)
    rw [hEq, List.mem_cons, List.mem_append] at hMem
    rcases hMem with hEq | hMem | hMem
    · cases hEq
    · rcases cancel_events hMem with ⟨f, hEq⟩ | ⟨direction, waitSlot, -, hEq⟩ <;> cases hEq
    · obtain ⟨x, hEq⟩ := hThrew _ hMem
      cases hEq
  | expire =>
    rcases (settling_expireTimer ..).rest hMem rfl with hEq | ⟨waitSlot, -, hEq⟩
    · cases hEq
    · exact nomatch (Obs.completed.inj hEq).2.2.2
  | ready event faults hAt hSelects =>
    rcases (settling_onReady ..).rest hMem rfl with hEq | ⟨waitSlot, -, hEq⟩
    · cases hEq
    · cases hEq
      cases hAt with
      | write hControl =>
        rw [hControl] at hMute
        exact absurd ((hMute.1 rfl).symm.trans hSelects) nofun

end Control.Mute

end Tinycoro.Io

namespace Tinycoro.Net.Operations

open Io Transition

/-- The descriptor has no room for more data, and no error or hangup. -/
def Blocked (fd : Int) (s : State) : Prop :=
  (s.world.loop.kernel.conditions fd).epollOut = false ∧
    (s.world.loop.kernel.conditions fd).epollErr = false ∧
    (s.world.loop.kernel.conditions fd).epollHup = false

/-- The peer has closed its sending half. -/
def HalfClosed (fd : Int) (s : State) : Prop :=
  (s.world.loop.kernel.conditions fd).epollRdhup = true

instance (fd : Int) (s : State) : Decidable (Blocked fd s) := inferInstanceAs (Decidable (_ ∧ _))

instance (fd : Int) (s : State) : Decidable (HalfClosed fd s) := inferInstanceAs (Decidable (_ = _))

theorem not_selects {fd : Int} {s : State} (hBlocked : Blocked fd s) (hOpen : ¬HalfClosed fd s) :
    EventLoop.selects (s.world.loop.kernel.conditions fd) .write = false := by
  obtain ⟨hOut, hErr, hHup⟩ := hBlocked
  simp [EventLoop.selects, EpollEvents.terminal, hOut, hErr, hHup, Bool.eq_false_of_not_eq_true
    hOpen]

/-- No fetched event is about to call `on_write`, and no writer was woken. -/
def Unwoken (fd : Int) (s : State) (events : List Event) : Prop :=
  s.world.control.Mute fd ∧ ∀ token, .completed token fd .write true ∉ ios events

section Unwoken

variable {wrap : Nat → Nat} {s s' : State} {events : List Event} {fd : Int}

theorem mute_of_next {w w' : World} {label : Io.Label} {later : List Obs} (hKeyed : w.AllKeyed)
    (hMute : w.control.Mute fd)
    (hQuiet : EventLoop.selects (w.loop.kernel.conditions fd) .write = false)
    (hNext : w.next (.tokens wrap) label = some (w', later)) :
    w'.control.Mute fd ∧ ∀ token, .completed token fd .write true ∉ later :=
  ⟨hMute.step hKeyed (Io.step_of_next hNext) hQuiet, hMute.not_completed (Io.step_of_next hNext)⟩

/-- No step wakes a writer while the descriptor reports nothing that `on_write` is called for. -/
theorem unwoken_of_step (hKeyed : s.world.AllKeyed) (hMute : s.world.control.Mute fd)
    (hQuiet : EventLoop.selects (s.world.loop.kernel.conditions fd) .write = false)
    (h : Step wrap s s' events) : Unwoken fd s' events := by
  cases h with
  | io hAllows hNext | arm hControl hOp hFd hNext | leave hControl hOp hNext =>
    rw [Unwoken, ios_map]
    exact mute_of_next hKeyed hMute hQuiet hNext
  | @closeThrew socket other faults w events hActive hFd hOpen hNext =>
    rw [Unwoken, ios_append, ios_map, show ios [Event.closeThrew socket] = [] from rfl,
      List.append_nil]
    exact mute_of_next hKeyed hMute hQuiet hNext
  | @closed socket other faults w w' events later hActive hFd hOpen hNext hOk hClose =>
    rw [Unwoken, ios_append, ios_append, ios_map, ios_map, show ios [Event.closed socket] =
      [] from rfl, List.append_nil]
    obtain ⟨hAfter, hNone⟩ := mute_of_next hKeyed hMute hQuiet hNext
    cases hClose
    refine ⟨hAfter, fun token hMem => ?_⟩
    rcases List.mem_append.mp hMem with hMem | hMem
    · exact hNone token hMem
    · split_ifs at hMem
      · cases List.mem_singleton.mp hMem
      · cases hMem
  | begin =>
    rw [Unwoken, ios_began, ios_goto]
    exact ⟨hMute, fun _ => List.not_mem_nil⟩
  | attempt =>
    rw [Unwoken, ios_tried, ios_goto]
    exact ⟨hMute, fun _ => List.not_mem_nil⟩
  | refused hControl hOp hNext =>
    rw [Unwoken, ios_append, ios_map, ios_goto, List.append_nil]
    exact mute_of_next hKeyed hMute hQuiet hNext
  | resume =>
    rw [Unwoken, ios_goto]
    exact ⟨hMute, fun _ => List.not_mem_nil⟩
  | _ => exact ⟨hMute, fun _ => List.not_mem_nil⟩

/-- From a state of a run in which no fetched event waits, and as long as the socket is
blocked and the peer has not closed its half, no poll tells a writer that it may go on. -/
theorem not_woken_while_blocked {trace : List Event} (hReaches : (machine wrap).Reaches s trace)
    (hOutside : s.world.control.dispatching = false)
    (h : (machine wrap).Within (fun s => Blocked fd s ∧ ¬HalfClosed fd s) s s' events)
    (token : Nat) : .io (.completed token fd .write true) ∉ events := by
  have hUnwoken : (machine wrap).Reaches s' (trace ++ events) ∧ Unwoken fd s' events := by
    apply h.invariant (Q := fun s events => (machine wrap).Reaches s (trace ++ events) ∧
      Unwoken fd s events)
    · rw [List.append_nil]
      exact ⟨hReaches, .of_outside hOutside, fun _ => List.not_mem_nil⟩
    · rintro s s' past more label ⟨hBlocked, hOpen⟩ ⟨hReaches, hMute, hNone⟩ hNext
      have hKeyed := allKeyed_of_reaches (world_of_reaches hReaches)
      obtain ⟨hMute, hMore⟩ := unwoken_of_step hKeyed hMute (not_selects hBlocked hOpen)
        (step_of_next hNext)
      refine ⟨?_, hMute, fun token hMem => ?_⟩
      · rw [← List.append_assoc]
        exact hReaches.step hNext
      · rw [ios_append, List.mem_append] at hMem
        exact hMem.elim (hNone token) (hMore token)
  exact fun hMem => hUnwoken.2.2 token (List.mem_filterMap.mpr ⟨_, hMem, rfl⟩)

end Unwoken

section Run

/-- A step of the executor, with the descriptors its poll reports. -/
def advance (reported : Option (List Int)) : Label := .io (.advance (fun _ => 0) reported .none)

/-- A coroutine calls `write_all` on a new stream for descriptor 3 while these conditions
hold. -/
def writing (conditions : EpollEvents) : List Label :=
  [.io (.create 0), .io (.spawn (some 0) false), .opens 3, .io .run, advance none, advance none,
    .io (.change 3 conditions false), .begin 0 (.writeAll 1) (-1) none]

/-- `send` answers `EAGAIN`, and the coroutine waits until a poll returns. -/
def blockedSend (reported : List Int) : List Label :=
  [.attempt (.failed EAGAIN) none, .ask, .arm 100 .none, advance none, advance none, advance none,
    advance (some reported)]

/-- The report is handled, and the coroutine goes on. -/
def wokenUp : List Label := List.replicate 6 (advance none) ++ [.resume]

theorem not_woken_while_blocked_polled :
    ∃ s s' trace events, (machine id).Reaches s trace ∧ s.world.control.dispatching = false ∧
      (machine id).Within (fun s => Blocked 3 s ∧ ¬HalfClosed 3 s) s s' events ∧
      .io (.armed 1 3 .write) ∈ events ∧ .io (.completed 1 3 .write true) ∉ events := by
  have hRun : ((machine id).run .create (writing .empty)).bind (fun r =>
      ((machine id).runWhile (fun s => decide (Blocked 3 s ∧ ¬HalfClosed 3 s)) r.1
      (blockedSend [])).map (fun stretch =>
        (r.1.world.control.dispatching, decide (.io (.armed 1 3 .write) ∈ stretch.2)))) =
        some (false, true) := by
    decide +kernel
  obtain ⟨⟨s, trace⟩, hStart, hStretch⟩ := Option.bind_eq_some_iff.mp hRun
  obtain ⟨⟨s', events⟩, hWhile, hEq⟩ := Option.map_eq_some_iff.mp hStretch
  obtain ⟨hOutside, hArmed⟩ := Prod.mk.inj hEq
  have hWithin : (machine id).Within (fun s => Blocked 3 s ∧ ¬HalfClosed 3 s) s s' events := by
    simpa only [decide_eq_true_eq] using Machine.within_of_runWhile hWhile
  have hReaches := Machine.Reaches.start.run hStart
  exact ⟨s, s', _, events, hReaches, hOutside, hWithin, of_decide_eq_true hArmed,
    not_woken_while_blocked hReaches hOutside hWithin 1⟩

/-- The answers of the system calls in a trace. -/
def answers (events : List Event) : List Transfer :=
  events.filterMap fun
    | .tried _ _ answer => some answer
    | _ => none

/-- The peer has closed its half and does not read: each poll wakes the writer, and its
next `send` fails as the one before. -/
theorem woken_while_blocked :
    ∃ s s' trace events, (machine id).Reaches s trace ∧ s.world.control.dispatching = false ∧
      (machine id).Within (Blocked 3) s s' events ∧
      answers events = List.replicate 3 (.failed EAGAIN) ∧
      .io (.completed 1 3 .write true) ∈ events ∧ .io (.completed 2 3 .write true) ∈ events := by
  have hRun : ((machine id).run .create (writing { EpollEvents.empty with epollRdhup :=
    true })).bind (fun r =>
      ((machine id).runWhile (fun s => decide (Blocked 3 s)) r.1
        (blockedSend [3] ++ wokenUp ++ blockedSend [3] ++ wokenUp ++ blockedSend [3])).map
        (fun stretch =>
          (r.1.world.control.dispatching, answers stretch.2,
            decide (.io (.completed 1 3 .write true) ∈ stretch.2),
            decide (.io (.completed 2 3 .write true) ∈ stretch.2)))) =
      some (false, List.replicate 3 (.failed EAGAIN), true, true) := by
    decide +kernel
  obtain ⟨⟨s, trace⟩, hStart, hStretch⟩ := Option.bind_eq_some_iff.mp hRun
  obtain ⟨⟨s', events⟩, hWhile, hEq⟩ := Option.map_eq_some_iff.mp hStretch
  simp only [Prod.mk.injEq, decide_eq_true_eq] at hEq
  have hWithin : (machine id).Within (Blocked 3) s s' events := by
    simpa only [decide_eq_true_eq] using Machine.within_of_runWhile hWhile
  exact ⟨s, s', [] ++ trace, events, Machine.Reaches.start.run hStart, hEq.1, hWithin, hEq.2⟩

end Run

end Tinycoro.Net.Operations
