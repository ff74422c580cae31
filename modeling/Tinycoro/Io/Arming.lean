import Tinycoro.Io.Completion

/-! What each step does to the slots and the timers. A wait that is armed takes a
slot and may get a timer, and nothing else does. A wait that cannot be armed leaves
both as they were. A slot is emptied only for a wait that is completed. -/
namespace Tinycoro.Io

open Effect Transition World

theorem armings_of_faults {events : List Obs} (h : ∀ e ∈ events, ∃ f, e = .fault f) :
    armings events = [] := by
  apply List.filterMap_eq_nil_iff.mpr
  intro e he
  obtain ⟨f, rfl⟩ := h e he
  rfl

/-- Nothing is armed, no timer is touched, and a slot is emptied only for a wait
that is completed. -/
structure Drops (w w' : World) (events : List Obs) : Prop where
  slots : ∀ {fd event waitSlot}, w'.slotAt fd event = some waitSlot →
    w.slotAt fd event = some waitSlot
  lost : ∀ {fd event waitSlot}, w.slotAt fd event = some waitSlot →
    w'.slotAt fd event = some waitSlot ∨ waitSlot.token ∈ completions events
  timers : w'.timers = w.timers
  armings : armings events = []

namespace Drops

variable {w w' : World} {events : List Obs} {fd : Int} {event : Event} {faults : Faults}

theorem of_same (hSlots : ∀ fd event, w'.slotAt fd event = w.slotAt fd event)
    (hTimers : w'.timers = w.timers) (hArmings : Io.armings events = []) : Drops w w' events :=
  ⟨fun h => (hSlots ..).symm.trans h, fun h => .inl ((hSlots ..).trans h), hTimers, hArmings⟩

theorem trans {w'' : World} {later : List Obs} (h : Drops w w' events) (h' : Drops w' w'' later) :
    Drops w w'' (events ++ later) where
  slots hSlot := h.slots (h'.slots hSlot)
  lost hSlot := by
    rw [completions_append]
    rcases h.lost hSlot with hKept | hSpent
    · exact (h'.lost hKept).imp_right (List.mem_append_right _)
    · exact .inr (List.mem_append_left _ hSpent)
  timers := h'.timers.trans h.timers
  armings := by rw [armings_append, h.armings, h'.armings, List.append_nil]

variable {o : IoOutcome}

theorem andThen {f : World → IoOutcome} (h : Drops w o.state o.events)
    (hNext : o.error = none → Drops o.state (f o.state).state (f o.state).events) :
    Drops w (o.andThen f).state (o.andThen f).events := by
  unfold Outcome.andThen
  cases hError : o.error with
  | none => exact h.trans (hNext hError)
  | some => exact h

theorem schedule (push : Bool) (h : Nat) :
    Drops w (w.schedule push h).state (w.schedule push h).events := by
  refine .of_same (fun _ _ => schedule_slotAt push h) ?_ (armings_of_faults fun _ =>
    (Quiet.schedule push h).events)
  unfold World.schedule
  split_ifs <;> rfl

theorem complete (push result : Bool) :
    Drops w (w.complete push fd event result).state (w.complete push fd event result).events := by
  cases hSlot : w.slotAt fd event with
  | none =>
    rw [complete_of_empty push result hSlot]
    exact .of_same (fun _ _ => rfl) rfl rfl
  | some =>
    obtain ⟨st, hLookup, hSt⟩ := Option.bind_eq_some_iff.mp hSlot
    have hCleared (other : Int) (direction : Event) :
        (w.complete push fd event result).state.slotAt other direction = _ := complete_slotAt push
        result
    rw [complete_of_slot push result hLookup hSt] at hCleared ⊢
    simp only [Outcome.ok_andThen, schedule_slotAt] at hCleared
    refine andThen ⟨?_, ?_, rfl, rfl⟩ (fun _ => .schedule push _)
    · intro other direction waitSlot hOther
      rw [Outcome.ok_state, hCleared] at hOther
      split_ifs at hOther
      exact hOther
    · intro other direction waitSlot hOther
      rw [Outcome.ok_state, hCleared]
      split_ifs with hSame
      · rw [hSame.1, hSame.2, hSlot] at hOther
        cases hOther
        exact .inr (List.mem_singleton_self _)
      · exact .inl hOther

theorem refreshInterest :
    Drops w (w.refreshInterest faults fd).state (w.refreshInterest faults fd).events := by
  refine .of_same (fun _ _ => refreshInterest_slotAt faults) ?_
    (armings_of_faults fun _ => Quiet.refreshInterest.events)
  unfold World.refreshInterest
  split
  · rfl
  · dsimp only
    split_ifs
    · rfl
    · rfl
    · split <;> rfl
    · split <;> rfl

theorem eraseIdle : Drops w (w.eraseIdle fd) [] := by
  refine .of_same (fun _ _ => eraseIdle_slotAt) ?_ rfl
  unfold World.eraseIdle
  split
  · split_ifs <;> rfl
  · rfl

theorem settle (result : Bool) :
    Drops w (w.settle faults fd event result).state (w.settle faults fd event result).events :=
  andThen (andThen (.complete faults.push result) (fun _ => .refreshInterest)) (fun _ => .eraseIdle)

theorem onReady : Drops w (w.onReady faults fd event).state (w.onReady faults fd event).events := by
  unfold World.onReady
  split
  · exact .of_same (fun _ _ => rfl) rfl rfl
  · exact .settle true

theorem expireTimer (timer : TimerEntry) :
    Drops w (w.expireTimer faults timer).state (w.expireTimer faults timer).events := by
  unfold World.expireTimer
  split_ifs
  · exact .settle false
  · exact .of_same (fun _ _ => rfl) rfl rfl

theorem spawn (fails : Bool) (task : Option Nat) :
    Drops w (w.spawn fails task).state (w.spawn fails task).events := by
  refine .of_same (fun _ _ => ?_) ?_ (armings_of_faults fun _ => (Quiet.spawn ..).events)
  · rw [slotAt, spawn_fdStates, slotAt]
  · unfold World.spawn
    split
    · rfl
    · split_ifs <;> rfl

theorem toUser (h : Drops w o.state o.events) : Drops w (toUser o).1 (World.toUser o).2 := by
  obtain ⟨last, hEq, hThrew⟩ := toUser_events o
  rw [hEq]
  refine h.trans (.of_same (fun _ _ => by rw [toUser_state]) (by rw [toUser_state]) ?_)
  apply List.filterMap_eq_nil_iff.mpr
  intro e he
  obtain ⟨x, rfl⟩ := hThrew e he
  rfl

theorem within (h : Drops w o.state o.events) (control : Control) :
    Drops w (within o control).1 (World.within o control).2 := by
  obtain ⟨last, hEq, hThrew⟩ := within_events o control
  rw [hEq]
  refine h.trans (.of_same (fun _ _ => within_slotAt) ?_ ?_)
  · unfold World.within
    cases o.error <;> rfl
  · apply List.filterMap_eq_nil_iff.mpr
    intro e he
    obtain ⟨x, rfl⟩ := hThrew e he
    rfl

theorem cons (h : Drops w w' events) {e : Obs} (he : e.speaks = false) :
    Drops w w' (e :: events) := by
  have hFirst : Drops w w [e] := .of_same (fun _ _ => rfl) rfl
      (by cases e <;> first | rfl | cases he)
  exact hFirst.trans h

theorem cancel : Drops w (w.cancel faults fd).state (w.cancel faults fd).events := by
  cases hLookup : w.fdStates.lookup fd with
  | none =>
    rw [cancel_of_none faults hLookup]
    exact .of_same (fun _ _ => rfl) rfl rfl
  | some st =>
    rw [cancel_of_lookup faults hLookup]
    have hRemoved : Drops w (w.deregistered fd st) [] :=
      .of_same (fun _ _ => deregistered_slotAt hLookup) (deregistered_rest w fd st).2.1 rfl
    generalize w.deregistered fd st = removed at hRemoved ⊢
    have hBoth : Drops removed ((removed.complete faults.push fd .read false).andThen
        (World.complete faults.pushAgain · fd .write false)).state _ :=
      andThen (.complete faults.push false) (fun _ => .complete faults.pushAgain false)
    refine hRemoved.trans (andThen hBoth (fun hReturned => .of_same (fun other direction => ?_) rfl
      rfl))
    obtain ⟨-, -, hState⟩ := Outcome.andThen_returned hReturned
    -- both directions are empty by now
    have hEmpty : ((removed.complete faults.push fd .read false).andThen
        (World.complete faults.pushAgain · fd .write false)).state.slotAt fd direction = none := by
      rw [hState, complete_slotAt, complete_slotAt]
      cases direction <;> simp
    generalize ((removed.complete faults.push fd .read false).andThen _).state = last at hEmpty ⊢
    by_cases hFd : other = fd
    · rw [hFd, hEmpty]
      exact slotAt_of_lookup_none (Finmap.lookup_erase ..)
    · exact congrArg (Option.bind · _) (Finmap.lookup_erase_ne hFd)

end Drops

section Arming

variable {wrap : Wrap} {w w' : World} {faults : Faults} {address h cell : Nat} {fd timeout : Int}
  {event : Event}

/-- The state after the slot is taken and before the descriptor is registered. -/
def World.taken (wrap : Wrap) (address : Nat) (w : World) (fd : Int) (event : Event)
    (h cell : Nat) : World :=
  ({ w with nextToken := w.nextToken + 1 }.setFrame cell
    (fun frame => { frame with ready := false })).setState fd
    ((w.fdState address fd).setSlot event (some ⟨h, wrap w.nextToken, cell⟩))

/-- What the `try` block of `arm_wait` does. -/
def World.tried (wrap : Wrap) (faults : Faults) (address : Nat) (w : World) (fd : Int)
    (event : Event) (timeout : Int) (h cell : Nat) : IoOutcome :=
  ((w.taken wrap address fd event h cell).refreshInterest faults fd).andThen fun w' =>
    if 0 ≤ timeout then w'.pushTimer faults.timer (w'.timerOf wrap (wrap w.nextToken) fd event
      timeout) else .ok w' []

theorem enterWait_eq :
    w.enterWait wrap faults address fd event timeout h cell =
    ((w.tried wrap faults address fd event timeout h cell).rethrow
      (rollback faults · fd event)).andThen
        (fun w' => .ok w' [.armed (wrap w.nextToken) fd event]) := rfl

theorem refreshInterest_now : (w.refreshInterest faults fd).state.now = w.now := by
  unfold refreshInterest
  split
  · rfl
  · dsimp only
    split_ifs
    · rfl
    · rfl
    · split <;> rfl
    · split <;> rfl

theorem tried_slotAt (other : Int) (direction : Event) :
    (w.tried wrap faults address fd event timeout h cell).state.slotAt other direction =
      if other = fd ∧ direction = event then some ⟨h, wrap w.nextToken, cell⟩ else w.slotAt other
      direction := by
  rw [← Tokens.slotAt_taken w address]
  let P (w' : World) : Prop := w'.slotAt other direction =
    (w.taken wrap address fd event h cell).slotAt other direction
  refine Outcome.andThen_state (P := P) (refreshInterest_slotAt faults) (fun hSame => ?_)
  split_ifs
  · unfold pushTimer
    split_ifs <;> exact hSame
  · exact hSame

theorem tried_timers (hOk : (w.tried wrap faults address fd event timeout h cell).error = none) :
    (w.tried wrap faults address fd event timeout h cell).state.timers =
      w.timers ++
        if 0 ≤ timeout then [w.timerOf wrap (wrap w.nextToken) fd event timeout] else [] := by
  obtain ⟨-, hTimer, hState⟩ := Outcome.andThen_returned hOk
  have hTimers : ((w.taken wrap address fd event h cell).refreshInterest faults fd).state.timers =
      w.timers :=
    Drops.refreshInterest.timers
  have hNow : ((w.taken wrap address fd event h cell).refreshInterest faults fd).state.now =
      w.now :=
    refreshInterest_now
  unfold tried
  rw [hState]
  by_cases hTimed : 0 ≤ timeout
  · simp only [hTimed, if_true] at hTimer ⊢
    unfold pushTimer at hTimer ⊢
    split_ifs at hTimer ⊢
    · cases hTimer
    · simp only [Outcome.ok_state, hTimers, timerOf, deadlineOf, hNow]
  · simp only [hTimed, if_false, Outcome.ok_state, hTimers, List.append_nil]

theorem tried_timers_of_error
    (hError : (w.tried wrap faults address fd event timeout h cell).error ≠ none) :
    (w.tried wrap faults address fd event timeout h cell).state.timers = w.timers := by
  have hTimers : ((w.taken wrap address fd event h cell).refreshInterest faults fd).state.timers =
      w.timers :=
    Drops.refreshInterest.timers
  have hEnds : (w.tried wrap faults address fd event timeout h cell).Ends ∅ (fun _ => True)
      (fun w' => w'.timers = w.timers) := by
    refine Outcome.Ends.andThen (Q := fun w' => w'.timers = w.timers)
      (fun _ => ⟨fun _ => hTimers, fun _ => hTimers⟩) (fun {w'} hSame => ?_)
    split_ifs
    · unfold pushTimer
      split_ifs
      · exact Outcome.ends_fail (fun _ => hSame)
      · exact Outcome.ends_ok trivial
    · exact Outcome.ends_ok trivial
  exact (hEnds (fun _ _ => Set.notMem_empty _)).2 hError

theorem rollback_timers : (w.rollback faults fd event).state.timers = w.timers := by
  unfold rollback
  split
  · rfl
  · dsimp only
    split_ifs
    · rfl
    · rfl
    · exact Drops.refreshInterest.timers

theorem tried_faults :
    ∀ e ∈ (w.tried wrap faults address fd event timeout h cell).events, ∃ f, e = .fault f := by
  intro e he
  rcases Outcome.mem_andThen he with hRefresh | hTimer
  · exact Quiet.refreshInterest.events hRefresh
  · split_ifs at hTimer
    · exact (Quiet.pushTimer ..).events hTimer
    · cases hTimer

theorem armWait_nextToken_lt
    (hOk : (w.armWait wrap faults address fd event timeout (some h) (some cell)).error = none) :
    w.nextToken < (w.armWait wrap faults address fd event timeout (some h)
      (some cell)).state.nextToken := by
  rcases armWait_cases (some h) (some cell) with ⟨e, hFail⟩ | ⟨a, b, -, -, -, -, -, hEnter⟩
  · rw [hFail] at hOk
    cases hOk
  · rw [hEnter, enterWait_nextToken]
    exact Nat.lt_succ_self _

/-- A wait that is armed is in its slot under a new token, with a timer if it has
a timeout. -/
theorem armWait_returned
    (hOk : (w.armWait wrap faults address fd event timeout (some h) (some cell)).error = none) :
    w.slotAt fd event = none ∧ (∀ other direction,
      (w.armWait wrap faults address fd event timeout (some h) (some cell)).state.slotAt other
        direction = if other = fd ∧ direction = event then some ⟨h, wrap w.nextToken, cell⟩
        else w.slotAt other direction) ∧
    (w.armWait wrap faults address fd event timeout (some h) (some cell)).state.timers =
      w.timers ++
        (if 0 ≤ timeout then [w.timerOf wrap (wrap w.nextToken) fd event timeout] else []) ∧
    ∃ first, (∀ e ∈ first, ∃ f, e = .fault f) ∧
      (w.armWait wrap faults address fd event timeout (some h) (some cell)).events =
        first ++ [.armed (wrap w.nextToken) fd event] := by
  rcases armWait_cases (some h) (some cell) with ⟨e, hFail⟩ | ⟨h', cell', hHandle, hCell, -, -,
    hFree, hEnter⟩
  · rw [hFail] at hOk
    cases hOk
  · cases hHandle
    cases hCell
    rw [hEnter, enterWait_eq] at hOk ⊢
    cases hTried : (w.tried wrap faults address fd event timeout h cell).error with
    | some =>
      rw [Outcome.rethrow_of_some _ hTried, Outcome.fail_andThen] at hOk
      cases hOk
    | none =>
      rw [Outcome.rethrow_of_none _ hTried, Outcome.andThen_of_none _ hTried]
      exact ⟨hFree, tried_slotAt, tried_timers hTried, _, tried_faults, rfl⟩

/-- A wait that is not armed is not in its slot, and has no timer. -/
theorem armWait_thrown {continuation result : Option Nat}
    (hError : (w.armWait wrap faults address fd event timeout continuation result).error ≠ none) :
    Drops w (w.armWait wrap faults address fd event timeout continuation result).state
      (w.armWait wrap faults address fd event timeout continuation result).events := by
  rcases armWait_cases continuation result with ⟨e, hFail⟩ | ⟨h, cell, -, -, -, -, hFree, hEnter⟩
  · rw [hFail]
    exact .of_same (fun _ _ => rfl) rfl rfl
  · rw [hEnter, enterWait_eq] at hError ⊢
    cases hTried : (w.tried wrap faults address fd event timeout h cell).error with
    | none =>
      rw [Outcome.rethrow_of_none _ hTried, Outcome.andThen_of_none _ hTried] at hError
      exact absurd rfl hError
    | some =>
      rw [Outcome.rethrow_of_some _ hTried, Outcome.fail_andThen]
      refine .of_same (fun other direction => ?_) ?_ ?_
      · rw [Outcome.fail_state, rollback_slotAt, tried_slotAt]
        split_ifs with hSame
        · rw [hSame.1, hSame.2, hFree]
        · rfl
      · exact rollback_timers.trans (tried_timers_of_error (by simp [hTried]))
      · refine armings_of_faults (fun o ho => ?_)
        rcases List.mem_append.mp ho with hFirst | hUndone
        · exact tried_faults o hFirst
        · exact Quiet.rollback.events hUndone

end Arming

/-- Slots may be emptied, and timers popped whose waits are over. -/
structure Ebbs (w w' : World) (events : List Obs) : Prop where
  slots : ∀ {fd event waitSlot}, w'.slotAt fd event = some waitSlot →
    w.slotAt fd event = some waitSlot
  lost : ∀ {fd event waitSlot}, w.slotAt fd event = some waitSlot →
    w'.slotAt fd event = some waitSlot ∨ waitSlot.token ∈ completions events
  timers : w'.timers.Sublist w.timers
  kept : ∀ {p : TimerEntry → Bool}, (∀ timer ∈ w.timers, w'.timerActive timer = false →
    p timer = false) → w'.timers.filter p = w.timers.filter p
  armings : armings events = []

section Steps

variable {wrap : Wrap} {w w' : World} {events : List Obs} {label : Label}

theorem Drops.ebbs (h : Drops w w' events) : Ebbs w w' events :=
  ⟨h.slots, h.lost, by rw [h.timers], fun _ => by rw [h.timers], h.armings⟩

/-- One timer is popped, and its wait is over at the end if it was not before. -/
theorem Drops.ebbs_of_pop {i : Nat} {timer : TimerEntry} (hPick : w.timers[i]? = some timer)
    (h : Drops { w with timers := w.timers.eraseIdx i } w' events)
    (hOver : w'.timerActive timer = false) : Ebbs w w' events where
  slots := h.slots
  lost := h.lost
  timers := by
    rw [h.timers]
    exact List.eraseIdx_sublist ..
  kept hStale := by
    rw [h.timers]
    exact Tombstones.filter_eraseIdx hPick (hStale timer (List.mem_of_getElem? hPick) hOver)
  armings := h.armings

theorem World.Pruned.ebbs {timers : List TimerEntry} (h : w.Pruned timers)
    (hTimers : w'.timers = timers) (hSlots : w'.slotAt = w.slotAt)
    (hArmings : Io.armings events = []) : Ebbs w w' events where
  slots hSlot := hSlots ▸ hSlot
  lost hSlot := .inl (hSlots ▸ hSlot)
  timers := hTimers ▸ h.sublist
  kept hStale := by
    rw [hTimers]
    refine h.filter fun timer hTimer hOver => hStale timer hTimer ?_
    rw [timerActive, hSlots]
    exact hOver
  armings := hArmings

theorem expireTimer_over (faults : Faults) (timer : TimerEntry) :
    (w.expireTimer faults timer).state.timerActive timer = false := by
  unfold expireTimer
  split_ifs with hActive
  · rw [timerActive, settle_slotAt, if_pos ⟨rfl, rfl⟩]
    rfl
  · exact Bool.eq_false_of_not_eq_true hActive

/-- Only a call of `wait_readable` or `wait_writable` arms a wait. -/
theorem ebbs_of_step (h : Step wrap w label w' events)
    (hLabel : ∀ {fd event timeout address faults}, label ≠ .wait fd event timeout address faults) :
    Ebbs w w' events := by
  have hSame (hSlots : ∀ fd event, w'.slotAt fd event = w.slotAt fd event)
      (hTimers : w'.timers = w.timers) (hArmings : armings events = []) : Ebbs w w' events :=
      (Drops.of_same hSlots hTimers hArmings).ebbs
  cases h with
  | close =>
    refine hSame (fun _ _ => rfl) rfl ?_
    split_ifs <;> rfl
  | spawn => exact (Drops.spawn ..).toUser.ebbs
  | cancel => exact (Drops.cancel.toUser.cons rfl).ebbs
  | @yield h left push | @yieldThrows h left push =>
    exact Drops.ebbs ((Drops.schedule push h).trans (.of_same (fun _ _ => rfl) rfl rfl))
  | wait | waitThrows => exact absurd rfl hLabel
  | finish =>
    refine hSame (fun _ _ => ?_) ?_ ?_
    · rw [slotAt, finalSuspend_fdStates, slotAt]
    · unfold finalSuspend
      split_ifs
      · rfl
      · split <;> rfl
    · unfold finalSuspend
      split_ifs
      · rfl
      · split <;> rfl
  | @expire now second i timer faults hControl hPick =>
    refine Drops.ebbs_of_pop hPick (((Drops.expireTimer timer).within _).cons rfl) ?_
    rw [timerActive, within_slotAt]
    exact expireTimer_over faults timer
  | noWakeSource hControl hRoots hReady hTimers | pollFails hControl hTimers
  | epollWait hControl hTimers => exact hTimers.ebbs rfl rfl rfl
  | ready => exact ((Drops.onReady.within _).cons rfl).ebbs
  | _ => exact hSame (fun _ _ => rfl) rfl rfl

end Steps

end Tinycoro.Io
