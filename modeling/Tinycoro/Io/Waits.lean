import Tinycoro.Io.Step

/-! What the operations on waits do to the slots, and what they leave alone. An
operation that ends a wait empties its slot and nothing else; refreshing the
interest and dropping idle entries change no slot. -/
namespace Tinycoro.Io

open Effect Transition World

namespace FdState

@[simp] theorem slot_setSlot_self (st : FdState) (event : Event) (waitSlot : Option WaitSlot) :
    (st.setSlot event waitSlot).slot event = waitSlot := by cases event <;> rfl

theorem slot_setSlot_of_ne (st : FdState) {event other : Event} (h : other ≠ event)
    (waitSlot : Option WaitSlot) : (st.setSlot event waitSlot).slot other = st.slot other := by
  cases event <;> cases other <;> first | rfl | exact absurd rfl h

@[simp] theorem setSlot_channel (st : FdState) (event : Event) (waitSlot : Option WaitSlot) :
    (st.setSlot event waitSlot).channel = st.channel := by cases event <;> rfl

@[simp] theorem setSlot_registered (st : FdState) (event : Event) (waitSlot : Option WaitSlot) :
    (st.setSlot event waitSlot).registered = st.registered := by cases event <;> rfl

theorem setSlot_slot (st : FdState) (event : Event) : st.setSlot event (st.slot event) = st := by
  cases event <;> rfl

theorem idle_iff (st : FdState) : st.idle = true ↔ ∀ event, st.slot event = none := by
  simp only [idle, Bool.and_eq_true, Option.isNone_iff_eq_none]
  exact ⟨fun h event => by cases event <;> simp [slot, h], fun h => ⟨h .read, h .write⟩⟩

end FdState

section Slots

variable {w : World} {fd other : Int} {event direction : Event} {st : FdState}

@[simp] theorem lookup_setState_self : (w.setState fd st).fdStates.lookup fd = some st :=
  Finmap.lookup_insert _

theorem lookup_setState_of_ne (h : other ≠ fd) :
    (w.setState fd st).fdStates.lookup other = w.fdStates.lookup other :=
  Finmap.lookup_insert_of_ne _ h

@[simp] theorem slotAt_setState_self : (w.setState fd st).slotAt fd event = st.slot event := by
  simp [slotAt]

theorem slotAt_setState_of_ne (h : other ≠ fd) :
    (w.setState fd st).slotAt other event = w.slotAt other event := by
  rw [slotAt, lookup_setState_of_ne h, slotAt]

/-- Putting back an entry with the same waiters changes no slot. -/
theorem slotAt_setState_same (h : ∀ event, st.slot event = w.slotAt fd event) :
    (w.setState fd st).slotAt other direction = w.slotAt other direction := by
  by_cases hEq : other = fd
  · rw [hEq, slotAt_setState_self, h]
  · exact slotAt_setState_of_ne hEq

theorem slotAt_of_lookup (h : w.fdStates.lookup fd = some st) :
    w.slotAt fd event = st.slot event := by
  rw [slotAt, h, Option.bind_some]

theorem slotAt_of_lookup_none (h : w.fdStates.lookup fd = none) : w.slotAt fd event = none := by
  rw [slotAt, h, Option.bind_none]

theorem schedule_fdStates (push : Bool) (h : Nat) :
    (w.schedule push h).state.fdStates = w.fdStates := by
  unfold schedule
  split_ifs <;> rfl

theorem schedule_loop (push : Bool) (h : Nat) : (w.schedule push h).state.loop = w.loop := by
  unfold schedule
  split_ifs <;> rfl

/-- A handle that cannot be queued changes nothing. -/
theorem schedule_of_error {push : Bool} {h : Nat} (hError : (w.schedule push h).error ≠ none) :
    (w.schedule push h).state = w := by
  revert hError
  unfold schedule
  split_ifs
  · exact fun _ => rfl
  · exact fun _ => rfl
  · exact fun hError => absurd rfl hError

theorem schedule_slotAt (push : Bool) (h : Nat) :
    (w.schedule push h).state.slotAt fd event = w.slotAt fd event := by
  rw [slotAt, schedule_fdStates, slotAt]

theorem complete_of_empty (push result : Bool) (h : w.slotAt fd event = none) :
    w.complete push fd event result = .ok w [] := by
  unfold complete
  cases hLookup : w.fdStates.lookup fd with
  | none => rfl
  | some =>
    rw [slotAt_of_lookup hLookup] at h
    simp only [h]

theorem complete_of_slot (push result : Bool) {completed : WaitSlot}
    (hLookup : w.fdStates.lookup fd = some st) (hSlot : st.slot event = some completed) :
    w.complete push fd event result =
      (Outcome.ok ((w.setState fd (st.setSlot event none)).setFrame completed.result
          (fun frame => { frame with ready := result }))
        [.completed completed.token fd event result]).andThen
        (schedule push · completed.continuation) := by
  simp only [complete, hLookup, hSlot]

/-- Ending a wait empties its slot. -/
theorem complete_slotAt (push result : Bool) :
    (w.complete push fd event result).state.slotAt other direction =
      if other = fd ∧ direction = event then none else w.slotAt other direction := by
  cases hSlot : w.slotAt fd event with
  | none =>
    rw [complete_of_empty push result hSlot]
    split_ifs with hSame
    · rw [hSame.1, hSame.2]
      exact hSlot
    · rfl
  | some =>
    obtain ⟨st, hLookup, hSt⟩ := Option.bind_eq_some_iff.mp hSlot
    rw [complete_of_slot push result hLookup hSt, Outcome.ok_andThen, schedule_slotAt]
    change (w.setState fd (st.setSlot event none)).slotAt other direction = _
    by_cases hFd : other = fd
    · subst hFd
      by_cases hEvent : direction = event
      · subst hEvent
        simp
      · rw [slotAt_setState_self, FdState.slot_setSlot_of_ne _ hEvent, slotAt_of_lookup hLookup,
          if_neg (fun h => hEvent h.2)]
    · rw [slotAt_setState_of_ne hFd, if_neg (fun h => hFd h.1)]

theorem complete_lookup (push result : Bool) :
    (w.complete push fd event result).state.fdStates.lookup fd =
      (w.fdStates.lookup fd).map (·.setSlot event none) := by
  cases hLookup : w.fdStates.lookup fd with
  | none =>
    rw [complete_of_empty push result (slotAt_of_lookup_none hLookup)]
    exact hLookup
  | some st =>
    cases hSlot : st.slot event with
    | none =>
      rw [complete_of_empty push result ((slotAt_of_lookup hLookup).trans hSlot), Option.map_some,
        ← hSlot, FdState.setSlot_slot]
      exact hLookup
    | some =>
      rw [complete_of_slot push result hLookup hSlot, Outcome.ok_andThen, schedule_fdStates]
      exact lookup_setState_self

theorem complete_loop (push result : Bool) :
    (w.complete push fd event result).state.loop = w.loop := by
  unfold complete schedule
  split
  · rfl
  · split
    · rfl
    · rw [Outcome.ok_andThen]
      split_ifs <;> rfl

/-- Ending a wait throws only if `ready_` cannot grow. -/
theorem complete_error (push result : Bool) (h : (w.complete push fd event result).error ≠ none) :
    .fault .ready ∈ (w.complete push fd event result).events := by
  revert h
  unfold complete schedule
  split
  · exact fun h => absurd rfl h
  · split
    · exact fun h => absurd rfl h
    · rw [Outcome.ok_andThen]
      split_ifs <;> simp

theorem refreshInterest_slotAt (faults : Faults) :
    (w.refreshInterest faults fd).state.slotAt other direction = w.slotAt other direction := by
  unfold refreshInterest
  cases hLookup : w.fdStates.lookup fd with
  | none => rfl
  | some st =>
    have hSame (st' : FdState) (loop : EventLoop) (h : ∀ event, st'.slot event = st.slot event) :
        ({ w with loop }.setState fd st').slotAt other direction = w.slotAt other direction := by
      apply slotAt_setState_same (w := { w with loop })
      intro event
      exact (h event).trans (slotAt_of_lookup hLookup).symm
    dsimp only
    split_ifs
    · exact hSame _ _ (fun event => by cases event <;> rfl)
    · rfl
    · split
      · exact hSame _ _ (fun event => by cases event <;> rfl)
      · exact hSame _ w.loop (fun event => by cases event <;> rfl)
    · split
      · exact hSame _ _ (fun event => by cases event <;> rfl)
      · exact hSame _ w.loop (fun event => by cases event <;> rfl)

theorem eraseIdle_slotAt : (w.eraseIdle fd).slotAt other direction = w.slotAt other direction := by
  unfold eraseIdle
  cases hLookup : w.fdStates.lookup fd with
  | none => rfl
  | some st =>
    dsimp only
    split_ifs with hIdle
    · by_cases hFd : other = fd
      · subst hFd
        rw [slotAt_of_lookup hLookup, (st.idle_iff.mp hIdle) direction]
        exact slotAt_of_lookup_none (Finmap.lookup_erase ..)
      · rw [slotAt, slotAt, Finmap.lookup_erase_ne hFd]
    · rfl

/-- The end of a wait empties its slot and no other. -/
theorem settle_slotAt (faults : Faults) (result : Bool) :
    (w.settle faults fd event result).state.slotAt other direction =
      if other = fd ∧ direction = event then none else w.slotAt other direction := by
  let P (w' : World) : Prop := w'.slotAt other direction =
    if other = fd ∧ direction = event then none else w.slotAt other direction
  refine Outcome.andThen_state (P := P) ?_ (fun h => eraseIdle_slotAt.trans h)
  exact Outcome.andThen_state (P := P) (complete_slotAt ..)
    (fun h => (refreshInterest_slotAt faults).trans h)

/-- `cancel` first takes the descriptor out of the loop. -/
def World.deregistered (w : World) (fd : Int) (st : FdState) : World :=
  if st.registered then
    { w with loop := w.loop.removeChannel st.channel }.setState fd { st with registered := false }
  else w

theorem cancel_of_none (faults : Faults) (hLookup : w.fdStates.lookup fd = none) :
    w.cancel faults fd = .ok w [] := by
  simp only [cancel, hLookup]

theorem cancel_of_lookup (faults : Faults) (hLookup : w.fdStates.lookup fd = some st) :
    w.cancel faults fd = (((w.deregistered fd st).complete faults.push fd .read false).andThen
      (complete faults.pushAgain · fd .write false)).andThen
      (fun w => .ok { w with fdStates := w.fdStates.erase fd } []) := by
  simp only [cancel, hLookup]
  rfl

theorem deregistered_slotAt (hLookup : w.fdStates.lookup fd = some st) :
    (w.deregistered fd st).slotAt other direction = w.slotAt other direction := by
  unfold deregistered
  split_ifs
  · apply slotAt_setState_same (w := { w with loop := w.loop.removeChannel st.channel })
    intro event
    have hSlot : w.slotAt fd event = st.slot event := slotAt_of_lookup hLookup
    refine Eq.trans ?_ hSlot.symm
    cases event <;> rfl
  · rfl

/-- Apart from the registration nothing changes. -/
theorem deregistered_rest (w : World) (fd : Int) (st : FdState) :
    (w.deregistered fd st).ready = w.ready ∧ (w.deregistered fd st).timers = w.timers ∧
      (w.deregistered fd st).nextToken = w.nextToken ∧
      (w.deregistered fd st).frames = w.frames := by
  unfold deregistered
  split_ifs <;> exact ⟨rfl, rfl, rfl, rfl⟩

theorem timerActive_iff {timer : TimerEntry} :
    w.timerActive timer = true ↔
      ∃ waitSlot, w.slotAt timer.fd timer.event = some waitSlot ∧ waitSlot.token = timer.token := by
  simp [timerActive, Option.any_eq_true]

end Slots

/-- The part of a frame that operations on waits never write. -/
def Frame.core (frame : Frame) : Frame := { frame with ready := false }

/-- The entry of a descriptor, if there is one, has a channel for this
descriptor, at one of the given addresses. -/
def World.Keyed (w : World) (fd : Int) (A : Set Nat) : Prop :=
  ∀ {st}, w.fdStates.lookup fd = some st → st.channel.fd = fd ∧ st.channel.address ∈ A

/-- Between two states only one descriptor's entry and registration changed, and
the queues and counters that serve all descriptors. -/
structure Elsewhere (fd : Int) (A : Set Nat) (w w' : World) : Prop where
  keyed : w.Keyed fd A → w'.Keyed fd A
  states : ∀ {other}, other ≠ fd → w'.fdStates.lookup other = w.fdStates.lookup other
  channels : ∀ {other}, other ≠ fd → w'.loop.channels other = w.loop.channels other
  registered : ∀ {other}, other ≠ fd →
    w'.loop.kernel.registered other = w.loop.kernel.registered other
  conditions : w'.loop.kernel.conditions = w.loop.kernel.conditions
  roots : w'.roots = w.roots
  completedHead : w'.completedHead = w.completedHead
  running : w'.running = w.running
  stopRequested : w'.stopRequested = w.stopRequested
  now : w'.now = w.now
  control : w'.control = w.control
  frames : ∀ h, (w'.frames h).map Frame.core = (w.frames h).map Frame.core

namespace Elsewhere

variable {fd : Int} {A : Set Nat} {w w' w'' : World}

theorem refl (w : World) : Elsewhere fd A w w :=
  ⟨id, fun _ => rfl, fun _ => rfl, fun _ => rfl, rfl, rfl, rfl, rfl, rfl, rfl, rfl, fun _ => rfl⟩

theorem trans (h : Elsewhere fd A w w') (h' : Elsewhere fd A w' w'') : Elsewhere fd A w w'' where
  keyed hKeyed := h'.keyed (h.keyed hKeyed)
  states hNe := (h'.states hNe).trans (h.states hNe)
  channels hNe := (h'.channels hNe).trans (h.channels hNe)
  registered hNe := (h'.registered hNe).trans (h.registered hNe)
  conditions := h'.conditions.trans h.conditions
  roots := h'.roots.trans h.roots
  completedHead := h'.completedHead.trans h.completedHead
  running := h'.running.trans h.running
  stopRequested := h'.stopRequested.trans h.stopRequested
  now := h'.now.trans h.now
  control := h'.control.trans h.control
  frames a := (h'.frames a).trans (h.frames a)

theorem slotAt (h : Elsewhere fd A w w') {other : Int} (hNe : other ≠ fd) (event : Event) :
    w'.slotAt other event = w.slotAt other event := by
  rw [World.slotAt, h.states hNe, World.slotAt]

theorem andThen {o : IoOutcome} {f : World → IoOutcome} (hKeyed : w.Keyed fd A)
    (h : Elsewhere fd A w o.state) (hNext : ∀ {w}, w.Keyed fd A → Elsewhere fd A w (f w).state) :
    Elsewhere fd A w (o.andThen f).state :=
  Outcome.andThen_state (P := Elsewhere fd A w) h (fun prior =>
    prior.trans (hNext (prior.keyed hKeyed)))

theorem rethrow {o : IoOutcome} {f : World → IoOutcome} (hKeyed : w.Keyed fd A)
    (h : Elsewhere fd A w o.state) (hNext : ∀ {w}, w.Keyed fd A → Elsewhere fd A w (f w).state) :
    Elsewhere fd A w (o.rethrow f).state :=
  Outcome.rethrow_state (P := Elsewhere fd A w) h (fun prior =>
    prior.trans (hNext (prior.keyed hKeyed)))

theorem setState (w : World) {st : FdState}
    (hChannel : st.channel.fd = fd ∧ st.channel.address ∈ A) :
    Elsewhere fd A w (w.setState fd st) :=
  { (refl w : Elsewhere fd A w w) with
    keyed := by
      intro _ st' hLookup
      rw [lookup_setState_self] at hLookup
      exact Option.some.inj hLookup ▸ hChannel
    states := fun hNe => lookup_setState_of_ne hNe }

theorem erase (w : World) : Elsewhere fd A w { w with fdStates := w.fdStates.erase fd } :=
  { (refl w : Elsewhere fd A w w) with
    keyed := by
      intro _ st' hLookup
      rw [Finmap.lookup_erase] at hLookup
      cases hLookup
    states := fun hNe => Finmap.lookup_erase_ne hNe }

theorem setReady (w : World) (h : Nat) (ready : Bool) :
    Elsewhere fd A w (w.setFrame h (fun frame => { frame with ready })) :=
  { refl w with
    frames := by
      intro a
      by_cases hEq : a = h
      · subst hEq
        simp only [setFrame, Function.update_self, Option.map_map]
        rfl
      · simp only [setFrame, Function.update_of_ne hEq] }

/-- A change of the event loop at one descriptor. -/
theorem setLoop (w : World) {loop : EventLoop}
    (hChannels : ∀ {other}, other ≠ fd → loop.channels other = w.loop.channels other)
    (hRegistered : ∀ {other}, other ≠ fd → loop.kernel.registered other = w.loop.kernel.registered
      other) (hConditions : loop.kernel.conditions = w.loop.kernel.conditions) :
    Elsewhere fd A w { w with loop } :=
  { refl w with channels := hChannels, registered := hRegistered, conditions := hConditions }

end Elsewhere

section Operations

variable {fd : Int} {A : Set Nat} {event : Event} {faults : Faults} {w : World}

theorem elsewhere_schedule (push : Bool) (w : World) (h : Nat) :
    Elsewhere fd A w (w.schedule push h).state := by
  unfold schedule
  split_ifs
  · exact .refl w
  · exact .refl w
  · exact { Elsewhere.refl w with }

theorem elsewhere_complete (hKeyed : w.Keyed fd A) (push result : Bool) :
    Elsewhere fd A w (w.complete push fd event result).state := by
  unfold complete
  split
  · exact .refl w
  · rename_i st hLookup
    split
    · exact .refl w
    · apply Elsewhere.andThen hKeyed
      · refine (Elsewhere.setState w ?_).trans (.setReady ..)
        rw [FdState.setSlot_channel]
        exact hKeyed hLookup
      · exact fun _ => elsewhere_schedule push _ _

theorem elsewhere_removeChannel (w : World) (channel : Channel) (hFd : channel.fd = fd) :
    Elsewhere fd A w { w with loop := w.loop.removeChannel channel } := by
  subst hFd
  unfold EventLoop.removeChannel
  split_ifs
  · exact .refl w
  · exact .setLoop w (fun hNe => Function.update_of_ne hNe ..)
      (fun hNe => Function.update_of_ne hNe ..) rfl

theorem elsewhere_updateChannel (w : World) {fails : Bool} {channel : Channel} {loop : EventLoop}
    (h : w.loop.updateChannel fails channel = .ok loop) (hFd : channel.fd = fd) :
    Elsewhere fd A w { w with loop } := by
  subst hFd
  obtain ⟨r, -, rfl⟩ := EventLoop.updateChannel_ok h
  exact .setLoop w (fun _ => rfl) (fun hNe => Function.update_of_ne hNe ..) rfl

theorem elsewhere_addChannel (w : World) {fails : Bool} {channel : Channel} {loop : EventLoop}
    (h : w.loop.addChannel fails channel = .ok loop) (hFd : channel.fd = fd) :
    Elsewhere fd A w { w with loop } := by
  subst hFd
  obtain ⟨-, -, -, rfl⟩ := EventLoop.addChannel_ok h
  exact .setLoop w (fun hNe => Function.update_of_ne hNe ..)
    (fun hNe => Function.update_of_ne hNe ..) rfl

theorem elsewhere_refreshInterest (hKeyed : w.Keyed fd A) :
    Elsewhere fd A w (w.refreshInterest faults fd).state := by
  unfold refreshInterest
  cases hLookup : w.fdStates.lookup fd with
  | none => exact .refl w
  | some st =>
    have hChannel := hKeyed hLookup
    dsimp only
    split_ifs
    · exact (elsewhere_removeChannel w _ hChannel.1).trans (.setState _ hChannel)
    · exact .refl w
    · split
      · rename_i loop hOk
        exact (elsewhere_updateChannel w hOk hChannel.1).trans (.setState _ hChannel)
      · exact .setState w hChannel
    · split
      · rename_i loop hOk
        exact (elsewhere_addChannel w hOk hChannel.1).trans (.setState _ hChannel)
      · exact .setState w hChannel

theorem elsewhere_eraseIdle (w : World) : Elsewhere fd A w (w.eraseIdle fd) := by
  unfold eraseIdle
  split
  · split_ifs
    · exact .erase w
    · exact .refl w
  · exact .refl w

theorem elsewhere_settle (hKeyed : w.Keyed fd A) (result : Bool) :
    Elsewhere fd A w (w.settle faults fd event result).state := by
  apply Elsewhere.andThen hKeyed
  · exact .andThen hKeyed (elsewhere_complete hKeyed ..) elsewhere_refreshInterest
  · exact fun _ => elsewhere_eraseIdle _

theorem elsewhere_onReady (hKeyed : w.Keyed fd A) :
    Elsewhere fd A w (w.onReady faults fd event).state := by
  unfold onReady
  split
  · exact .refl w
  · exact elsewhere_settle hKeyed true

theorem elsewhere_expireTimer {timer : TimerEntry} (hKeyed : w.Keyed timer.fd A) :
    Elsewhere timer.fd A w (w.expireTimer faults timer).state := by
  unfold expireTimer
  split_ifs
  · exact elsewhere_settle hKeyed false
  · exact .refl w

theorem elsewhere_cancel (hKeyed : w.Keyed fd A) : Elsewhere fd A w (w.cancel faults fd).state := by
  cases hLookup : w.fdStates.lookup fd with
  | none =>
    rw [cancel_of_none faults hLookup]
    exact .refl w
  | some st =>
    have hChannel := hKeyed hLookup
    have hFirst : Elsewhere fd A w (w.deregistered fd st) := by
      unfold deregistered
      split_ifs
      · exact (elsewhere_removeChannel w _ hChannel.1).trans (.setState _ hChannel)
      · exact .refl w
    rw [cancel_of_lookup faults hLookup]
    refine hFirst.trans (.andThen (hFirst.keyed hKeyed) ?_ (fun _ => .erase _))
    exact .andThen (hFirst.keyed hKeyed) (elsewhere_complete (hFirst.keyed hKeyed) ..)
      (fun hKeyed => elsewhere_complete hKeyed ..)

theorem elsewhere_rollback (hKeyed : w.Keyed fd A) :
    Elsewhere fd A w (w.rollback faults fd event).state := by
  unfold rollback
  split
  · exact .refl w
  · rename_i st hLookup
    have hChannel : (st.setSlot event none).channel.fd = fd ∧
        (st.setSlot event none).channel.address ∈ A := by
      rw [FdState.setSlot_channel]
      exact hKeyed hLookup
    dsimp only
    split_ifs
    · exact (elsewhere_removeChannel w _ hChannel.1).trans (.erase _)
    · exact .erase w
    · have hSet := Elsewhere.setState w hChannel
      exact hSet.trans (elsewhere_refreshInterest (hSet.keyed hKeyed))

/-- The rollback empties the slot of the failed wait and no other. -/
theorem rollback_slotAt {other : Int} {direction : Event} :
    (w.rollback faults fd event).state.slotAt other direction =
      if other = fd ∧ direction = event then none else w.slotAt other direction := by
  unfold rollback
  cases hLookup : w.fdStates.lookup fd with
  | none =>
    split_ifs with hSame
    · rw [hSame.1]
      exact slotAt_of_lookup_none hLookup
    · rfl
  | some st =>
    have hCleared : (w.setState fd (st.setSlot event none)).slotAt other direction =
        if other = fd ∧ direction = event then none else w.slotAt other direction := by
      by_cases hFd : other = fd
      · subst hFd
        rw [slotAt_setState_self, slotAt_of_lookup hLookup]
        by_cases hEvent : direction = event
        · subst hEvent
          simp
        · rw [FdState.slot_setSlot_of_ne _ hEvent, if_neg (fun h => hEvent h.2)]
      · rw [slotAt_setState_of_ne hFd, if_neg (fun h => hFd h.1)]
    rw [← hCleared]
    cases hIdle : (st.setSlot event none).idle with
    | true =>
      simp only [hIdle, if_true]
      by_cases hFd : other = fd
      · subst hFd
        rw [slotAt_setState_self, (FdState.idle_iff _).mp hIdle direction]
        exact slotAt_of_lookup_none (Finmap.lookup_erase ..)
      · rw [slotAt_setState_of_ne hFd]
        exact congrArg (Option.bind · _) (Finmap.lookup_erase_ne hFd)
    | false =>
      simp only [hIdle, Bool.false_eq_true, if_false]
      exact refreshInterest_slotAt _

theorem fdState_channel (hKeyed : w.Keyed fd A) {address : Nat} (hAddress : address ∈ A) :
    (w.fdState address fd).channel.fd = fd ∧ (w.fdState address fd).channel.address ∈ A := by
  unfold fdState
  split
  · rename_i hLookup
    exact hKeyed hLookup
  · exact ⟨rfl, hAddress⟩

theorem elsewhere_pushTimer (w : World) (fails : Bool) (timer : TimerEntry) :
    Elsewhere fd A w (w.pushTimer fails timer).state := by
  unfold pushTimer
  split_ifs
  · exact .refl w
  · exact { Elsewhere.refl w with }

variable {wrap : Wrap} {address : Nat} {timeout : Int}

theorem elsewhere_enterWait (hKeyed : w.Keyed fd A) (hAddress : address ∈ A)
    (continuation result : Nat) :
    Elsewhere fd A w
      (w.enterWait wrap faults address fd event timeout continuation result).state := by
  unfold enterWait
  have hChannel := fdState_channel hKeyed hAddress
  rw [← FdState.setSlot_channel _ event (some ⟨continuation, wrap w.nextToken, result⟩)] at hChannel
  have hCounted : Elsewhere fd A w { w with nextToken := w.nextToken + 1 } :=
    { Elsewhere.refl w with }
  have hTaken := (hCounted.trans (.setReady _ result false)).trans (.setState _ hChannel)
  refine hTaken.trans (.andThen (hTaken.keyed hKeyed) ?_ (fun _ => .refl _))
  refine .rethrow (hTaken.keyed hKeyed) ?_ elsewhere_rollback
  refine .andThen (hTaken.keyed hKeyed) (elsewhere_refreshInterest (hTaken.keyed hKeyed)) ?_
  intro w _
  split_ifs
  · exact elsewhere_pushTimer ..
  · exact .refl w

theorem slotAt_eq_fdState (address : Nat) :
    w.slotAt fd event = (w.fdState address fd).slot event := by
  unfold World.slotAt fdState
  cases w.fdStates.lookup fd with
  | none => cases event <;> rfl
  | some => rfl

/-- Either `arm_wait` is refused before it changes anything, or it enters the
wait, with an empty slot. -/
theorem armWait_cases (continuation result : Option Nat) :
    (∃ e, w.armWait wrap faults address fd event timeout continuation result = .fail e w []) ∨
    ∃ h cell, continuation = some h ∧ result = some cell ∧ 0 ≤ fd ∧ w.isDone h = false ∧
      w.slotAt fd event = none ∧
      w.armWait wrap faults address fd event timeout continuation result =
        w.enterWait wrap faults address fd event timeout h cell := by
  unfold armWait
  by_cases hNeg : fd < 0
  · rw [if_pos hNeg]
    exact .inl ⟨_, rfl⟩
  · rw [if_neg hNeg]
    cases continuation with
    | none => exact .inl ⟨_, rfl⟩
    | some h =>
      cases hDone : w.isDone h with
      | true =>
        simp only [hDone, if_true]
        exact .inl ⟨_, rfl⟩
      | false =>
        cases result with
        | none =>
          simp only [hDone]
          exact .inl ⟨_, rfl⟩
        | some cell =>
          simp only [hDone, Bool.false_eq_true, if_false]
          split_ifs with hAlloc hSlot
          · exact .inl ⟨_, rfl⟩
          · exact .inl ⟨_, rfl⟩
          · refine .inr ⟨h, cell, rfl, rfl, by omega, hDone, ?_, rfl⟩
            rw [slotAt_eq_fdState address]
            simpa using hSlot

theorem elsewhere_armWait (hKeyed : w.Keyed fd A) (hAddress : address ∈ A)
    (continuation result : Option Nat) :
    Elsewhere fd A w
      (w.armWait wrap faults address fd event timeout continuation result).state := by
  rcases armWait_cases continuation result with ⟨e, hFail⟩ | ⟨h, cell, -, -, -, -, -, hEnter⟩
  · rw [hFail]
    exact .refl w
  · rw [hEnter]
    exact elsewhere_enterWait hKeyed hAddress ..

end Operations

theorem spawn_loop (w : World) (fails : Bool) (task : Option Nat) :
    (w.spawn fails task).state.loop = w.loop := by
  unfold spawn
  split
  · rfl
  · split_ifs <;> rfl

theorem spawn_fdStates (w : World) (fails : Bool) (task : Option Nat) :
    (w.spawn fails task).state.fdStates = w.fdStates := by
  unfold spawn
  split
  · rfl
  · split_ifs <;> rfl

theorem finalSuspend_loop (w : World) (h left : Nat) (frame : Frame) :
    (w.finalSuspend h left frame).1.loop = w.loop := by
  unfold finalSuspend
  split_ifs
  · rfl
  · split <;> rfl

theorem finalSuspend_fdStates (w : World) (h left : Nat) (frame : Frame) :
    (w.finalSuspend h left frame).1.fdStates = w.fdStates := by
  unfold finalSuspend
  split_ifs
  · rfl
  · split <;> rfl

section Leaving

variable {o : IoOutcome} {control : Control}

theorem spawn_control (w : World) (fails : Bool) (task : Option Nat) :
    (w.spawn fails task).state.control = w.control := by
  unfold spawn
  split
  · rfl
  · split_ifs <;> rfl

@[simp] theorem toUser_state : (toUser o).1 = o.state := by
  unfold toUser
  cases o.error <;> rfl

theorem within_control (o : IoOutcome) (control : Control) :
    (within o control).1.control = control ∨ (within o control).1.control = .idle := by
  unfold World.within
  cases o.error with
  | none => exact .inl rfl
  | some => exact .inr rfl

theorem toUser_events (o : IoOutcome) :
    ∃ last, (toUser o).2 = o.events ++ last ∧ ∀ e ∈ last, ∃ x, e = .threw x := by
  unfold toUser
  cases o.error with
  | none => exact ⟨[], by simp, fun e he => nomatch he⟩
  | some x => exact ⟨[.threw x], rfl, fun e he => ⟨x, List.mem_singleton.mp he⟩⟩

theorem within_events (o : IoOutcome) (control : Control) :
    ∃ last, (within o control).2 = o.events ++ last ∧ ∀ e ∈ last, ∃ x, e = .runThrew x := by
  unfold within
  cases o.error with
  | none => exact ⟨[], by simp, fun e he => nomatch he⟩
  | some x => exact ⟨[.runThrew x], rfl, fun e he => ⟨x, List.mem_singleton.mp he⟩⟩

theorem mem_toUser {e : Obs} (h : e ∈ o.events) : e ∈ (toUser o).2 := by
  obtain ⟨last, hEq, -⟩ := toUser_events o
  exact hEq ▸ List.mem_append_left _ h

theorem mem_within {e : Obs} (h : e ∈ o.events) : e ∈ (within o control).2 := by
  obtain ⟨last, hEq, -⟩ := within_events o control
  exact hEq ▸ List.mem_append_left _ h

@[simp] theorem within_loop : (within o control).1.loop = o.state.loop := by
  unfold within
  cases o.error <;> rfl

@[simp] theorem within_fdStates : (within o control).1.fdStates = o.state.fdStates := by
  unfold within
  cases o.error <;> rfl

@[simp] theorem within_nextToken : (within o control).1.nextToken = o.state.nextToken := by
  unfold within
  cases o.error <;> rfl

theorem within_slotAt {fd : Int} {event : Event} :
    (within o control).1.slotAt fd event = o.state.slotAt fd event := by
  rw [slotAt, within_fdStates, slotAt]

end Leaving

/-- Every entry has a channel for its own descriptor. -/
def World.AllKeyed (w : World) : Prop := ∀ fd, w.Keyed fd Set.univ

variable {w w' : World}

theorem Elsewhere.allKeyed {fd : Int} (h : Elsewhere fd Set.univ w w') (hKeyed : w.AllKeyed) :
    w'.AllKeyed := by
  intro other st hLookup
  by_cases hEq : other = fd
  · subst hEq
    exact h.keyed (hKeyed other) hLookup
  · rw [h.states hEq] at hLookup
    exact hKeyed other hLookup

theorem AllKeyed.of_fdStates (hKeyed : w.AllKeyed) (hSame : w'.fdStates = w.fdStates) :
    w'.AllKeyed := by
  intro fd st hLookup
  rw [hSame] at hLookup
  exact hKeyed fd hLookup

/-- Every record stays under the descriptor it is about. -/
theorem allKeyed_of_step {wrap : Wrap} {label : Label} {events : List Obs} (hKeyed : w.AllKeyed)
    (h : Step wrap w label w' events) : w'.AllKeyed := by
  cases h with
  | spawn =>
    rw [toUser_state]
    exact AllKeyed.of_fdStates hKeyed (spawn_fdStates ..)
  | cancel =>
    rw [toUser_state]
    exact (elsewhere_cancel (hKeyed _)).allKeyed hKeyed
  | yield | yieldThrows => exact AllKeyed.of_fdStates hKeyed (schedule_fdStates ..)
  | @wait h left address fd timeout event faults =>
    have hElse : Elsewhere fd Set.univ w (w.armWait wrap faults address fd event timeout (some h)
        (some h)).state :=
      elsewhere_armWait (hKeyed fd) (Set.mem_univ _) ..
    exact hElse.allKeyed hKeyed
  | waitThrows => exact (elsewhere_armWait (hKeyed _) (Set.mem_univ _) ..).allKeyed hKeyed
  | finish => exact AllKeyed.of_fdStates hKeyed (finalSuspend_fdStates ..)
  | @expire now second pick =>
    have hPopped : World.AllKeyed { w with timers := w.timers.eraseIdx pick } := hKeyed
    exact AllKeyed.of_fdStates ((elsewhere_expireTimer (hPopped _)).allKeyed hPopped)
      within_fdStates
  | ready =>
    exact AllKeyed.of_fdStates ((elsewhere_onReady (hKeyed _)).allKeyed hKeyed) within_fdStates
  | _ => exact hKeyed

theorem allKeyed_of_reaches {wrap : Wrap} {trace : List Obs} (h : (machine wrap).Reaches w trace) :
    w.AllKeyed := by
  apply h.invariant (P := fun w _ => w.AllKeyed)
  · intro fd st hLookup
    cases hLookup
  · exact fun _ hKeyed hNext => allKeyed_of_step hKeyed (step_of_next hNext)

end Tinycoro.Io
