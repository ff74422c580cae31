import Tinycoro.Io.Waits

/-! Three records of one fact agree: the waiters of a descriptor, its entry in
the event loop's map with the channel's interest, and the interest last given to
the kernel. The argument is local. An operation on a descriptor leaves all others
alone, so each operation is looked at where it acts. -/
namespace Tinycoro.Io

open Effect Transition World

/-- The interest last given to the kernel, as far as the kernel still has it. -/
def EventLoop.requested (loop : EventLoop) (fd : Int) : Option EpollEvents :=
  (loop.kernel.registered fd).map Registration.request

/-- An entry of `fd_states_` and what the event loop and the kernel know of it.
The kernel may know nothing if a registration was `lost`, and something else if
one was `spoiled`. -/
structure Entry (lost spoiled : Prop) (loop : EventLoop) (fd : Int) (st : FdState) : Prop where
  nonneg : 0 ≤ fd
  fd_eq : st.channel.fd = fd
  busy : st.idle = false
  registered : st.registered = true
  channel : loop.channels fd = some st.channel.address
  interest : st.channel.interest = st.wanted
  requested : loop.requested fd = some (toEpollEvents st.wanted) ∨ lost ∧ loop.requested fd = none ∨
    spoiled

/-- A descriptor without an entry is known to nobody. -/
def Consistent (lost spoiled : Prop) (loop : EventLoop) (fd : Int) : Option FdState → Prop
  | none => loop.channels fd = none ∧ loop.requested fd = none
  | some st => Entry lost spoiled loop fd st

/-- No two entries have their channel at one address. -/
def Distinct (fdStates : Finmap (fun _ : Int => FdState)) : Prop :=
  ∀ {fd other st st'}, fdStates.lookup fd = some st → fdStates.lookup other = some st' →
    st.channel.address = st'.channel.address → fd = other

structure Registered (lost spoiled : Prop) (loop : EventLoop)
    (fdStates : Finmap (fun _ : Int => FdState)) : Prop where
  consistent : ∀ fd, Consistent lost spoiled loop fd (fdStates.lookup fd)
  distinct : Distinct fdStates

/-- The failures of `schedule`, and those of `EPOLL_CTL_MOD` unless `spoiled`. -/
def failures (spoiled : Prop) : Set Obs := { o | o = .fault .ready ∨ o = .fault .mod ∧ ¬spoiled }

/-- Every waiter whose condition holds has an event pending in the kernel. -/
def World.Lively (w : World) (fd : Int) : Prop :=
  ∀ event waitSlot, w.slotAt fd event = some waitSlot →
    EventLoop.selects (w.loop.kernel.conditions fd) event = true →
    ∃ r, w.loop.kernel.registered fd = some r ∧ r.pending = true

theorem wanted_read (st : FdState) (h : st.idle = false) : st.wanted.read = st.reader.isSome := by
  unfold FdState.wanted FdState.idle at *
  cases hReader : st.reader <;> cases hWriter : st.writer <;> simp_all

theorem wanted_write (st : FdState) : st.idle = false → st.wanted.write = st.writer.isSome := by
  unfold FdState.wanted FdState.idle
  cases hReader : st.reader <;> cases hWriter : st.writer <;> simp_all

/-- A waiter sees the conditions of its direction. -/
theorem selects_visible {st : FdState} {event : Event} (h : (st.slot event).isSome)
    (holding : EpollEvents) :
    EventLoop.selects ((toEpollEvents st.wanted).visible holding) event =
      EventLoop.selects holding event := by
  have hBusy : st.idle = false := by
    cases event <;> simp_all [FdState.idle, FdState.slot, Option.isSome_iff_ne_none]
  cases event with
  | read =>
    have hRead : st.wanted.read = true := (wanted_read st hBusy).trans h
    simp [EventLoop.selects, EpollEvents.terminal, EpollEvents.visible, toEpollEvents, hRead]
  | write =>
    have hWrite : st.wanted.write = true := (wanted_write st hBusy).trans h
    simp [EventLoop.selects, EpollEvents.terminal, EpollEvents.visible, toEpollEvents, hWrite]

theorem any_of_selects {flags : EpollEvents} {event : Event}
    (h : EventLoop.selects flags event = true) : flags.any = true := by
  cases event <;> simp_all [EventLoop.selects, EpollEvents.terminal, EpollEvents.any] <;> tauto

/-- A registration that was just made or modified has an event pending if what it
asks for holds. -/
theorem lively_of_registered {w : World} {fd : Int} {st : FdState} {pending : Bool}
    (hLookup : w.fdStates.lookup fd = some st)
    (hKernel : w.loop.kernel.registered fd = some ⟨toEpollEvents st.wanted, pending⟩)
    (hPending : ((toEpollEvents st.wanted).visible (w.loop.kernel.conditions fd)).any = true →
      pending = true) : w.Lively fd := by
  intro event waitSlot hSlot hHolds
  rw [slotAt_of_lookup hLookup] at hSlot
  have hWaits : (st.slot event).isSome := by simp [hSlot]
  rw [← selects_visible hWaits] at hHolds
  exact ⟨_, hKernel, hPending (any_of_selects hHolds)⟩

section Local

variable {lost spoiled : Prop} {loop loop' : EventLoop} {w : World} {fd : Int} {event : Event}
  {faults : Faults} {st : FdState}

/-- An entry in the middle of an operation: only the flag says whether the event
loop has its channel, and the interest may be out of date. -/
structure Attached (lost spoiled : Prop) (loop : EventLoop) (fd : Int) (st : FdState) : Prop where
  nonneg : 0 ≤ fd
  fd_eq : st.channel.fd = fd
  on : st.registered = true → loop.channels fd = some st.channel.address ∧
    (loop.requested fd = none → lost ∨ spoiled)
  off : st.registered = false → loop.channels fd = none ∧ loop.requested fd = none

theorem Entry.attached (h : Entry lost spoiled loop fd st) : Attached lost spoiled loop fd st where
  nonneg := h.nonneg
  fd_eq := h.fd_eq
  on _ := by
    refine ⟨h.channel, fun hNone => ?_⟩
    rcases h.requested with hSome | ⟨hLost, -⟩ | hSpoiled
    · rw [hNone] at hSome
      cases hSome
    · exact .inl hLost
    · exact .inr hSpoiled
  off := by simp [h.registered]

theorem Attached.setSlot (h : Attached lost spoiled loop fd st) (waitSlot : Option WaitSlot) :
    Attached lost spoiled loop fd (st.setSlot event waitSlot) := by
  constructor
  · exact h.nonneg
  · simpa using h.fd_eq
  · simpa using h.on
  · simpa using h.off

theorem removeChannel_attached (h : Attached lost spoiled loop fd st) (hOn : st.registered = true) :
    (loop.removeChannel st.channel).channels fd = none ∧
      (loop.removeChannel st.channel).requested fd = none := by
  have hEq : loop.removeChannel st.channel = _ :=
    EventLoop.removeChannel_of_channel (h.fd_eq ▸ h.nonneg) (h.fd_eq ▸ (h.on hOn).1)
  rw [hEq, h.fd_eq]
  simp [EventLoop.requested, Kernel.ctlDel]

theorem eraseIdle_of_idle (hLookup : w.fdStates.lookup fd = some st) (hIdle : st.idle = true) :
    (w.eraseIdle fd).fdStates.lookup fd = none := by
  simp only [eraseIdle, hLookup, hIdle, if_true]
  exact Finmap.lookup_erase ..

theorem eraseIdle_of_busy (hLookup : w.fdStates.lookup fd = some st) (hBusy : st.idle = false) :
    w.eraseIdle fd = w := by
  simp [eraseIdle, hLookup, hBusy]

theorem eraseIdle_loop : (w.eraseIdle fd).loop = w.loop := by
  unfold eraseIdle
  split
  · split_ifs <;> rfl
  · rfl

/-- What an operation leaves at the descriptor it acted on. -/
structure Settled (lost spoiled : Prop) (fd : Int) (w : World) : Prop where
  consistent : Consistent lost spoiled w.loop fd (w.fdStates.lookup fd)
  lively : w.Lively fd ∨ lost ∨ spoiled

theorem Settled.of_none (hLookup : w.fdStates.lookup fd = none)
    (h : w.loop.channels fd = none ∧ w.loop.requested fd = none) : Settled lost spoiled fd w := by
  constructor
  · rw [hLookup]
    exact h
  · left
    intro event waitSlot hSlot
    rw [slotAt_of_lookup_none hLookup] at hSlot
    cases hSlot

/-- There is an entry, and it is settled. -/
structure Enrolled (lost spoiled : Prop) (fd : Int) (w : World) : Prop where
  entry : ∃ st, w.fdStates.lookup fd = some st ∧ Entry lost spoiled w.loop fd st
  lively : w.Lively fd ∨ lost ∨ spoiled

theorem Enrolled.settled (h : Enrolled lost spoiled fd w) : Settled lost spoiled fd w := by
  obtain ⟨st, hLookup, hEntry⟩ := h.entry
  refine ⟨?_, h.lively⟩
  rw [hLookup]
  exact hEntry

theorem Enrolled.eraseIdle (h : Enrolled lost spoiled fd w) : w.eraseIdle fd = w := by
  obtain ⟨st, hLookup, hEntry⟩ := h.entry
  exact eraseIdle_of_busy hLookup hEntry.busy

/-- Without waiters the descriptor is taken out of the event loop. -/
theorem refreshInterest_idle (faults : Faults) (hLookup : w.fdStates.lookup fd = some st)
    (attached : Attached lost spoiled w.loop fd st) (hIdle : st.idle = true) :
    ∃ w', w.refreshInterest faults fd = .ok w' [] ∧ w'.loop.channels fd = none ∧
      w'.loop.requested fd = none ∧ ∃ st', w'.fdStates.lookup fd = some st' ∧ st'.idle = true := by
  simp only [refreshInterest, hLookup, hIdle, if_true]
  cases hFlag : st.registered with
  | true =>
    obtain ⟨hChannels, hRequested⟩ := removeChannel_attached attached hFlag
    exact ⟨_, rfl, hChannels, hRequested, _, lookup_setState_self, hIdle⟩
  | false =>
    obtain ⟨hChannels, hRequested⟩ := attached.off hFlag
    exact ⟨w, rfl, hChannels, hRequested, st, hLookup, hIdle⟩

/-- With waiters a refresh that returns leaves a consistent entry. If it throws,
the channel could not be added, or the kernel refused to modify what it has. -/
theorem ends_refreshInterest (hLookup : w.fdStates.lookup fd = some st)
    (attached : Attached lost spoiled w.loop fd st) (hBusy : st.idle = false) :
    (w.refreshInterest faults fd).Ends (failures spoiled) (Enrolled lost spoiled fd)
      (fun w' => w'.loop = w.loop ∧
        w'.fdStates.lookup fd =
          some { st with channel := { st.channel with interest := st.wanted } } ∧
        (st.registered = true → Enrolled lost spoiled fd w' ∧ (lost ∨ spoiled))) := by
  obtain rfl := attached.fd_eq
  simp only [refreshInterest, hLookup, hBusy, Bool.false_eq_true, if_false]
  cases hFlag : st.registered with
  | true =>
    obtain ⟨hChannel, hKept⟩ := attached.on hFlag
    simp only [if_true]
    cases hUpdate : w.loop.updateChannel faults.mod { st.channel with interest := st.wanted } with
    | ok =>
      apply Outcome.ends_ok
      obtain ⟨r, -, rfl⟩ := EventLoop.updateChannel_ok hUpdate
      refine ⟨⟨_, lookup_setState_self, ?_⟩, .inl ?_⟩
      · exact {
          nonneg := attached.nonneg, fd_eq := rfl, busy := hBusy, registered := rfl
          channel := hChannel, interest := rfl
          requested := .inl (by simp [EventLoop.requested, World.setState]; rfl) }
      · apply lively_of_registered lookup_setState_self
        · exact Function.update_self ..
        · exact fun hAny => Bool.or_eq_true_iff.mpr (.inr hAny)
    | error e =>
      apply Outcome.ends_fail
      intro hEvents
      have hSystem : e = .systemError "epoll_ctl MOD" :=
        EventLoop.updateChannel_error hUpdate attached.nonneg hChannel
      -- the kernel has the descriptor, then this is a failure, or it has lost it
      have hReason : lost ∧ w.loop.requested st.channel.fd = none ∨ spoiled := by
        cases hKernel : w.loop.kernel.registered st.channel.fd with
        | none =>
          have hNone : w.loop.requested st.channel.fd = none := by
            simp [EventLoop.requested, hKernel]
          exact (hKept hNone).imp_left (fun hLost => ⟨hLost, hNone⟩)
        | some =>
          right
          by_contra hSpoiled
          exact hEvents (.fault .mod) (by simp [hSystem, modFault, hKernel]) (.inr ⟨rfl, hSpoiled⟩)
      have hFault : lost ∨ spoiled := hReason.imp_left And.left
      refine ⟨rfl, lookup_setState_self, fun _ => ⟨⟨⟨_, lookup_setState_self, ?_⟩, .inr hFault⟩,
        hFault⟩⟩
      exact {
        nonneg := attached.nonneg, fd_eq := rfl, busy := hBusy, registered := rfl
        channel := hChannel, interest := rfl, requested := .inr hReason }
  | false =>
    simp only [Bool.false_eq_true, if_false]
    cases hAdd : w.loop.addChannel faults.add { st.channel with interest := st.wanted } with
    | ok =>
      apply Outcome.ends_ok
      obtain ⟨-, -, -, rfl⟩ := EventLoop.addChannel_ok hAdd
      refine ⟨⟨_, lookup_setState_self, ?_⟩, .inl ?_⟩
      · exact {
          nonneg := attached.nonneg, fd_eq := rfl, busy := hBusy, registered := rfl
          channel := by simp [World.setState], interest := rfl
          requested := .inl (by simp [EventLoop.requested, World.setState]; rfl) }
      · apply lively_of_registered lookup_setState_self
        · exact Function.update_self ..
        · exact id
    | error =>
        exact Outcome.ends_fail (fun _ => ⟨rfl, lookup_setState_self, fun hOn => nomatch hOn⟩)

theorem ends_complete (spoiled : Prop) (push result : Bool) :
    (w.complete push fd event result).Ends (failures spoiled)
      (fun w' => w'.loop = w.loop ∧ w'.fdStates.lookup fd = (w.fdStates.lookup fd).map
      (·.setSlot event none))
      (fun _ => False) := by
  intro hEvents
  refine ⟨fun _ => ⟨complete_loop .., complete_lookup ..⟩, fun hError => ?_⟩
  exact hEvents _ (complete_error push result hError) (.inl rfl)

/-- Completing a wait and refreshing the interest leaves the records of the descriptor in
agreement, or ends with a failure that is accounted for. -/
theorem ends_settle (hLookup : w.fdStates.lookup fd = some st)
    (entry : Entry lost spoiled w.loop fd st) (result : Bool) :
    (w.settle faults fd event result).Ends (failures spoiled)
      (Settled lost spoiled fd) (fun w' => Settled lost spoiled fd w' ∧ (lost ∨ spoiled)) := by
  let Q (w' : World) := Enrolled lost spoiled fd w' ∨
    (w'.loop.channels fd = none ∧ w'.loop.requested fd = none) ∧
      ∃ st', w'.fdStates.lookup fd = some st' ∧ st'.idle = true
  refine Outcome.Ends.andThen (Q := Q) ?_ ?_
  · refine ((ends_complete spoiled faults.push result).weaken id False.elim).andThen ?_
    rintro w' ⟨hLoop, hCleared⟩
    rw [hLookup, Option.map_some] at hCleared
    have attached : Attached lost spoiled w'.loop fd (st.setSlot event none) :=
      hLoop ▸ entry.attached.setSlot none
    cases hIdle : (st.setSlot event none).idle with
    | true =>
      obtain ⟨w'', hEq, hChannels, hRequested, hLast⟩ := refreshInterest_idle faults hCleared
        attached hIdle
      rw [hEq]
      exact Outcome.ends_ok (.inr ⟨⟨hChannels, hRequested⟩, hLast⟩)
    | false =>
      refine (ends_refreshInterest hCleared attached hIdle).weaken .inl ?_
      rintro w'' ⟨-, -, hEntry⟩
      exact (hEntry ((FdState.setSlot_registered ..).trans entry.registered)).imp_left
        Enrolled.settled
  · rintro w' (hEntry | ⟨hGone, st', hLast, hIdle⟩)
    · apply Outcome.ends_ok
      rw [hEntry.eraseIdle]
      exact hEntry.settled
    · apply Outcome.ends_ok
      refine .of_none (eraseIdle_of_idle hLast hIdle) ?_
      rw [eraseIdle_loop]
      exact hGone

/-- `cancel` leaves no record of the descriptor behind. -/
theorem ends_cancel (inv : Consistent lost spoiled w.loop fd (w.fdStates.lookup fd)) :
    (w.cancel faults fd).Ends (failures spoiled) (Settled lost spoiled fd) (fun _ => False) := by
  unfold cancel
  cases hLookup : w.fdStates.lookup fd with
  | none =>
    rw [hLookup] at inv
    exact Outcome.ends_ok (.of_none hLookup inv)
  | some =>
    rw [hLookup] at inv
    have hRemoved := removeChannel_attached inv.attached inv.registered
    simp only [inv.registered, if_true]
    refine Outcome.Ends.andThen
      (Q := fun w' => w'.loop.channels fd = none ∧ w'.loop.requested fd = none) ?_ ?_
    · refine Outcome.Ends.andThen (ends_complete spoiled faults.push false) ?_
      rintro w' ⟨hLoop, -⟩
      refine (ends_complete spoiled faults.pushAgain false).weaken ?_ id
      rintro w'' ⟨hLoop', -⟩
      rw [hLoop', hLoop]
      exact hRemoved
    · exact fun hGone => Outcome.ends_ok (.of_none (Finmap.lookup_erase ..) hGone)

theorem attached_fdState (hNonneg : 0 ≤ fd)
    (inv : Consistent lost spoiled w.loop fd (w.fdStates.lookup fd)) (address : Nat)
    (waitSlot : WaitSlot) :
    Attached lost spoiled w.loop fd ((w.fdState address fd).setSlot event (some waitSlot)) := by
  unfold fdState
  cases hLookup : w.fdStates.lookup fd with
  | none =>
    rw [hLookup] at inv
    constructor <;> simp [hNonneg, inv.1, inv.2]
  | some =>
    rw [hLookup] at inv
    exact inv.attached.setSlot _

/-- Where the catch block of `arm_wait` starts. A channel that is not registered
belongs to an entry made for this wait. -/
def Undoable (lost spoiled : Prop) (fd : Int) (event : Event) (w : World) : Prop :=
  ∃ st, w.fdStates.lookup fd = some st ∧ Attached lost spoiled w.loop fd st ∧
    (st.registered = false → (st.setSlot event none).idle = true)

/-- A wait that could not be armed is undone in every record it had reached. -/
theorem ends_rollback (h : Undoable lost spoiled fd event w) :
    (w.rollback faults fd event).Ends (failures spoiled) (Settled lost spoiled fd)
    (Settled lost spoiled fd) := by
  obtain ⟨st, hLookup, attached, hNew⟩ := h
  simp only [rollback, hLookup, FdState.setSlot_registered, FdState.setSlot_channel]
  cases hIdle : (st.setSlot event none).idle with
  | true =>
    refine Outcome.ends_ok (.of_none (Finmap.lookup_erase ..) ?_)
    cases hFlag : st.registered with
    | true => exact removeChannel_attached attached hFlag
    | false => exact attached.off hFlag
  | false =>
    have hOn : st.registered = true := by
      by_contra hOff
      rw [hNew (by simpa using hOff)] at hIdle
      cases hIdle
    refine (ends_refreshInterest lookup_setState_self (attached.setSlot none) hIdle).weaken
      Enrolled.settled ?_
    rintro w' ⟨-, -, hEntry⟩
    exact (hEntry ((FdState.setSlot_registered ..).trans hOn)).1.settled

/-- Registering the descriptor once its slot is taken. -/
theorem ends_refreshInterest_taken {w' : World} {address : Nat} {waitSlot : WaitSlot}
    (hNonneg : 0 ≤ fd) (inv : Consistent lost spoiled w.loop fd (w.fdStates.lookup fd))
    (hLoop : w'.loop = w.loop)
    (hTaken : w'.fdStates.lookup fd = some ((w.fdState address fd).setSlot event (some waitSlot))) :
    (w'.refreshInterest faults fd).Ends (failures spoiled) (Enrolled lost spoiled fd)
      (Undoable lost spoiled fd event) := by
  have attached : Attached lost spoiled w'.loop fd
      ((w.fdState address fd).setSlot event (some waitSlot)) := by
    rw [hLoop]
    exact attached_fdState hNonneg inv address waitSlot
  have hBusy : ((w.fdState address fd).setSlot event (some waitSlot)).idle = false := by
    cases event <;> simp [FdState.idle, FdState.setSlot]
  refine (ends_refreshInterest hTaken attached hBusy).weaken id ?_
  rintro w'' ⟨hSame, hLookup, -⟩
  refine ⟨_, hLookup, { attached with on := hSame ▸ attached.on, off := hSame ▸ attached.off },
    fun hOff => ?_⟩
  -- an entry that was there before is registered, so this one is new
  cases hOld : w.fdStates.lookup fd with
  | none =>
    simp only [fdState, hOld]
    cases event <;> rfl
  | some =>
    rw [hOld] at inv
    simp [fdState, hOld, inv.registered] at hOff

/-- A new wait on a descriptor is registered as a whole or undone as a whole. -/
theorem ends_enterWait {wrap : Wrap} {address h cell : Nat} {timeout : Int} (hNonneg : 0 ≤ fd)
    (inv : Consistent lost spoiled w.loop fd (w.fdStates.lookup fd)) :
    (w.enterWait wrap faults address fd event timeout h cell).Ends (failures spoiled)
      (Settled lost spoiled fd) (Settled lost spoiled fd) := by
  unfold enterWait
  refine Outcome.Ends.andThen (Q := Enrolled lost spoiled fd) ?_
    (fun hEnd => Outcome.ends_ok hEnd.settled)
  refine Outcome.Ends.rethrow (R := Undoable lost spoiled fd event) ?_ ends_rollback
  refine Outcome.Ends.andThen (ends_refreshInterest_taken hNonneg inv rfl lookup_setState_self) ?_
  intro w' hEnd
  split_ifs
  · unfold pushTimer
    split_ifs
    · obtain ⟨st, hLookup, hEntry⟩ := hEnd.entry
      refine Outcome.ends_fail (fun _ => ⟨st, hLookup, hEntry.attached, fun hOff => ?_⟩)
      rw [hEntry.registered] at hOff
      cases hOff
    · exact Outcome.ends_ok ⟨hEnd.entry, hEnd.lively⟩
  · exact Outcome.ends_ok hEnd

end Local

namespace Registered

variable {lost lost' spoiled spoiled' : Prop} {wrap : Wrap} {w w' : World} {fd : Int}
  {label : Label} {events : List Obs}

/-- Addresses at which no other descriptor has its channel. -/
def freeFor (w : World) (fd : Int) : Set Nat :=
  { a | ∀ {other st}, other ≠ fd → w.fdStates.lookup other = some st → st.channel.address ≠ a }

theorem keyed (inv : Registered lost spoiled w.loop w.fdStates) (fd : Int) :
    w.Keyed fd (freeFor w fd) := by
  intro st hLookup
  have hEntry := inv.consistent fd
  rw [hLookup] at hEntry
  exact ⟨hEntry.fd_eq, fun hNe hOther hEq => hNe (inv.distinct hOther hLookup hEq)⟩

theorem mem_freeFor {address : Nat} (h : w.freshAddress address = true) :
    address ∈ freeFor w fd := by
  intro other st _ hLookup
  simp only [freshAddress, decide_eq_true_eq] at h
  have hAll := h other (Finmap.mem_keys.mpr (Finmap.mem_iff.mpr ⟨st, hLookup⟩))
  simpa [hLookup] using hAll

/-- After an operation on one descriptor it is enough to look at that one. -/
theorem elsewhere (inv : Registered lost spoiled w.loop w.fdStates)
    (h : Elsewhere fd (freeFor w fd) w w')
    (hLocal : Consistent lost spoiled w'.loop fd (w'.fdStates.lookup fd)) :
    Registered lost spoiled w'.loop w'.fdStates where
  consistent other := by
    by_cases hEq : other = fd
    · exact hEq ▸ hLocal
    · have hOld := inv.consistent other
      rw [h.states hEq]
      have hRequested : w'.loop.requested other = w.loop.requested other := by
        rw [EventLoop.requested, h.registered hEq, EventLoop.requested]
      cases hLookup : w.fdStates.lookup other with
      | none =>
        rw [hLookup] at hOld
        exact ⟨(h.channels hEq).trans hOld.1, hRequested.trans hOld.2⟩
      | some =>
        rw [hLookup] at hOld
        exact { hOld with
          channel := (h.channels hEq).trans hOld.channel
          requested := hRequested ▸ hOld.requested }
  distinct := by
    have hKeyed : w'.Keyed fd (freeFor w fd) := h.keyed (inv.keyed fd)
    intro a b st st' hLookup hLookup' hEq
    by_cases hA : a = fd
    · by_cases hB : b = fd
      · rw [hA, hB]
      · subst hA
        rw [h.states hB] at hLookup'
        exact absurd hEq.symm ((hKeyed hLookup).2 hB hLookup')
    · rw [h.states hA] at hLookup
      by_cases hB : b = fd
      · subst hB
        exact absurd hEq ((hKeyed hLookup').2 hA hLookup)
      · rw [h.states hB] at hLookup'
        exact inv.distinct hLookup hLookup' hEq

/-- What the kernel does by itself changes no request, unless it loses one. -/
theorem setKernel {loop : EventLoop} {fdStates : Finmap (fun _ : Int => FdState)}
    (inv : Registered lost spoiled loop fdStates) {kernel : Kernel}
    (h : ∀ fd, EventLoop.requested ⟨loop.channels, kernel⟩ fd = loop.requested fd ∨
      ((loop.channels fd).isSome → lost') ∧ EventLoop.requested ⟨loop.channels, kernel⟩ fd = none)
    (hLost : lost → lost') (hSpoiled : spoiled → spoiled') :
    Registered lost' spoiled' ⟨loop.channels, kernel⟩ fdStates where
  consistent fd := by
    have hOld := inv.consistent fd
    cases hLookup : fdStates.lookup fd with
    | none =>
      rw [hLookup] at hOld
      refine ⟨hOld.1, ?_⟩
      rcases h fd with hSame | ⟨-, hNone⟩
      · exact hSame.trans hOld.2
      · exact hNone
    | some =>
      rw [hLookup] at hOld
      refine { hOld with requested := ?_ }
      rcases h fd with hSame | ⟨hNow, hNone⟩
      · rw [hSame]
        exact hOld.requested.imp_right (Or.imp (And.imp_left hLost) hSpoiled)
      · exact .inr (.inl ⟨hNow (by simp [hOld.channel]), hNone⟩)
  distinct := inv.distinct

theorem mono {loop : EventLoop} {fdStates : Finmap (fun _ : Int => FdState)}
    (inv : Registered lost spoiled loop fdStates) (hLost : lost → lost')
    (hSpoiled : spoiled → spoiled') : Registered lost' spoiled' loop fdStates :=
  inv.setKernel (fun _ => .inl rfl) hLost hSpoiled

theorem change (inv : Registered lost spoiled w.loop w.fdStates) (holding : EpollEvents)
    (wake : Bool) :
    Registered lost spoiled { w.loop with kernel := w.loop.kernel.change fd holding wake }
      w.fdStates := by
  apply inv.setKernel _ id id
  intro other
  left
  by_cases hEq : other = fd
  · subst hEq
    simp [EventLoop.requested, Kernel.change, Function.comp_def]
  · simp [EventLoop.requested, Kernel.change, Function.update_of_ne hEq]

theorem close (inv : Registered lost spoiled w.loop w.fdStates)
    (h : (w.loop.channels fd).isSome → lost) :
    Registered lost spoiled { w.loop with kernel := w.loop.kernel.close fd } w.fdStates := by
  apply inv.setKernel _ id id
  intro other
  by_cases hEq : other = fd
  · subst hEq
    exact .inr ⟨h, by simp [EventLoop.requested, Kernel.close]⟩
  · left
    simp [EventLoop.requested, Kernel.close, Function.update_of_ne hEq]

theorem epollWait (inv : Registered lost spoiled w.loop w.fdStates) {timeout : Int} {n : Nat}
    {batch : List Int} {kernel : Kernel} {reports : List (Int × EpollEvents)}
    (h : w.loop.kernel.epollWait timeout n batch = some (kernel, reports)) :
    Registered lost spoiled { w.loop with kernel } w.fdStates := by
  apply inv.setKernel _ id id
  intro other
  left
  unfold Kernel.epollWait at h
  split_ifs at h
  cases h
  simp only [EventLoop.requested]
  split_ifs
  · rw [Option.map_map]
    rfl
  · rfl

variable {event : Event} {faults : Faults}

theorem settle (inv : Registered lost spoiled w.loop w.fdStates) {st : FdState} {result : Bool}
    (hLookup : w.fdStates.lookup fd = some st)
    (h : ∀ o ∈ (w.settle faults fd event result).events, o ∉ failures spoiled) :
    Registered lost spoiled (w.settle faults fd event result).state.loop
      (w.settle faults fd event result).state.fdStates := by
  have hEntry := inv.consistent fd
  rw [hLookup] at hEntry
  exact inv.elsewhere (elsewhere_settle (inv.keyed fd) result)
    (((ends_settle hLookup hEntry result).weaken id And.left).state h).consistent

theorem onReady (inv : Registered lost spoiled w.loop w.fdStates)
    (h : ∀ o ∈ (w.onReady faults fd event).events, o ∉ failures spoiled) :
    Registered lost spoiled (w.onReady faults fd event).state.loop
      (w.onReady faults fd event).state.fdStates := by
  unfold World.onReady at *
  cases hLookup : w.fdStates.lookup fd with
  | none => exact inv
  | some =>
    simp only [hLookup] at h ⊢
    exact inv.settle hLookup h

theorem expireTimer (inv : Registered lost spoiled w.loop w.fdStates) {timer : TimerEntry}
    (h : ∀ o ∈ (w.expireTimer faults timer).events, o ∉ failures spoiled) :
    Registered lost spoiled (w.expireTimer faults timer).state.loop
      (w.expireTimer faults timer).state.fdStates := by
  unfold World.expireTimer at *
  cases hActive : w.timerActive timer with
  | false =>
    simp only [Bool.false_eq_true, if_false]
    exact inv
  | true =>
    simp only [hActive, if_true] at h ⊢
    obtain ⟨waitSlot, hSlot, -⟩ := timerActive_iff.mp hActive
    obtain ⟨st, hLookup, -⟩ := Option.bind_eq_some_iff.mp hSlot
    exact inv.settle hLookup h

theorem cancel (inv : Registered lost spoiled w.loop w.fdStates)
    (h : ∀ o ∈ (w.cancel faults fd).events, o ∉ failures spoiled) :
    Registered lost spoiled (w.cancel faults fd).state.loop (w.cancel faults fd).state.fdStates :=
  inv.elsewhere (elsewhere_cancel (inv.keyed fd)) ((ends_cancel (inv.consistent fd)).returned
    h).2.consistent

theorem armWait (inv : Registered lost spoiled w.loop w.fdStates) {address : Nat} {timeout : Int}
    {continuation result : Option Nat} (hFresh : w.freshAddress address = true)
    (h : ∀ o ∈ (w.armWait wrap faults address fd event timeout continuation result).events,
      o ∉ failures spoiled) :
    Registered lost spoiled (w.armWait wrap faults address fd event timeout continuation
      result).state.loop
        (w.armWait wrap faults address fd event timeout continuation result).state.fdStates := by
  rcases armWait_cases continuation result with ⟨e, hFail⟩ | ⟨a, cell, -, -, hNonneg, -, -, hEnter⟩
  · rw [hFail]
    exact inv
  · rw [hEnter] at h ⊢
    exact inv.elsewhere (elsewhere_enterWait (inv.keyed fd) (mem_freeFor hFresh) ..)
      ((ends_enterWait hNonneg (inv.consistent fd)).state h).consistent

/-- Every step keeps the records in agreement, short of an `epoll_ctl` whose failure is noted. -/
theorem step (inv : Registered lost spoiled w.loop w.fdStates) (h : Step wrap w label w' events)
    (hLost : .fault .close ∈ events → lost) (hEvents : ∀ o ∈ events, o ∉ failures spoiled) :
    Registered lost spoiled w'.loop w'.fdStates := by
  cases h with
  | change fd holding wake => exact inv.change holding wake
  | close => exact inv.close (fun hSome => hLost (by simp [hSome]))
  | cancel =>
    rw [toUser_state]
    exact inv.cancel (fun e he => hEvents e (List.mem_cons_of_mem _ (mem_toUser he)))
  | wait hControl hFresh | waitThrows hControl hFresh =>
    exact inv.armWait hFresh (fun e he => hEvents e (List.mem_append_left _ he))
  | @expire now second pick =>
    rw [within_loop, within_fdStates]
    have inv' : Registered lost spoiled { w with timers := w.timers.eraseIdx pick }.loop
      { w with timers := w.timers.eraseIdx pick }.fdStates := inv
    exact inv'.expireTimer (fun e he => hEvents e (List.mem_cons_of_mem _ (mem_within he)))
  | epollWait hControl hTimers hWait => exact inv.epollWait hWait
  | ready =>
    rw [within_loop, within_fdStates]
    exact inv.onReady (fun e he => hEvents e (List.mem_cons_of_mem _ (mem_within he)))
  | spawn =>
    rw [toUser_state, spawn_loop, spawn_fdStates]
    exact inv
  | @yield h left push =>
    change Registered _ _ (w.schedule push h).state.loop (w.schedule push h).state.fdStates
    rw [schedule_loop, schedule_fdStates]
    exact inv
  | yieldThrows =>
    rw [schedule_loop, schedule_fdStates]
    exact inv
  | finish =>
    rw [finalSuspend_loop, finalSuspend_fdStates]
    exact inv
  | _ => exact inv

end Registered

/-- Along every run in which `ready_` can grow the records agree. The kernel
has lost a registration only if a registered descriptor was closed, and has
another interest only if it refused to modify one. -/
theorem registered_of_reaches {wrap : Wrap} {w : World} {trace : List Obs}
    (h : (machine wrap).Reaches w trace) (hReady : .fault .ready ∉ trace) :
    Registered (.fault .close ∈ trace) (.fault .mod ∈ trace) w.loop w.fdStates := by
  revert hReady
  apply h.invariant (P := fun w trace => .fault .ready ∉ trace →
    Registered (.fault .close ∈ trace) (.fault .mod ∈ trace) w.loop w.fdStates)
  · intro _
    exact ⟨fun fd => ⟨rfl, rfl⟩, fun hLookup => nomatch hLookup⟩
  · intro w w' trace events label _ ih hNext hReady
    have inv := ih (fun hMem => hReady (List.mem_append_left _ hMem))
    refine (inv.mono (List.mem_append_left events) (List.mem_append_left events)).step
      (step_of_next hNext) (List.mem_append_right trace) ?_
    rintro o hMem (hEq | ⟨hEq, hUnspoiled⟩)
    · exact hReady (hEq ▸ List.mem_append_right _ hMem)
    · exact hUnspoiled (hEq ▸ List.mem_append_right _ hMem)

/-- The three records of a descriptor agree. The kernel's own record is there as
long as no registered descriptor was closed. -/
structure Agreement (w : World) (trace : List Obs) : Prop where
  waiter : ∀ {fd st}, w.fdStates.lookup fd = some st → st.reader.isSome ∨ st.writer.isSome
  registered : ∀ {fd st}, w.fdStates.lookup fd = some st → st.registered = true
  channels : ∀ fd, w.loop.channels fd = (w.fdStates.lookup fd).map (·.channel.address)
  own : ∀ {fd st}, w.fdStates.lookup fd = some st → st.channel.fd = fd
  distinct : Distinct w.fdStates
  interest : ∀ {fd st}, w.fdStates.lookup fd = some st →
    st.channel.interest = ⟨st.reader.isSome, st.writer.isSome⟩
  request : ∀ {fd r}, w.loop.kernel.registered fd = some r → ∃ st, w.fdStates.lookup fd = some st ∧
    r.request.epollIn = st.reader.isSome ∧ r.request.epollOut = st.writer.isSome
  kept : .fault .close ∉ trace → ∀ {fd st}, w.fdStates.lookup fd = some st →
    (w.loop.kernel.registered fd).isSome

/-- In every reachable state each entry of `fd_states_` has a waiter and is
registered, the event loop maps exactly these descriptors to their own channels,
and the interest of the channel and of the kernel is that of the waiters. -/
theorem agreement_of_reaches {wrap : Wrap} {w : World} {trace : List Obs}
    (h : (machine wrap).Reaches w trace) (hReady : .fault .ready ∉ trace)
    (hMod : .fault .mod ∉ trace) : Agreement w trace := by
  have inv := registered_of_reaches h hReady
  have hEntry {fd : Int} {st : FdState} (hLookup : w.fdStates.lookup fd = some st) :
      Entry (.fault .close ∈ trace) (.fault .mod ∈ trace) w.loop fd st := by
    have hLocal := inv.consistent fd
    rw [hLookup] at hLocal
    exact hLocal
  have hWanted {fd : Int} {st : FdState} (hLookup : w.fdStates.lookup fd = some st) :
      st.wanted = ⟨st.reader.isSome, st.writer.isSome⟩ := by
    rw [← wanted_read st (hEntry hLookup).busy, ← wanted_write st (hEntry hLookup).busy]
  have hRequested {fd : Int} {st : FdState} (hLookup : w.fdStates.lookup fd = some st) :=
    (hEntry hLookup).requested
  simp only [hMod, or_false] at hRequested
  constructor
  · intro fd st hLookup
    have hBusy := (hEntry hLookup).busy
    simp only [FdState.idle, Bool.and_eq_false_iff, Option.isNone_eq_false_iff] at hBusy
    exact hBusy
  · exact fun hLookup => (hEntry hLookup).registered
  · intro fd
    cases hLookup : w.fdStates.lookup fd with
    | none =>
      have hLocal := inv.consistent fd
      rw [hLookup] at hLocal
      exact hLocal.1
    | some => exact (hEntry hLookup).channel
  · exact fun hLookup => (hEntry hLookup).fd_eq
  · exact inv.distinct
  · exact fun hLookup => (hEntry hLookup).interest.trans (hWanted hLookup)
  · intro fd r hKernel
    have hSome : w.loop.requested fd = some r.request := by simp [EventLoop.requested, hKernel]
    cases hLookup : w.fdStates.lookup fd with
    | none =>
      have hLocal := inv.consistent fd
      rw [hLookup] at hLocal
      rw [hLocal.2] at hSome
      cases hSome
    | some st =>
      refine ⟨st, rfl, ?_⟩
      rcases hRequested hLookup with hEq | ⟨-, hNone⟩
      · rw [hSome, hWanted hLookup] at hEq
        rw [Option.some.inj hEq]
        exact ⟨rfl, rfl⟩
      · rw [hSome] at hNone
        cases hNone
  · intro hClose fd st hLookup
    rcases hRequested hLookup with hEq | ⟨hLost, -⟩
    · rw [EventLoop.requested, Option.map_eq_some_iff] at hEq
      obtain ⟨r, hKernel, -⟩ := hEq
      simp [hKernel]
    · exact absurd hLost hClose

/-- One coroutine waits to read and another to write on descriptor 3, and a third
wait is refused by the kernel. -/
theorem agreement_of_reaches_two_waiters :
    ∃ (w : World) (trace : _), (machine .unbounded).Reaches w trace ∧
      (w.slotAt 3 .read).isSome ∧ (w.slotAt 3 .write).isSome ∧ w.fdStates.lookup 4 = none ∧
      Agreement w trace := by
  let labels : List Label :=
    [.create 0, .spawn (some 0) false, .create 1, .spawn (some 1) false, .run,
      .advance 0 none .none, .advance 0 none .none, .wait 3 .read 5 100 .none,
      .advance 0 none .none,
      .advance 0 none .none, .wait 4 .read 5 200 { Faults.none with add := true },
      .wait 3 .write (-1) 200 .none]
  have hRun : ((machine .unbounded).run (machine .unbounded).start labels).map (fun r => (r.2,
      ((r.1.slotAt 3 .read).isSome, (r.1.slotAt 3 .write).isSome, (r.1.fdStates.lookup 4).isSome)))
        = some ([.created 0, .created 1, .resumed 0, .armed 1 3 .read, .suspended 0, .resumed 1,
          .threw (.systemError "epoll_ctl ADD"), .armed 3 3 .write, .suspended 1],
          (true, true, false)) := by
    decide +kernel
  obtain ⟨⟨w, trace⟩, hRun, hEq⟩ := Option.map_eq_some_iff.mp hRun
  obtain ⟨rfl, hRead, hWrite, hNone⟩ : trace = _ ∧ _ ∧ _ ∧ _ := by simpa using hEq
  have hReaches := Machine.Reaches.start.run hRun
  exact ⟨w, _, hReaches, hRead, hWrite, hNone, agreement_of_reaches hReaches (by decide)
    (by decide)⟩

end Tinycoro.Io
