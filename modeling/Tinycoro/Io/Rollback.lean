import Tinycoro.Io.Registration
import Tinycoro.Io.Completion

/-! A wait that cannot be armed is undone: `arm_wait` throws and leaves the
records as they were. It gives back what it took, so this is so where the records
of the descriptor agreed before the call. An entry that an earlier failure left
without waiters, or with another interest in the kernel, is dropped or renewed on
the way. -/
namespace Tinycoro.Io

open Effect Transition World

/-- The records of a descriptor agree, though it may have been closed. -/
def Tidy (w : World) (fd : Int) : Prop :=
  ∀ {st}, w.fdStates.lookup fd = some st → Entry True False w.loop fd st

/-- Nothing changed but the count of tokens, the result cell of the caller and
what is pending in the kernel. -/
structure Untouched (w w' : World) : Prop where
  fdStates : w'.fdStates = w.fdStates
  timers : w'.timers = w.timers
  ready : w'.ready = w.ready
  channels : w'.loop.channels = w.loop.channels
  requested : w'.loop.requested = w.loop.requested
  conditions : w'.loop.kernel.conditions = w.loop.kernel.conditions
  roots : w'.roots = w.roots
  completedHead : w'.completedHead = w.completedHead
  running : w'.running = w.running
  stopRequested : w'.stopRequested = w.stopRequested
  now : w'.now = w.now
  control : w'.control = w.control
  frames : ∀ h, (w'.frames h).map Frame.core = (w.frames h).map Frame.core
  nextToken : w'.nextToken = w.nextToken ∨ w'.nextToken = w.nextToken + 1

theorem Untouched.refl (w : World) : Untouched w w :=
  ⟨rfl, rfl, rfl, rfl, rfl, rfl, rfl, rfl, rfl, rfl, rfl, rfl, fun _ => rfl, .inl rfl⟩

/-- What is the same again where the operation acted. -/
structure Restored (fd : Int) (w w' : World) : Prop where
  entry : w'.fdStates.lookup fd = w.fdStates.lookup fd
  channel : w'.loop.channels fd = w.loop.channels fd
  requested : w'.loop.requested fd = w.loop.requested fd
  timers : w'.timers = w.timers
  ready : w'.ready = w.ready

section Undoing

variable {w w' : World} {fd : Int} {event : Event} {faults : Faults} {st : FdState}

/-- A call that touches only the records of its descriptor, and restores those, changes nothing
but the token counter. -/
theorem Untouched.of_elsewhere {A : Set Nat} (hElse : Elsewhere fd A w w')
    (hLocal : Restored fd w w') (hToken : w'.nextToken = w.nextToken + 1) : Untouched w w' where
  fdStates := by
    apply Finmap.ext_lookup
    intro other
    by_cases hEq : other = fd
    · exact hEq ▸ hLocal.entry
    · exact hElse.states hEq
  timers := hLocal.timers
  ready := hLocal.ready
  channels := by
    funext other
    by_cases hEq : other = fd
    · exact hEq ▸ hLocal.channel
    · exact hElse.channels hEq
  requested := by
    funext other
    by_cases hEq : other = fd
    · exact hEq ▸ hLocal.requested
    · rw [EventLoop.requested, hElse.registered hEq, EventLoop.requested]
  conditions := hElse.conditions
  roots := hElse.roots
  completedHead := hElse.completedHead
  running := hElse.running
  stopRequested := hElse.stopRequested
  now := hElse.now
  control := hElse.control
  frames := hElse.frames
  nextToken := .inr hToken

theorem refreshInterest_queues (w : World) (faults : Faults) (fd : Int) :
    (w.refreshInterest faults fd).state.timers = w.timers ∧
      (w.refreshInterest faults fd).state.ready = w.ready := by
  unfold refreshInterest
  split
  · exact ⟨rfl, rfl⟩
  · dsimp only
    split_ifs
    · exact ⟨rfl, rfl⟩
    · exact ⟨rfl, rfl⟩
    · split <;> exact ⟨rfl, rfl⟩
    · split <;> exact ⟨rfl, rfl⟩

/-- A registered entry with waiters is given its interest, in the channel and, if
the kernel lets it, in the kernel. -/
theorem refreshInterest_update (faults : Faults) (hLookup : w.fdStates.lookup fd = some st)
    (hBusy : st.idle = false) (hOn : st.registered = true) (hNonneg : 0 ≤ fd)
    (hFd : st.channel.fd = fd) (hChannel : w.loop.channels fd = some st.channel.address) :
    (w.refreshInterest faults fd).state.fdStates.lookup fd =
        some { st with channel := { st.channel with interest := st.wanted } } ∧
      (w.refreshInterest faults fd).state.loop.channels = w.loop.channels ∧
      ((w.loop.requested fd ≠ none ∧
          (w.refreshInterest faults fd).state.loop.requested fd = some (toEpollEvents st.wanted)) ∨
        (faults.mod = true ∨ w.loop.requested fd = none) ∧
        (w.refreshInterest faults fd).state.loop = w.loop) := by
  subst hFd
  simp only [refreshInterest, hLookup, hBusy, hOn, Bool.false_eq_true, if_false, if_true]
  cases hUpdate : w.loop.updateChannel faults.mod { st.channel with interest := st.wanted } with
  | ok =>
    obtain ⟨r, hKernel, rfl⟩ := EventLoop.updateChannel_ok hUpdate
    refine ⟨lookup_setState_self, rfl, .inl ⟨?_, ?_⟩⟩
    · simp [EventLoop.requested, hKernel]
    · simp [EventLoop.requested, World.setState]
  | error =>
    refine ⟨lookup_setState_self, rfl, .inr ⟨?_, rfl⟩⟩
    refine (EventLoop.updateChannel_refused hUpdate hNonneg hChannel).imp_right (fun hKernel => ?_)
    simp [EventLoop.requested, hKernel]

/-- The catch block starts with an entry that was made for this wait. -/
structure BegunNew (fd : Int) (event : Event) (w w' : World) : Prop where
  entry : ∃ st, w'.fdStates.lookup fd = some st ∧ st.channel.fd = fd ∧
    (st.setSlot event none).idle = true ∧
    (st.registered = true → w'.loop.channels fd = some st.channel.address ∧
      w.loop.channels fd = none ∧ w.loop.kernel.registered fd = none) ∧
    (st.registered = false → w'.loop = w.loop)
  timers : w'.timers = w.timers
  ready : w'.ready = w.ready

/-- The catch block starts with an entry that was there before. -/
structure BegunOld (fd : Int) (event : Event) (st : FdState) (w w' : World) : Prop where
  entry : ∃ interest waitSlot, w'.fdStates.lookup fd =
    some { st.setSlot event waitSlot with channel := { st.channel with interest } }
  channels : w'.loop.channels = w.loop.channels
  requested : w'.loop.requested fd = none ↔ w.loop.requested fd = none
  timers : w'.timers = w.timers
  ready : w'.ready = w.ready

theorem restored_of_begunNew (hNonneg : 0 ≤ fd) (hNone : w.fdStates.lookup fd = none)
    (h : BegunNew fd event w w') : Restored fd w (w'.rollback faults fd event).state := by
  obtain ⟨st, hLookup, hFd, hIdle, hOn, hOff⟩ := h.entry
  simp only [rollback, hLookup, hIdle, if_true, FdState.setSlot_registered, FdState.setSlot_channel,
    Outcome.ok_state]
  refine ⟨(Finmap.lookup_erase ..).trans hNone.symm, ?_, ?_, h.timers, h.ready⟩
  · cases hFlag : st.registered with
    | true =>
      obtain ⟨hChannel, hBefore, -⟩ := hOn hFlag
      rw [if_pos rfl, EventLoop.removeChannel_of_channel (hFd ▸ hNonneg) (hFd ▸ hChannel), hFd]
      exact (Function.update_self ..).trans hBefore.symm
    | false =>
      rw [if_neg Bool.false_ne_true, hOff hFlag]
  · cases hFlag : st.registered with
    | true =>
      obtain ⟨hChannel, -, hBefore⟩ := hOn hFlag
      rw [if_pos rfl, EventLoop.removeChannel_of_channel (hFd ▸ hNonneg) (hFd ▸ hChannel), hFd]
      simp [EventLoop.requested, Kernel.ctlDel, hBefore]
    | false =>
      rw [if_neg Bool.false_ne_true, hOff hFlag]

/-- The catch block asks the kernel for the interest it had before. -/
theorem restored_of_begunOld (hLookup : w.fdStates.lookup fd = some st)
    (entry : Entry True False w.loop fd st) (hFree : st.slot event = none)
    (hRemod : faults.remod = false) (h : BegunOld fd event st w w') :
    Restored fd w (w'.rollback faults fd event).state := by
  obtain ⟨interest, waitSlot, hTaken⟩ := h.entry
  have hCleared : FdState.setSlot { st.setSlot event waitSlot with channel :=
      { st.channel with interest } } event none = { st with channel := { st.channel with interest }
      } := by
    cases event <;> cases st <;> simp_all [FdState.setSlot, FdState.slot]
  have hWanted : FdState.wanted { st with channel := { st.channel with interest } } = st.wanted :=
    rfl
  have hIdle : FdState.idle { st with channel := { st.channel with interest } } = false :=
    entry.busy
  have hInterest : { st.channel with interest := st.wanted } = st.channel := by
    rw [← entry.interest]
  simp only [rollback, hTaken, hCleared, hIdle, Bool.false_eq_true, if_false]
  have hQueues := refreshInterest_queues (w'.setState fd
    { st with channel := { st.channel with interest } }) { faults with mod := faults.remod } fd
  obtain ⟨hEntry, hChannels, hRequested⟩ := refreshInterest_update (w := w'.setState fd
      { st with channel := { st.channel with interest } }) { faults with mod := faults.remod }
      lookup_setState_self
    hIdle entry.registered entry.nonneg entry.fd_eq ((congrFun h.channels fd).trans entry.channel)
  refine ⟨?_, ?_, ?_, hQueues.1.trans h.timers, hQueues.2.trans h.ready⟩
  · rw [hEntry, hLookup, hWanted, hInterest]
  · rw [hChannels]
    exact congrFun h.channels fd
  · rcases hRequested with ⟨hKept, hAgain⟩ | ⟨hRefused, hLoop⟩
    · -- the kernel had the interest that it is given again
      rw [hAgain, hWanted]
      rcases entry.requested with hBefore | ⟨-, hBefore⟩ | hFalse
      · exact hBefore.symm
      · exact absurd (h.requested.mpr hBefore) hKept
      · exact hFalse.elim
    · -- the kernel has lost the descriptor
      have hGone := hRefused.resolve_left (by simp [hRemod])
      rw [hLoop]
      exact hGone.trans (h.requested.mp hGone).symm

/-- Where the slot is taken and the timer may be left to set. -/
theorem begunNew_refreshInterest {address : Nat} {waitSlot : WaitSlot}
    (hNone : w.fdStates.lookup fd = none) (hLoop : w'.loop = w.loop)
    (hTimers : w'.timers = w.timers) (hReady : w'.ready = w.ready)
    (hTaken : w'.fdStates.lookup fd = some ((w.fdState address fd).setSlot event (some waitSlot))) :
    BegunNew fd event w (w'.refreshInterest faults fd).state := by
  have hQueues := refreshInterest_queues w' faults fd
  refine ⟨?_, hQueues.1.trans hTimers, hQueues.2.trans hReady⟩
  simp only [fdState, hNone] at hTaken
  have hBusy (interest : Interest) : (FdState.setSlot ⟨⟨address, fd, interest⟩, none, none, false⟩
      event (some waitSlot)).idle = false := by cases event <;> rfl
  simp only [refreshInterest, hTaken, hBusy, FdState.setSlot_registered, Bool.false_eq_true,
    if_false]
  split
  · rename_i loop hAdd
    obtain ⟨-, hChannel, hKernel, rfl⟩ := EventLoop.addChannel_ok hAdd
    simp only [FdState.setSlot_channel] at hChannel hKernel
    refine ⟨_, lookup_setState_self, ?_, ?_, ?_, ?_⟩
    · simp
    · cases event <;> rfl
    · intro _
      rw [← hLoop]
      exact ⟨by simp [World.setState], hChannel, hKernel⟩
    · simp
  · refine ⟨_, lookup_setState_self, ?_, ?_, ?_, fun _ => hLoop⟩
    · simp
    · cases event <;> rfl
    · intro hOn
      simp at hOn

theorem begunOld_refreshInterest {address : Nat} {waitSlot : WaitSlot}
    (hLookup : w.fdStates.lookup fd = some st) (entry : Entry True False w.loop fd st)
    (hLoop : w'.loop = w.loop) (hTimers : w'.timers = w.timers) (hReady : w'.ready = w.ready)
    (hTaken : w'.fdStates.lookup fd = some ((w.fdState address fd).setSlot event (some waitSlot))) :
    BegunOld fd event st w (w'.refreshInterest faults fd).state := by
  have hQueues := refreshInterest_queues w' faults fd
  simp only [fdState, hLookup] at hTaken
  have hBusy : (st.setSlot event (some waitSlot)).idle = false := by
    cases event <;> simp [FdState.idle, FdState.setSlot]
  obtain ⟨hEntry, hChannels, hRequested⟩ := refreshInterest_update faults hTaken hBusy
    ((FdState.setSlot_registered ..).trans entry.registered) entry.nonneg
    ((congrArg _ (FdState.setSlot_channel ..)).trans entry.fd_eq)
      (by rw [hLoop, FdState.setSlot_channel, entry.channel])
  refine ⟨⟨(st.setSlot event (some waitSlot)).wanted, some waitSlot, ?_⟩,
    hChannels.trans (congrArg _ hLoop), ?_, hQueues.1.trans hTimers, hQueues.2.trans hReady⟩
  · rw [hEntry, FdState.setSlot_channel]
  · rw [hLoop] at hRequested
    rcases hRequested with ⟨hKept, hGiven⟩ | ⟨-, hSame⟩
    · simp [hKept, hGiven]
    · rw [hSame]

variable {wrap : Wrap} {address : Nat} {timeout : Int}

/-- A wait that is entered and not armed is undone from wherever it was left. -/
theorem ends_enterWait_undone {h cell : Nat} {Begun : World → Prop}
    (hBegun : ∀ {w' : World}, w'.loop = w.loop → w'.timers = w.timers → w'.ready = w.ready →
      w'.fdStates.lookup fd =
      some ((w.fdState address fd).setSlot event (some ⟨h, wrap w.nextToken, cell⟩)) →
      Begun (w'.refreshInterest faults fd).state)
    (hUndone : ∀ {w' : World}, Begun w' → Restored fd w (w'.rollback faults fd event).state) :
    (w.enterWait wrap faults address fd event timeout h cell).Ends ∅ (fun _ => True)
      (Restored fd w) := by
  unfold enterWait
  refine Outcome.Ends.andThen (Q := fun _ => True) ?_ (fun _ => Outcome.ends_ok trivial)
  refine Outcome.Ends.rethrow (R := Begun) ?_ (fun hState _ =>
    ⟨fun _ => hUndone hState, fun _ => hUndone hState⟩)
  refine Outcome.Ends.andThen (Q := Begun) ?_ ?_
  · exact fun _ => ⟨fun _ => hBegun rfl rfl rfl lookup_setState_self, fun _ => hBegun rfl rfl rfl
      lookup_setState_self⟩
  · intro w' hState
    split_ifs
    · unfold pushTimer
      split_ifs
      · exact Outcome.ends_fail (fun _ => hState)
      · exact Outcome.ends_ok trivial
    · exact Outcome.ends_ok trivial

theorem restored_enterWait {h cell : Nat} (hTidy : Tidy w fd) (hNonneg : 0 ≤ fd)
    (hFree : w.slotAt fd event = none) (hRemod : faults.remod = false) :
    (w.enterWait wrap faults address fd event timeout h cell).Ends ∅ (fun _ => True)
      (Restored fd w) := by
  cases hLookup : w.fdStates.lookup fd with
  | none =>
      exact ends_enterWait_undone (begunNew_refreshInterest hLookup)
        (restored_of_begunNew hNonneg hLookup)
  | some =>
    rw [slotAt_of_lookup hLookup] at hFree
    exact ends_enterWait_undone (begunOld_refreshInterest hLookup (hTidy hLookup))
      (restored_of_begunOld hLookup (hTidy hLookup) hFree hRemod)

theorem Tidy.keyed (hTidy : Tidy w fd) : w.Keyed fd Set.univ :=
  fun hLookup => ⟨(hTidy hLookup).fd_eq, Set.mem_univ _⟩

theorem untouched_of_armWait {continuation result : Option Nat} (hTidy : Tidy w fd)
    (hRemod : faults.remod = false)
    (hError : (w.armWait wrap faults address fd event timeout continuation result).error ≠ none) :
    Untouched w (w.armWait wrap faults address fd event timeout continuation result).state := by
  rcases armWait_cases continuation result with ⟨e, hFail⟩ | ⟨h, cell, -, -, hNonneg, -, hFree,
    hEnter⟩
  · rw [hFail]
    exact .refl w
  · rw [hEnter] at hError ⊢
    refine .of_elsewhere (elsewhere_enterWait hTidy.keyed (Set.mem_univ address) h cell) ?_
      enterWait_nextToken
    exact (restored_enterWait hTidy hNonneg hFree hRemod (fun _ _ => Set.notMem_empty _)).2 hError

theorem Untouched.tidy (h : Untouched w w') {other : Int} (hTidy : Tidy w other) :
    Tidy w' other := by
  intro st hLookup
  rw [h.fdStates] at hLookup
  have entry := hTidy hLookup
  exact { entry with
    channel := (congrFun h.channels other).trans entry.channel
    requested := by
      rw [h.requested]
      exact entry.requested }

end Undoing

/-- When `arm_wait` is atomic. -/
structure ArmWaitAtomic (wrap : Wrap) (w : World) (trace : List Obs) : Prop where
  /-- a call that throws, at whichever point, on a descriptor whose records agree -/
  untouched : ∀ {fd : Int}, Tidy w fd → ∀ {event timeout address continuation result}
    {faults : Faults}, faults.remod = false →
    (w.armWait wrap faults address fd event timeout continuation result).error ≠ none →
    Untouched w (w.armWait wrap faults address fd event timeout continuation result).state
  /-- after which the records still agree, of this descriptor and of the others -/
  kept : ∀ {w' : World}, Untouched w w' → ∀ {fd : Int}, Tidy w fd → Tidy w' fd
  /-- the records agree unless `ready_` could not grow or the kernel refused a modification -/
  tidy : .fault .ready ∉ trace → .fault .mod ∉ trace → ∀ fd, Tidy w fd

theorem tidy_of_registered {lost : Prop} {w : World} (inv : Registered lost False w.loop w.fdStates)
    (fd : Int) : Tidy w fd := by
  intro st hLookup
  have entry := inv.consistent fd
  rw [hLookup] at entry
  exact { entry with requested := entry.requested.imp_right (Or.imp_left
    (And.imp_left fun _ => trivial)) }

/-- In every reachable state `arm_wait` is atomic on the descriptors whose records
agree, and these are all as long as no earlier failure has left some behind. -/
theorem armWait_atomic {wrap : Wrap} {w : World} {trace : List Obs}
    (h : (machine wrap).Reaches w trace) : ArmWaitAtomic wrap w trace where
  untouched hTidy _ _ _ _ _ _ hRemod hError := untouched_of_armWait hTidy hRemod hError
  kept hUntouched _ hTidy := hUntouched.tidy hTidy
  tidy hReady hMod := by
    have inv := registered_of_reaches h hReady
    simp only [hMod] at inv
    exact tidy_of_registered inv

/-- Descriptor 3 has a reader; a wait to write is refused when the timer heap
cannot grow, and the reader is left as it was. -/
theorem armWait_atomic_reader :
    ∃ (w : World) (trace : _), (machine .unbounded).Reaches w trace ∧ (w.slotAt 3 .read).isSome ∧
      Untouched w (w.armWait .unbounded { Faults.none with timer := true } 200 3 .write 5 (some 1)
      (some 1)).state := by
  let go : Label := .advance 0 none .none
  let labels : List Label :=
    [.create 0, .spawn (some 0) false, .create 1, .spawn (some 1) false, .run, go, go,
    .wait 3 .read 5 100 .none, go, go]
  have hRun : ((machine .unbounded).run (machine .unbounded).start labels).map
      (fun r => (r.2, ((r.1.slotAt 3 .read).isSome,
      (r.1.armWait .unbounded { Faults.none with timer := true } 200 3 .write 5 (some 1)
        (some 1)).error))) = some ([.created 0, .created 1, .resumed 0, .armed 1 3 .read,
          .suspended 0, .resumed 1], (true, some .badAlloc)) := by
    decide +kernel
  obtain ⟨⟨w, trace⟩, hRun, hEq⟩ := Option.map_eq_some_iff.mp hRun
  obtain ⟨rfl, hRead, hThrown⟩ : trace = _ ∧ _ ∧ _ := by simpa only [Prod.mk.injEq] using hEq
  have hReaches := Machine.Reaches.start.run hRun
  have hAtomic := armWait_atomic hReaches
  exact ⟨w, _, hReaches, hRead, hAtomic.untouched (hAtomic.tidy (by decide) (by decide) 3) rfl
    (by simp [hThrown])⟩

/-- `ready_` cannot grow while the reader of descriptor 3 is completed, and the
entry stays behind without waiters. The next wait fails and takes it away. -/
theorem failed_armWait_erases_entry :
    ∃ (w : World) (trace : _), (machine .unbounded).Reaches w trace ∧
      (w.armWait .unbounded { Faults.none with timer := true } 200 3 .read 5 (some 1)
      (some 1)).error = some .badAlloc ∧
      (w.fdStates.lookup 3).isSome ∧ (w.loop.channels 3).isSome ∧
      (w.armWait .unbounded { Faults.none with timer := true } 200 3 .read 5 (some 1)
        (some 1)).state.fdStates.lookup 3 = none ∧
      (w.armWait .unbounded { Faults.none with timer := true } 200 3 .read 5 (some 1)
        (some 1)).state.loop.channels 3 = none := by
  let go : Label := .advance 0 none .none
  let labels : List Label :=
    [.create 0, .spawn (some 0) false, .run, go, go, .wait 3 .read (-1) 100 .none, go, go, go,
      .change 3 ⟨true, false, false, false, false⟩ false, .advance 0 (some [3]) .none,
      .advance 0 none { Faults.none with push := true }, .create 1, .spawn (some 1) false, .run, go,
      go]
  have hRun : ((machine .unbounded).run (machine .unbounded).start labels).map (fun r =>
      ((r.1.armWait .unbounded { Faults.none with timer := true } 200 3 .read 5 (some 1)
        (some 1)).error, decide ((r.1.fdStates.lookup 3).isSome ∧ (r.1.loop.channels 3).isSome ∧
          (r.1.armWait .unbounded { Faults.none with timer := true } 200 3 .read 5 (some 1)
            (some 1)).state.fdStates.lookup 3 = none ∧
          (r.1.armWait .unbounded { Faults.none with timer := true } 200 3 .read 5 (some 1)
            (some 1)).state.loop.channels 3 = none))) = some (some .badAlloc, true) := by
    decide +kernel
  obtain ⟨⟨w, trace⟩, hRun, hEq⟩ := Option.map_eq_some_iff.mp hRun
  obtain ⟨hThrown, hStates⟩ : _ ∧ _ := by simpa only [Prod.mk.injEq, decide_eq_true_eq] using hEq
  exact ⟨w, _, Machine.Reaches.start.run hRun, hThrown, hStates⟩

end Tinycoro.Io
