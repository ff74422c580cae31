import Tinycoro.Io.Registration

/-! No wakeup is lost with edge-triggered events. If a waiter's condition holds,
the kernel has an event pending for its descriptor, or an event already fetched
is still to be handled and will call its direction. Handling it completes the
wait before the dispatch is over. -/
namespace Tinycoro.Io

open Effect Transition World

/-- An event that was fetched and not yet handled will call this direction's
callback. Between the callbacks of one event the channel must still be there. -/
def Covered (w : World) (fd : Int) (event : Event) : Prop :=
  match w.control with
  | .dispatch events => ∃ flags, (fd, flags) ∈ events ∧ EventLoop.selects flags event = true
  | .dispatchWrite current flags channel rest =>
    (fd = current ∧ event = .write ∧ EventLoop.selects flags .write = true ∧
      w.loop.channels current = some channel) ∨
    ∃ flags, (fd, flags) ∈ rest ∧ EventLoop.selects flags event = true
  | _ => False

/-- Every waiter whose condition holds will hear of it. -/
def Awake (w : World) : Prop :=
  ∀ fd event waitSlot, w.slotAt fd event = some waitSlot →
    EventLoop.selects (w.loop.kernel.conditions fd) event = true →
    (∃ r, w.loop.kernel.registered fd = some r ∧ r.pending = true) ∨ Covered w fd event

/-- The run is inside `dispatch_events`. -/
def Control.dispatching : Control → Bool
  | .dispatch _ | .dispatchWrite .. => true
  | _ => false

/-- A condition that was not there before makes a difference. -/
theorem any_diff_of_selects {new old : EpollEvents} {event : Event}
    (hNew : EventLoop.selects new event = true) (hOld : EventLoop.selects old event = false) :
    (new.diff old).any = true := by
  cases event <;>
    simp_all [EventLoop.selects, EpollEvents.terminal, EpollEvents.diff, EpollEvents.any] <;> tauto

/-- The kernel's record of a waiting descriptor, when none was lost or spoiled. -/
theorem Registered.kernel_of_slot {w : World} (reg : Registered False False w.loop w.fdStates)
    {fd : Int} {event : Event} {waitSlot : WaitSlot} (hSlot : w.slotAt fd event = some waitSlot) :
    ∃ st r, w.fdStates.lookup fd = some st ∧ (st.slot event).isSome ∧
      w.loop.kernel.registered fd = some r ∧ r.request = toEpollEvents st.wanted ∧
      w.loop.channels fd = some st.channel.address := by
  obtain ⟨st, hLookup, hSt⟩ := Option.bind_eq_some_iff.mp hSlot
  have hEntry := reg.consistent fd
  rw [hLookup] at hEntry
  have hRequested := hEntry.requested
  simp only [false_and, or_false] at hRequested
  obtain ⟨r, hKernel, hEq⟩ := Option.map_eq_some_iff.mp hRequested
  exact ⟨st, r, hLookup, by simp [hSt], hKernel, hEq, hEntry.channel⟩

namespace Covered

variable {w w' : World} {fd other : Int} {flags : EpollEvents} {channel : Nat}
  {event direction : Event} {after : Control}

/-- What is covered stays so behind a callback that is not its own. -/
theorem past (h : Covered w other direction) (hAt : w.Dispatches fd flags channel event after)
    (hOther : ¬(other = fd ∧ direction = event ∧ w.loop.channels fd = some channel ∧
      EventLoop.selects flags event = true)) (hAfter : w'.control = after)
    (hKept : event = .read → other = fd → w'.loop.channels fd = some channel) :
    Covered w' other direction := by
  cases hAt with
  | read hControl hChannel =>
    simp only [Covered, hControl] at h
    simp only [Covered, hAfter]
    obtain ⟨reported, hMem, hSelects⟩ := h
    rcases List.mem_cons.mp hMem with hFirst | hRest
    · cases hFirst
      cases direction with
      | read => exact absurd ⟨rfl, rfl, hChannel, hSelects⟩ hOther
      | write => exact .inl ⟨rfl, rfl, hSelects, hKept rfl rfl⟩
    · exact .inr ⟨reported, hRest, hSelects⟩
  | write hControl =>
    simp only [Covered, hControl] at h
    simp only [Covered, hAfter]
    refine h.resolve_left ?_
    rintro ⟨rfl, rfl, hSelects, hChannel⟩
    exact hOther ⟨rfl, rfl, hChannel, hSelects⟩

theorem unselected (h : Covered w other direction) (hAt : w.Dispatches fd flags channel event after)
    (hNot : ¬(w.loop.channels fd = some channel ∧ EventLoop.selects flags event = true)) :
    Covered { w with control := after } other direction := by
  refine h.past hAt (fun hThis => hNot hThis.2.2) rfl ?_
  rintro rfl -
  cases hAt with
  | read hControl hChannel => exact hChannel

/-- A descriptor without a channel has no waiters. -/
theorem unwatched (h : Covered w other direction) (reg : Registered False False w.loop w.fdStates)
    {waitSlot : WaitSlot} (hSlot : w.slotAt other direction = some waitSlot)
    {rest : List (Int × EpollEvents)} (hControl : w.control = .dispatch ((fd, flags) :: rest))
    (hChannel : w.loop.channels fd = none) :
    Covered { w with control := .dispatch rest } other direction := by
  simp only [Covered, hControl] at h
  obtain ⟨reported, hMem, hSelects⟩ := h
  rcases List.mem_cons.mp hMem with hFirst | hRest
  · cases hFirst
    obtain ⟨st, -, -, -, -, -, hSome⟩ := reg.kernel_of_slot hSlot
    cases hChannel.symm.trans hSome
  · exact ⟨reported, hRest, hSelects⟩

end Covered

namespace Awake

variable {wrap : Wrap} {w w' : World} {fd : Int} {event : Event} {faults : Faults} {label : Label}
  {events : List Obs}

/-- A step that touches neither slots nor the kernel's state of a descriptor, and
keeps what covers it. -/
theorem of_same (inv : Awake w) (hSlots : ∀ fd event, w'.slotAt fd event = w.slotAt fd event)
    (hKernel : w'.loop.kernel = w.loop.kernel)
    (hCovered : ∀ fd event waitSlot, w.slotAt fd event = some waitSlot → Covered w fd event →
      Covered w' fd event) : Awake w' := by
  intro fd event waitSlot hSlot hHolds
  rw [hSlots] at hSlot
  rw [hKernel] at hHolds ⊢
  exact (inv fd event waitSlot hSlot hHolds).imp_right (hCovered fd event waitSlot hSlot)

/-- An operation on one descriptor leaves it lively and the others as they were. -/
theorem of_elsewhere (inv : Awake w) {A : Set Nat} (h : Elsewhere fd A w w')
    (hLively : w'.Lively fd) {control : Control}
    (hCovered : ∀ other event, other ≠ fd → Covered w other event →
      Covered { w' with control } other event) : Awake { w' with control } := by
  intro other event waitSlot hSlot hHolds
  by_cases hEq : other = fd
  · subst hEq
    exact .inl (hLively event waitSlot hSlot hHolds)
  · have hOld : w.slotAt other event = some waitSlot := (h.slotAt hEq event).symm.trans hSlot
    have hStill : EventLoop.selects (w.loop.kernel.conditions other) event = true :=
      h.conditions ▸ hHolds
    rcases inv other event waitSlot hOld hStill with ⟨r, hKernel, hPending⟩ | hCovers
    · exact .inl ⟨r, (h.registered hEq).trans hKernel, hPending⟩
    · exact .inr (hCovered other event hEq hCovers)

/-- A condition that comes up makes the kernel report every registration that asks for it. -/
theorem change (inv : Awake w) (reg : Registered False False w.loop w.fdStates)
    (holding : EpollEvents) (wake : Bool) :
    Awake { w with loop := { w.loop with kernel := w.loop.kernel.change fd holding wake } } := by
  intro other event waitSlot hSlot hHolds
  by_cases hEq : other = fd
  · subst hEq
    obtain ⟨st, r, -, hWaits, hKernel, hRequest, -⟩ := reg.kernel_of_slot hSlot
    have hHolds' : EventLoop.selects holding event = true := by simpa [Kernel.change] using hHolds
    have hRegistered : (w.loop.kernel.change other holding wake).registered other = some ⟨r.request,
        r.pending || wake || ((r.request.visible holding).diff
          (r.request.visible (w.loop.kernel.conditions other))).any⟩ := by
      simp [Kernel.change, hKernel]
    cases hBefore : EventLoop.selects (w.loop.kernel.conditions other) event with
    | true =>
      refine (inv other event waitSlot hSlot hBefore).imp_left ?_
      rintro ⟨r', hKernel', hPending⟩
      rw [hKernel] at hKernel'
      cases hKernel'
      exact ⟨_, hRegistered, by simp [hPending]⟩
    | false =>
      refine .inl ⟨_, hRegistered, ?_⟩
      rw [← selects_visible hWaits, ← hRequest] at hBefore hHolds'
      simp [any_diff_of_selects hHolds' hBefore]
  · have hSame : (w.loop.kernel.change fd holding wake).conditions other = w.loop.kernel.conditions
        other :=
      Function.update_of_ne hEq ..
    have hKernel : (w.loop.kernel.change fd holding wake).registered other =
        w.loop.kernel.registered other :=
      Function.update_of_ne hEq ..
    simp only [hSame] at hHolds
    simp only [hKernel]
    exact inv other event waitSlot hSlot hHolds

theorem close (inv : Awake w) (hNone : w.fdStates.lookup fd = none) :
    Awake { w with loop := { w.loop with kernel := w.loop.kernel.close fd } } := by
  intro other event waitSlot hSlot hHolds
  by_cases hEq : other = fd
  · subst hEq
    have hEmpty : w.slotAt other event = some waitSlot := hSlot
    rw [slotAt_of_lookup_none hNone] at hEmpty
    cases hEmpty
  · have hSame : (w.loop.kernel.close fd).conditions other = w.loop.kernel.conditions other :=
      Function.update_of_ne hEq ..
    have hKernel : (w.loop.kernel.close fd).registered other = w.loop.kernel.registered other :=
      Function.update_of_ne hEq ..
    simp only [hSame] at hHolds
    simp only [hKernel]
    exact inv other event waitSlot hSlot hHolds

/-- Fetching an event moves what covers a waiter from the kernel to the batch. -/
theorem epollWait (inv : Awake w) (reg : Registered False False w.loop w.fdStates) {timeout : Int}
    {n : Nat} {timers : List TimerEntry} {batch : List Int} {kernel : Kernel}
    {reports : List (Int × EpollEvents)} (hControl : w.control = .poll)
    (h : w.loop.kernel.epollWait timeout n batch = some (kernel, reports)) :
    Awake { w with timers, loop := { w.loop with kernel }, control := .dispatch reports } := by
  unfold Kernel.epollWait at h
  split_ifs at h
  cases h
  intro other event waitSlot hSlot hHolds
  by_cases hMem : other ∈ batch
  · right
    obtain ⟨st, r, -, hWaits, hKernel, hRequest, -⟩ := reg.kernel_of_slot hSlot
    refine ⟨w.loop.kernel.report other, List.mem_map.mpr ⟨other, hMem, rfl⟩, ?_⟩
    simp only [Kernel.report, hKernel, hRequest]
    exact (selects_visible hWaits _).trans hHolds
  · left
    have hOld := inv other event waitSlot hSlot hHolds
    simp only [Covered, hControl, or_false] at hOld
    simpa only [if_neg hMem] using hOld

theorem settled_lively (h : Settled False False fd w) : w.Lively fd := by
  rcases h.lively with hLively | hFalse | hFalse
  · exact hLively
  · exact hFalse.elim
  · exact hFalse.elim

theorem settle_lively (reg : Registered False False w.loop w.fdStates) {st : FdState}
    {result : Bool} (hLookup : w.fdStates.lookup fd = some st)
    (h : ∀ o ∈ (w.settle faults fd event result).events, o ∉ failures False) :
    (w.settle faults fd event result).error = none ∧
      (w.settle faults fd event result).state.Lively fd := by
  have hEntry := reg.consistent fd
  rw [hLookup] at hEntry
  have hEnds : (w.settle faults fd event result).Ends (failures False) (Settled False False fd)
      (fun _ => False) :=
    (ends_settle hLookup hEntry result).weaken id (fun hThrown => hThrown.2.elim id id)
  obtain ⟨hOk, hSettled⟩ := hEnds.returned h
  exact ⟨hOk, settled_lively hSettled⟩

theorem lively_of_none (hLookup : w.fdStates.lookup fd = none) : w.Lively fd := by
  intro event waitSlot hSlot
  rw [slotAt_of_lookup_none hLookup] at hSlot
  cases hSlot

theorem onReady_lively (reg : Registered False False w.loop w.fdStates)
    (h : ∀ o ∈ (w.onReady faults fd event).events, o ∉ failures False) :
    (w.onReady faults fd event).error = none ∧ (w.onReady faults fd event).state.Lively fd := by
  unfold World.onReady at *
  cases hLookup : w.fdStates.lookup fd with
  | none => exact ⟨rfl, lively_of_none hLookup⟩
  | some =>
    simp only [hLookup] at h ⊢
    exact settle_lively reg hLookup h

theorem not_covered (h : w.control.dispatching = false) (fd : Int) (event : Event) :
    ¬Covered w fd event := by
  unfold Covered
  cases hControl : w.control <;> simp_all [Control.dispatching]

theorem dispatching_of_userCode (h : w.UserCode) : w.control.dispatching = false := by
  rcases h with hIdle | ⟨a, left, hRunning⟩ | ⟨firstError, left, hDrain⟩
  · rw [hIdle]
    rfl
  · rw [hRunning]
    rfl
  · rw [hDrain]
    rfl

/-- After an exception-free callback the rest of the batch is still to come. -/
theorem onReady (inv : Awake w) (reg : Registered False False w.loop w.fdStates) {control : Control}
    (h : ∀ o ∈ (w.onReady faults fd event).events, o ∉ failures False)
    (hCovered : ∀ other direction, other ≠ fd → Covered w other direction →
      Covered { (w.onReady faults fd event).state with control } other direction) :
    Awake (within (w.onReady faults fd event) control).1 := by
  obtain ⟨hOk, hLively⟩ := onReady_lively reg h
  simp only [within, hOk]
  exact inv.of_elsewhere (elsewhere_onReady (reg.keyed fd)) hLively hCovered

/-- An operation outside the dispatch, where nothing is covered by a batch. -/
theorem of_settled (inv : Awake w) (hControl : w.control.dispatching = false) {A : Set Nat}
    (h : Elsewhere fd A w w') (hLively : w'.Lively fd) (control : Control) :
    Awake { w' with control } :=
  inv.of_elsewhere h hLively (fun other event _ hCovered =>
    (not_covered hControl other event hCovered).elim)

/-- A step that leaves slots and kernel alone and starts outside the dispatch. -/
theorem of_outside (inv : Awake w) (hControl : w.control.dispatching = false)
    (hSlots : ∀ fd event, w'.slotAt fd event = w.slotAt fd event)
    (hKernel : w'.loop.kernel = w.loop.kernel) : Awake w' :=
  inv.of_same hSlots hKernel (fun fd event _ _ hCovered =>
    (not_covered hControl fd event hCovered).elim)

theorem armWait (inv : Awake w) (reg : Registered False False w.loop w.fdStates)
    (hControl : w.control.dispatching = false) {address : Nat} {timeout : Int} {a b : Option Nat}
    (hFresh : w.freshAddress address = true)
    (h : ∀ o ∈ (w.armWait wrap faults address fd event timeout a b).events, o ∉ failures False)
    (control : Control) :
    Awake { (w.armWait wrap faults address fd event timeout a b).state with control } := by
  rcases armWait_cases a b with ⟨e, hFail⟩ | ⟨c, cell, -, -, hNonneg, -, -, hEnter⟩
  · rw [hFail]
    exact inv.of_outside hControl (fun _ _ => rfl) rfl
  · rw [hEnter] at h ⊢
    exact inv.of_settled hControl (elsewhere_enterWait (reg.keyed fd)
      (Registered.mem_freeFor hFresh) ..) (settled_lively
      ((ends_enterWait hNonneg (reg.consistent fd)).state h)) control

theorem expireTimer (inv : Awake w) (reg : Registered False False w.loop w.fdStates)
    (hControl : w.control.dispatching = false) {timer : TimerEntry}
    (h : ∀ o ∈ (w.expireTimer faults timer).events, o ∉ failures False) (control : Control) :
    Awake { (w.expireTimer faults timer).state with control } := by
  unfold World.expireTimer at *
  cases hActive : w.timerActive timer with
  | false =>
    simp only [Bool.false_eq_true, if_false]
    exact inv.of_outside hControl (fun _ _ => rfl) rfl
  | true =>
    simp only [hActive, if_true] at h ⊢
    obtain ⟨waitSlot, hSlot, -⟩ := timerActive_iff.mp hActive
    obtain ⟨st, hLookup, -⟩ := Option.bind_eq_some_iff.mp hSlot
    exact inv.of_settled hControl (elsewhere_settle (reg.keyed timer.fd) false)
      (settle_lively reg hLookup h).2 control

theorem within {o : IoOutcome} (h : ∀ control, Awake { o.state with control }) (control : Control) :
    Awake (within o control).1 := by
  unfold World.within
  cases o.error with
  | none => exact h control
  | some => exact h .idle

/-- Every step keeps a waiter whose condition holds informed: the kernel will report it, or a
fetched event is about to. -/
theorem step (inv : Awake w) (reg : Registered False False w.loop w.fdStates)
    (h : Step wrap w label w' events) (hClose : .fault .close ∉ events)
    (hEvents : ∀ o ∈ events, o ∉ failures False) : Awake w' := by
  cases h with
  | change fd holding wake => exact inv.change reg holding wake
  | close fd =>
    apply inv.close
    cases hLookup : w.fdStates.lookup fd with
    | none => rfl
    | some =>
      have hEntry := reg.consistent fd
      rw [hLookup] at hEntry
      simp [hEntry.channel] at hClose
  | cancel hUser =>
    rw [toUser_state]
    have hSettled := ((ends_cancel (reg.consistent _)).returned
      (fun e he => hEvents e (List.mem_cons_of_mem _ (mem_toUser he)))).2
    exact inv.of_settled (dispatching_of_userCode hUser) (elsewhere_cancel (reg.keyed _))
      (settled_lively hSettled) _
  | @wait h left address fd timeout event faults hControl hFresh =>
    have hArmed := inv.armWait reg (by rw [hControl]; rfl) hFresh
      (fun e he => hEvents e (List.mem_append_left _ he)) (.drain none left)
    exact hArmed
  | waitThrows hControl hFresh =>
    exact inv.armWait reg (by rw [hControl]; rfl) hFresh
      (fun e he => hEvents e (List.mem_append_left _ he)) _
  | @expire now second pick timer faults hControl =>
    have inv' : Awake { w with timers := w.timers.eraseIdx pick } := inv
    exact within (inv'.expireTimer reg (by rw [hControl]; rfl)
      (fun e he => hEvents e (List.mem_cons_of_mem _ (mem_within he)))) _
  | epollWait hControl hTimers hWait => exact inv.epollWait reg hControl hWait
  | dispatched hControl =>
    refine inv.of_same (fun _ _ => rfl) rfl (fun fd event _ _ hCovered => ?_)
    simp [Covered, hControl] at hCovered
  | unwatched hControl hChannel =>
    exact inv.of_same (fun _ _ => rfl) rfl
      (fun _ _ _ hSlot hCovered => hCovered.unwatched reg hSlot hControl hChannel)
  | unselected hAt hNot =>
    exact inv.of_same (fun _ _ => rfl) rfl (fun _ _ _ _ hCovered => hCovered.unselected hAt hNot)
  | ready hAt =>
    refine inv.onReady reg (fun o ho => hEvents o (List.mem_cons_of_mem _ (mem_within ho))) ?_
    exact fun other direction hNe hCovered =>
      hCovered.past hAt (fun hThis => hNe hThis.1) rfl (fun _ hEq => absurd hEq hNe)
  | tick | rerun | awaitEmpty => exact inv
  | create hUser | drop hUser | stop hUser | run hUser =>
    exact inv.of_outside (dispatching_of_userCode hUser) (fun _ _ => rfl) rfl
  | @spawn task fails hUser =>
    rw [toUser_state]
    refine inv.of_outside (dispatching_of_userCode hUser) (fun fd event => ?_) (by rw [spawn_loop])
    rw [slotAt, spawn_fdStates, slotAt]
  | @yield h left push hControl | @yieldThrows h left push e hControl =>
    refine inv.of_outside (by rw [hControl]; rfl) (fun fd event => ?_) ?_
    · exact schedule_slotAt push h
    · exact congrArg EventLoop.kernel (schedule_loop push h)
  | finish hControl =>
    refine inv.of_outside (by rw [hControl]; rfl) (fun fd event => ?_) (by rw [finalSuspend_loop])
    rw [slotAt, finalSuspend_fdStates, slotAt]
  | returned hControl =>
    exact inv.of_outside (by rcases hControl with h | h <;> rw [h] <;> rfl) (fun _ _ => rfl) rfl
  | _ => exact inv.of_outside (by simp only [*, Control.dispatching]) (fun _ _ => rfl) rfl

end Awake

section Delivery

variable {wrap : Wrap} {w w' : World} {fd : Int} {event : Event} {faults : Faults} {label : Label}
  {events : List Obs}
  {waitSlot : WaitSlot}

theorem onReady_completes (hSlot : w.slotAt fd event = some waitSlot) :
    .completed waitSlot.token fd event true ∈ (w.onReady faults fd event).events := by
  obtain ⟨st, hLookup, hSt⟩ := Option.bind_eq_some_iff.mp hSlot
  simp only [onReady, hLookup, settle]
  apply Outcome.mem_andThen_left
  apply Outcome.mem_andThen_left
  rw [complete_of_slot faults.push true hLookup hSt]
  exact Outcome.mem_andThen_left _ (List.mem_singleton_self _)

variable {direction : Event} {channel : Nat} {trace later : List Obs}

/-- A callback of one direction leaves the other's waiter and its channel. -/
theorem onReady_keeps {other : Int} (hElse : ¬(other = fd ∧ direction = event))
    (hSlot : w.slotAt other direction = some waitSlot) :
    (w.onReady faults fd event).state.slotAt other direction = some waitSlot := by
  unfold onReady
  split
  · exact hSlot
  · rw [settle_slotAt, if_neg hElse]
    exact hSlot

/-- The wait is completed now, or it is still there and still covered. -/
def Delivering (w' : World) (events : List Obs) (fd : Int) (event : Event) (waitSlot : WaitSlot) :
    Prop :=
  .completed waitSlot.token fd event true ∈ events ∨
    w'.slotAt fd event = some waitSlot ∧ Covered w' fd event

/-- A callback keeps the channel of a descriptor that still has a waiter. -/
theorem onReady_channel (reg : Registered False False w.loop w.fdStates)
    (hEvents : ∀ o ∈ (w.onReady faults fd event).events, o ∉ failures False)
    (hChannel : w.loop.channels fd = some channel)
    (hSlot : (w.onReady faults fd event).state.slotAt fd direction = some waitSlot) :
    (w.onReady faults fd event).state.loop.channels fd = some channel := by
  have hKeyed : w.Keyed fd {channel} := by
    intro st hLookup
    have hEntry := reg.consistent fd
    rw [hLookup] at hEntry
    refine ⟨hEntry.fd_eq, ?_⟩
    rw [hEntry.channel] at hChannel
    exact Option.some.inj hChannel
  obtain ⟨st, r, hLookup, -, -, -, hAfter⟩ := (reg.onReady hEvents).kernel_of_slot hSlot
  have hSame : st.channel.address = channel := ((elsewhere_onReady hKeyed).keyed hKeyed hLookup).2
  rw [hAfter, hSame]

theorem delivering_ready (reg : Registered False False w.loop w.fdStates) {current : Int}
    {flags : EpollEvents} {after : Control}
    (hAt : w.Dispatches current flags channel direction after)
    (hChannel : w.loop.channels current = some channel)
    (hEvents : ∀ o ∈ (w.onReady faults current direction).events, o ∉ failures False)
    (hSlot : w.slotAt fd event = some waitSlot) (hCovered : Covered w fd event) :
    Delivering (within (w.onReady faults current direction) after).1
      (.onReady current direction ::
        (within (w.onReady faults current direction) after).2) fd event waitSlot := by
  by_cases hThis : fd = current ∧ event = direction
  · obtain ⟨rfl, rfl⟩ := hThis
    exact .inl (List.mem_cons_of_mem _ (mem_within (onReady_completes hSlot)))
  · have hKept : (w.onReady faults current direction).state.slotAt fd event = some waitSlot :=
      onReady_keeps hThis hSlot
    obtain ⟨hOk, -⟩ := Awake.onReady_lively reg hEvents
    simp only [within, hOk]
    refine .inr ⟨hKept, hCovered.past hAt (fun h => hThis ⟨h.1, h.2.1⟩) rfl ?_⟩
    rintro - rfl
    exact onReady_channel reg hEvents hChannel hKept

/-- A step of the dispatch leaves a covered wait covered, or completes it. -/
theorem delivering_of_step (reg : Registered False False w.loop w.fdStates)
    (h : Step wrap w label w' events) (hEvents : ∀ o ∈ events, o ∉ failures False)
    (hSlot : w.slotAt fd event = some waitSlot) (hCovered : Covered w fd event) :
    Delivering w' events fd event waitSlot := by
  have hDispatching : w.control.dispatching = true := by
    by_contra hNot
    exact Awake.not_covered (Bool.eq_false_of_not_eq_true hNot) fd event hCovered
  cases h with
  | change | close | tick => exact .inr ⟨hSlot, hCovered⟩
  | unwatched hControl hChannel =>
    exact .inr ⟨hSlot, hCovered.unwatched reg hSlot hControl hChannel⟩
  | unselected hAt hNot => exact .inr ⟨hSlot, hCovered.unselected hAt hNot⟩
  | ready hAt hChannel =>
    exact delivering_ready reg hAt hChannel
      (fun o ho => hEvents o (List.mem_cons_of_mem _ (mem_within ho))) hSlot hCovered
  | dispatched hControl => simp [Covered, hControl] at hCovered
  | create hUser | drop hUser | spawn hUser | cancel hUser | stop hUser | run hUser | rerun hUser =>
    exact absurd hDispatching (by simp [Awake.dispatching_of_userCode hUser])
  | returned hControl =>
      rcases hControl with h | h <;> simp [h, Control.dispatching] at hDispatching
  | _ => simp [*, Control.dispatching] at hDispatching

/-- How many steps of `run` are left of the dispatch. -/
def Control.work : Control → Nat
  | .dispatch events => 2 * events.length + 1
  | .dispatchWrite _ _ _ rest => 2 * rest.length + 2
  | _ => 0

def Label.advances : Label → Bool
  | .advance .. => true
  | _ => false

theorem World.Dispatches.work_lt {flags : EpollEvents} {after : Control}
    (h : w.Dispatches fd flags channel event after) : after.work < w.control.work := by
  cases h with
  | read hControl =>
    simp only [hControl, Control.work, List.length_cons]
    omega
  | write hControl =>
    simp only [hControl, Control.work]
    omega

/-- The dispatch of a batch comes to its end: each step leaves less of it. -/
theorem work_of_advance {pick : Pick} {batch : Option (List Int)}
    (hControl : w.control.dispatching = true)
    (h : w.advance faults pick batch = some (w', events)) : w'.control.work < w.control.work := by
  have hStep : Step .unbounded w (.advance pick batch faults) w' events := step_of_advance h
  cases hStep with
  | dispatched hNow =>
    rw [hNow]
    exact Nat.zero_lt_one
  | unwatched hNow =>
    simp only [hNow, Control.work, List.length_cons]
    omega
  | unselected hAt => exact hAt.work_lt
  | @ready fd flags channel event after _ hAt =>
    rcases within_control (w.onReady faults fd event) after with hEq | hEq
    · rw [hEq]
      exact hAt.work_lt
    · rw [hEq]
      exact Nat.zero_lt_of_lt hAt.work_lt
  | returned hNow => rcases hNow with hNow | hNow <;> simp [hNow, Control.dispatching] at hControl
  | _ => simp [*, Control.dispatching] at hControl

/-- Inside the dispatch only `run` and the world outside move. -/
theorem work_of_next (hControl : w.control.dispatching = true)
    (h : w.next wrap label = some (w', events)) :
    if label.advances then w'.control.work < w.control.work else w'.control = w.control := by
  cases label with
  | advance =>
    rw [if_pos (by rfl)]
    exact work_of_advance hControl h
  | change | close | tick =>
    cases h
    rfl
  | _ =>
    cases hNow : w.control <;> simp [hNow, Control.dispatching, next, outsideStep] at hControl h

/-- No allocation for `ready_` fails, no `EPOLL_CTL_MOD` of an open descriptor
fails, and no descriptor is closed while it is waited for. -/
def Faultless (trace : List Obs) : Prop := ∀ fault, .fault fault ∉ trace

theorem Faultless.left (h : Faultless (trace ++ later)) : Faultless trace :=
  fun fault hMem => h fault (List.mem_append_left _ hMem)

theorem Faultless.right (h : Faultless (trace ++ later)) : Faultless later :=
  fun fault hMem => h fault (List.mem_append_right _ hMem)

theorem Faultless.not_failure (h : Faultless trace) : ∀ o ∈ trace, o ∉ failures False := by
  rintro o hMem (rfl | ⟨rfl, -⟩)
  · exact h _ hMem
  · exact h _ hMem

theorem registered_of_faultless (h : (machine wrap).Reaches w trace) (hFaults : Faultless trace) :
    Registered False False w.loop w.fdStates :=
  (registered_of_reaches h (hFaults _)).mono (hFaults _) (hFaults _)

theorem awake_of_reaches (h : (machine wrap).Reaches w trace) (hFaults : Faultless trace) :
    Awake w := by
  revert hFaults
  apply h.invariant (P := fun w trace => Faultless trace → Awake w)
  · intro _ fd event waitSlot hSlot
    cases hSlot
  · intro w w' trace events label hReaches ih hNext hFaults
    have reg := registered_of_faultless hReaches hFaults.left
    exact (ih hFaults.left).step reg (step_of_next hNext) (hFaults.right _)
      hFaults.right.not_failure

/-- A covered waiter is completed before the dispatch is over: a run with as many
steps of `run` as the dispatch has left completes it. -/
theorem completed_of_run {labels : List Label} (h : (machine wrap).Reaches w trace)
    (hFaults : Faultless (trace ++ later)) (hRun : (machine wrap).run w labels = some (w', later))
    (hSlot : w.slotAt fd event = some waitSlot) (hCovered : Covered w fd event)
    (hWork : w.control.work ≤ labels.countP Label.advances) :
    .completed waitSlot.token fd event true ∈ later := by
  have hDispatching {w : World} (hCovered : Covered w fd event) : w.control.dispatching = true := by
    by_contra hNot
    exact Awake.not_covered (Bool.eq_false_of_not_eq_true hNot) fd event hCovered
  induction labels generalizing w trace later with
  | nil =>
    have hBusy := hDispatching hCovered
    cases hNow : w.control <;> simp [hNow, Control.dispatching, Control.work] at hBusy hWork
  | cons label labels ih =>
    simp only [Machine.run, Option.bind_eq_bind, Option.bind_eq_some_iff] at hRun
    obtain ⟨⟨middle, first⟩, hNext, ⟨last, rest⟩, hRest, hEq⟩ := hRun
    cases hEq
    rw [← List.append_assoc] at hFaults
    have reg := registered_of_faultless h hFaults.left.left
    rcases delivering_of_step reg (step_of_next hNext) hFaults.left.right.not_failure hSlot hCovered
      with hDone | ⟨hSlot', hCovered'⟩
    · exact List.mem_append_left _ hDone
    · refine List.mem_append_right _ (ih (h.step hNext) hFaults hRest hSlot' hCovered' ?_)
      have hLess := work_of_next (hDispatching hCovered) hNext
      rw [List.countP_cons] at hWork
      split_ifs at hLess hWork with hAdvances
      · omega
      · rw [hLess]
        exact hWork

theorem advance_of_dispatching (hControl : w.control.dispatching = true) (pick : Pick)
    (batch : Option (List Int)) : (w.advance faults pick batch).isSome := by
  cases hNow : w.control with
  | dispatch reports => cases reports <;> simp [advance, hNow]
  | dispatchWrite => simp [advance, hNow]
  | _ => simp [hNow, Control.dispatching] at hControl

/-- What `epoll_wait` reports of a waiting descriptor selects every direction whose
condition holds. -/
theorem report_of_slot (reg : Registered False False w.loop w.fdStates)
    (hSlot : w.slotAt fd event = some waitSlot)
    (hHolds : EventLoop.selects (w.loop.kernel.conditions fd) event = true) :
    EventLoop.selects (w.loop.kernel.report fd) event = true := by
  obtain ⟨st, r, -, hWaits, hKernel, hRequest, -⟩ := reg.kernel_of_slot hSlot
  simp only [Kernel.report, hKernel]
  rw [hRequest, selects_visible hWaits]
  exact hHolds

/-- The only step from `poll` into the dispatch is `epoll_wait`, and what it
fetched is as the kernel had it. -/
theorem report_of_fetch {reports : List (Int × EpollEvents)} (hControl : w.control = .poll)
    (h : Step wrap w label w' events) (hFetched : w'.control = .dispatch reports)
    (hMem : fd ∈ reports.map Prod.fst) :
    (fd, w.loop.kernel.report fd) ∈ reports ∧ w'.slotAt fd = w.slotAt fd := by
  have hNotUser : ¬w.UserCode := by simp [UserCode, hControl]
  cases h with
  | epollWait _ _ hWait =>
    unfold Kernel.epollWait at hWait
    split_ifs at hWait
    cases hWait
    cases hFetched
    rw [List.map_map] at hMem
    obtain ⟨_, hBatch, rfl⟩ := List.mem_map.mp hMem
    exact ⟨List.mem_map_of_mem hBatch, rfl⟩
  | spawn hUser | cancel hUser => exact absurd hUser hNotUser
  | unselected hAt | ready hAt => cases hAt <;> simp_all
  | _ => simp_all [returnRun, throwRun]

end Delivery

/-- What the executor owes a waiter whose condition holds. -/
structure Heard (wrap : Wrap) (w : World) (fd : Int) (event : Event) (waitSlot : WaitSlot) :
  Prop where
  /-- Outside the dispatch the kernel has an event pending that calls this direction. -/
  pending : w.control.dispatching = false → ∃ r, w.loop.kernel.registered fd = some r ∧
    r.pending = true ∧ EventLoop.selects (w.loop.kernel.report fd) event = true
  /-- Inside it such an event is pending, or was fetched and is still to be handled. -/
  covered : w.control.dispatching = true →
    (∃ r, w.loop.kernel.registered fd = some r ∧ r.pending = true ∧
      EventLoop.selects (w.loop.kernel.report fd) event = true) ∨ Covered w fd event
  /-- If `epoll_wait` returns the descriptor now, the dispatch of its batch
  completes the wait, whatever happens in the kernel meanwhile. -/
  delivered : w.control = .poll → ∀ {label w₁ fetching reports},
    (machine wrap).next w label = some (w₁, fetching) → w₁.control = .dispatch reports →
    fd ∈ reports.map Prod.fst → ∀ {labels w₂ later},
      (machine wrap).run w₁ labels = some (w₂, later) → Faultless (fetching ++ later) →
      2 * reports.length < labels.countP Label.advances →
        .completed waitSlot.token fd event true ∈ later
  /-- The dispatch is never stuck. -/
  goesOn : w.control.dispatching = true → ∀ pick batch faults,
    ((machine wrap).next w (.advance pick batch faults)).isSome

/-- With edge-triggered events no wakeup is lost: a waiter whose condition holds
has an event pending or about to be handled, and the poll that returns its
descriptor completes its wait. -/
theorem no_lost_wakeup {wrap : Wrap} {w : World} {trace : List Obs}
    (h : (machine wrap).Reaches w trace) (hFaults : Faultless trace) {fd : Int} {event : Event}
    {waitSlot : WaitSlot} (hSlot : w.slotAt fd event = some waitSlot)
    (hHolds : EventLoop.selects (w.loop.kernel.conditions fd) event = true) :
    Heard wrap w fd event waitSlot := by
  have reg := registered_of_faultless h hFaults
  have hReport := report_of_slot reg hSlot hHolds
  have hAwake : (∃ r, w.loop.kernel.registered fd = some r ∧ r.pending = true ∧
      EventLoop.selects (w.loop.kernel.report fd) event = true) ∨ Covered w fd event := by
    rcases awake_of_reaches h hFaults fd event waitSlot hSlot
      hHolds with ⟨r, hKernel, hPending⟩ | hCovered
    · exact .inl ⟨r, hKernel, hPending, hReport⟩
    · exact .inr hCovered
  constructor
  · exact fun hControl => hAwake.resolve_right (Awake.not_covered hControl fd event)
  · exact fun _ => hAwake
  · intro hControl label w₁ fetching reports hNext hFetched hMem labels w₂ later hRun hLater hWork
    obtain ⟨hReported, hSlots⟩ := report_of_fetch hControl (step_of_next hNext) hFetched hMem
    apply completed_of_run (h.step hNext) (fun fault hFault => ?_) hRun
      ((congrFun hSlots event).trans hSlot)
    · simp only [Covered, hFetched]
      exact ⟨_, hReported, hReport⟩
    · rw [hFetched]
      exact hWork
    · rw [List.append_assoc] at hFault
      exact (List.mem_append.mp hFault).elim (hFaults fault) (hLater fault)
  · exact fun hControl pick batch faults => advance_of_dispatching hControl pick batch

/-- Descriptor 3 becomes readable after a coroutine began to wait for that with a
writer waiting beside it, and before `run` polls. -/
theorem no_lost_wakeup_reader :
    ∃ (w : World) (trace : _) (waitSlot : WaitSlot), (machine .unbounded).Reaches w trace ∧
      w.control = .poll ∧ w.slotAt 3 .read = some waitSlot ∧
      EventLoop.selects (w.loop.kernel.conditions 3) .read = true ∧
      Heard .unbounded w 3 .read waitSlot := by
  let labels : List Label :=
    [.create 0, .spawn (some 0) false, .create 1, .spawn (some 1) false, .run,
      .advance 0 none .none, .advance 0 none .none, .wait 3 .read 5 100 .none,
      .advance 0 none .none,
      .advance 0 none .none, .wait 3 .write (-1) 200 .none, .advance 0 none .none,
      .change 3 { EpollEvents.empty with epollIn := true } false, .advance 0 none .none,
      .advance 0 none .none]
  have hRun : ((machine .unbounded).run (machine .unbounded).start labels).map
      (fun r => (r.2, (r.1.control, r.1.slotAt 3 .read,
        EventLoop.selects (r.1.loop.kernel.conditions 3) .read))) =
        some ([.created 0, .created 1, .resumed 0, .armed 1 3 .read, .suspended 0, .resumed 1,
          .armed 2 3 .write, .suspended 1], (.poll, some ⟨0, 1, 0⟩, true)) := by
    decide +kernel
  obtain ⟨⟨w, trace⟩, hRun, hEq⟩ := Option.map_eq_some_iff.mp hRun
  obtain ⟨rfl, hControl, hSlot, hHolds⟩ : trace = _ ∧ _ ∧ _ ∧ _ := by simpa using hEq
  have hReaches := Machine.Reaches.start.run hRun
  refine ⟨w, _, _, hReaches, hControl, hSlot, hHolds, no_lost_wakeup hReaches ?_ hSlot hHolds⟩
  intro fault
  cases fault <;> decide

/-- A reader and a writer wait on descriptor 3, which is ready for both. The reader's callback
cannot make `ready_` grow, its exception leaves the dispatch, and the event that was to call
the writer's is gone: the writer waits on, and the kernel has nothing to report. -/
theorem wakeup_lost_without_memory :
    ∃ (w : World) (trace : List Obs) (waitSlot : WaitSlot), (machine .unbounded).Reaches w trace ∧
      trace.filter (fun o => o matches .fault _) = [.fault .ready] ∧ w.control = .idle ∧
      w.slotAt 3 .write = some waitSlot ∧
      EventLoop.selects (w.loop.kernel.conditions 3) .write = true ∧
      ¬Heard .unbounded w 3 .write waitSlot := by
  let labels : List Label :=
    [.create 0, .spawn (some 0) false, .create 1, .spawn (some 1) false, .run,
      .advance 0 none .none, .advance 0 none .none, .wait 3 .read (-1) 100 .none,
      .advance 0 none .none,
      .advance 0 none .none, .wait 3 .write (-1) 200 .none, .advance 0 none .none,
      .change 3 { EpollEvents.empty with epollIn := true, epollOut := true } false,
      .advance 0 none .none,
      .advance 0 none .none, .advance 0 (some [3]) .none,
      .advance 0 none { Faults.none with push := true }]
  have hRun : ((machine .unbounded).run (machine .unbounded).start labels).map (fun r =>
      (r.2.filter (fun o => o matches .fault _), (r.1.control, r.1.slotAt 3 .write,
        EventLoop.selects (r.1.loop.kernel.conditions 3) .write, r.1.loop.kernel.registered 3))) =
      some ([.fault .ready], (.idle, some ⟨1, 2, 1⟩, true,
        some ⟨toEpollEvents ⟨true, true⟩, false⟩)) := by
    decide +kernel
  obtain ⟨⟨w, trace⟩, hRun, hEq⟩ := Option.map_eq_some_iff.mp hRun
  simp only [Prod.mk.injEq] at hEq
  obtain ⟨hFaults, hControl, hSlot, hHolds, hKernel⟩ := hEq
  refine ⟨w, trace, _, Machine.Reaches.start.run hRun, hFaults, hControl, hSlot, hHolds,
    fun hHeard => ?_⟩
  obtain ⟨r, hRegistered, hPending, -⟩ := hHeard.pending (by rw [hControl]; rfl)
  rw [hKernel] at hRegistered
  cases hRegistered
  cases hPending

end Tinycoro.Io
