import Tinycoro.Io.Arming
import Tinycoro.Io.Resumption

/-! What a suspended coroutine finds in its awaiter when it goes on. The cell is
written when the wait that names it is completed, and by nothing else. -/
namespace Tinycoro.Io

open Effect Transition World

/-- The result cell of the awaiter a coroutine is suspended in. -/
def World.answer (w : World) (a : Nat) : Option Bool := (w.frames a).map Frame.ready

section Cells

variable {w : World} {fd : Int} {event : Event} {faults : Faults} {a : Nat}

theorem answer_of_frames {w' : World} (h : w'.frames = w.frames) : w'.answer a = w.answer a := by
  rw [answer, h, answer]

theorem answer_setReady (h : Nat) (ready : Bool) :
    (w.setFrame h (fun frame => { frame with ready })).answer a =
      if h = a then (w.answer a).map (fun _ => ready) else w.answer a := by
  unfold answer setFrame
  by_cases hEq : h = a
  · subst hEq
    simp only [Function.update_self, if_true, Option.map_map]
    rfl
  · rw [if_neg hEq]
    simp only [Function.update_of_ne (Ne.symm hEq)]

theorem schedule_frames (push : Bool) (h : Nat) : (w.schedule push h).state.frames = w.frames := by
  unfold schedule
  split_ifs <;> rfl

/-- A wait that is completed writes the cell it names. -/
theorem complete_answer (push result : Bool) {waitSlot : WaitSlot}
    (hSlot : w.slotAt fd event = some waitSlot) :
    (w.complete push fd event result).state.answer a =
      if waitSlot.result = a then (w.answer a).map (fun _ => result) else w.answer a := by
  obtain ⟨st, hLookup, hSt⟩ := Option.bind_eq_some_iff.mp hSlot
  rw [complete_of_slot push result hLookup hSt, Outcome.ok_andThen,
    answer_of_frames (schedule_frames ..), answer_setReady]
  rfl

theorem refreshInterest_frames : (w.refreshInterest faults fd).state.frames = w.frames := by
  unfold refreshInterest
  split
  · rfl
  · dsimp only
    split_ifs
    · rfl
    · rfl
    · split <;> rfl
    · split <;> rfl

theorem eraseIdle_frames : (w.eraseIdle fd).frames = w.frames := by
  unfold eraseIdle
  split
  · split_ifs <;> rfl
  · rfl

theorem settle_answer (result : Bool) :
    (w.settle faults fd event result).state.answer a =
    (w.complete faults.push fd event result).state.answer a := by
  let P (w' : World) : Prop := w'.answer a = (w.complete faults.push fd event result).state.answer a
  refine Outcome.andThen_state (P := P) ?_ (fun h => (answer_of_frames eraseIdle_frames).trans h)
  exact Outcome.andThen_state (P := P) rfl (fun h => (answer_of_frames refreshInterest_frames).trans
    h)

/-- The coroutine has no wait. -/
def World.NoWait (w : World) (a : Nat) : Prop :=
  ∀ fd event waitSlot, w.slotAt fd event = some waitSlot → waitSlot.result ≠ a

theorem World.NoWait.complete_answer (h : w.NoWait a) (push result : Bool) :
    (w.complete push fd event result).state.answer a = w.answer a := by
  cases hSlot : w.slotAt fd event with
  | none => rw [complete_of_empty push result hSlot, Outcome.ok_state]
  | some => rw [Io.complete_answer push result hSlot, if_neg (h _ _ _ hSlot)]

theorem World.NoWait.complete (h : w.NoWait a) (push result : Bool) :
    (w.complete push fd event result).state.NoWait a := by
  intro other direction waitSlot hSlot
  rw [complete_slotAt] at hSlot
  split_ifs at hSlot
  exact h _ _ _ hSlot

/-- Of the cells only those of the waits that `cancel` completes are written. -/
theorem World.NoWait.cancel_answer (h : w.NoWait a) :
    (w.cancel faults fd).state.answer a = w.answer a := by
  cases hLookup : w.fdStates.lookup fd with
  | none => rw [cancel_of_none faults hLookup, Outcome.ok_state]
  | some st =>
    have hRemoved : (w.deregistered fd st).NoWait a :=
      fun _ _ _ hSlot => h _ _ _ (deregistered_slotAt hLookup ▸ hSlot)
    have hSame : (w.deregistered fd st).answer a = w.answer a :=
      answer_of_frames (deregistered_rest w fd st).2.2.2
    rw [cancel_of_lookup faults hLookup]
    refine Outcome.andThen_state (P := fun w' : World => w'.answer a = w.answer a) ?_ id
    refine (Outcome.andThen_state (P := fun w' : World => w'.NoWait a ∧ w'.answer a = w.answer a) ?_
      ?_).2
    · exact ⟨hRemoved.complete faults.push false, (hRemoved.complete_answer faults.push false).trans
        hSame⟩
    · exact fun ⟨hNone, hKept⟩ => ⟨hNone.complete _ _, (hNone.complete_answer _ _).trans hKept⟩

/-- The only wait of the coroutine is at this place. -/
def World.OneWait (w : World) (a : Nat) (fd : Int) (event : Event) : Prop :=
  ∀ other direction waitSlot, w.slotAt other direction = some waitSlot → waitSlot.result = a →
    other = fd ∧ direction = event

/-- A wait that `cancel` completes finds `false` in its cell. -/
theorem World.OneWait.cancel_answer {token : Nat} {result : Bool} {waitSlot : WaitSlot}
    (h : w.OneWait a fd event) (hSlot : w.slotAt fd event = some waitSlot)
    (hResult : waitSlot.result = a)
    (hMem : .completed token fd event result ∈ (w.cancel faults fd).events) :
    (w.cancel faults fd).state.answer a = (w.answer a).map (fun _ => false) := by
  cases hLookup : w.fdStates.lookup fd with
  | none =>
    rw [slotAt_of_lookup_none hLookup] at hSlot
    cases hSlot
  | some st =>
    have hSlots (direction : Event) : (w.deregistered fd st).slotAt fd direction = w.slotAt fd
        direction :=
      deregistered_slotAt hLookup
    have hSame : (w.deregistered fd st).answer a = w.answer a :=
      answer_of_frames (deregistered_rest w fd st).2.2.2
    rw [cancel_of_lookup faults hLookup] at hMem ⊢
    refine Outcome.andThen_state (P := fun w' : World => w'.answer a = (w.answer a).map
      (fun _ => false)) ?_ id
    have hBoth : .completed token fd event result ∈
        (((w.deregistered fd st).complete faults.push fd .read false).andThen
        (complete faults.pushAgain · fd .write false)).events := by
      rcases Outcome.mem_andThen hMem with hBoth | hLast
      · exact hBoth
      · cases hLast
    -- completing the other direction leaves the cell alone
    have hOther {w' : World} {push : Bool} (direction : Event) (hNe : direction ≠ event)
        (hKept : w'.slotAt fd direction = w.slotAt fd direction) :
        (w'.complete push fd direction false).state.answer a = w'.answer a := by
      cases hNext : w'.slotAt fd direction with
      | none => rw [complete_of_empty push false hNext, Outcome.ok_state]
      | some =>
        rw [complete_answer push false hNext, if_neg]
        exact fun hSame => hNe (h _ _ _ (hKept ▸ hNext) hSame).2
    cases event with
    | read =>
      refine Outcome.andThen_state (P := fun w' : World => w'.answer a = (w.answer a).map
        (fun _ => false)) ?_ ?_
      · rw [complete_answer faults.push false ((hSlots .read).trans hSlot), if_pos hResult, hSame]
      · refine fun hFirst => (hOther .write (by simp) ?_).trans hFirst
        rw [complete_slotAt, if_neg (by simp), hSlots]
    | write =>
      have hError : ((w.deregistered fd st).complete faults.push fd .read false).error = none := by
        by_contra hThrown
        obtain ⟨e, hThrown⟩ := Option.ne_none_iff_exists'.mp hThrown
        simp only [Outcome.andThen, hThrown, Outcome.fail_events] at hBoth
        rcases complete_events hBoth with ⟨f, hEq⟩ | ⟨_, -, hEq⟩ <;> cases hEq
      rw [Outcome.andThen_of_none _ hError]
      have hWrite : ((w.deregistered fd st).complete faults.push fd .read false).state.slotAt fd
          .write = some waitSlot := by rw [complete_slotAt, if_neg (by simp), hSlots, hSlot]
      rw [complete_answer faults.pushAgain false hWrite, if_pos hResult, hOther .read (by simp)
        (hSlots .read), hSame]

end Cells

/-- What a step does to a coroutine that is suspended: nothing, it is resumed, or
the waits of a descriptor end. -/
inductive FrameStep (w w' : World) (events : List Obs) (a : Nat) : Prop where
  | same (hFrame : w'.frames a = w.frames a) (hNone : completions events = [])
  | resumed {left : Nat} (hControl : w'.control = .running a left)
      (hFrame : w'.frames a = (w.frames a).map (fun frame => { frame with status := .running }))
      (hNone : completions events = [])
  | settled {faults : Faults} {timers : List TimerEntry} {fd : Int} {event : Event} {result : Bool}
      (hFrames : w'.frames = (settle faults { w with timers } fd event result).state.frames)
      (hOnly : ∀ {token other direction answer}, .completed token other direction answer ∈ events →
        other = fd ∧ direction = event ∧ answer = result)
  | cancelled {faults : Faults} {fd : Int} (hFrames : w'.frames = (w.cancel faults fd).state.frames)
      (hOnly : ∀ {token other direction answer}, .completed token other direction answer ∈ events →
        .completed token other direction answer ∈ (w.cancel faults fd).events)

section Steps

variable {wrap : Wrap} {w w' : World} {events : List Obs} {label : Label} {fd : Int} {event : Event}
  {a : Nat}

/-- The coroutine has the thread. -/
def World.Runs (w : World) (a : Nat) : Prop := ∃ left, w.control = .running a left

/-- The coroutine is suspended and its frame is there. -/
def World.IsSuspended (w : World) (a : Nat) : Prop :=
  ∃ frame, w.frames a = some frame ∧ frame.status = .suspended

theorem ne_running (sched : Scheduled True w) (hSuspended : w.IsSuspended a) {c left : Nat}
    (hControl : w.control = .running c left) : a ≠ c := by
  rintro rfl
  obtain ⟨frame, hFrame, hStatus⟩ := hSuspended
  obtain ⟨frame', hFrame', hStatus'⟩ := sched.running_frame hControl
  rw [hFrame] at hFrame'
  cases hFrame'
  rw [hStatus] at hStatus'
  cases hStatus'

theorem completions_of_faults (h : ∀ e ∈ events, ∃ f, e = .fault f) : completions events = [] := by
  apply List.filterMap_eq_nil_iff.mpr
  intro e he
  obtain ⟨f, rfl⟩ := h e he
  rfl

theorem within_frames {o : IoOutcome} (control : Control) :
    (within o control).1.frames = o.state.frames := by
  unfold within
  cases o.error <;> rfl

theorem mem_within_completed {o : IoOutcome} {control : Control} {token : Nat} {direction : Event}
    {result : Bool} (h : .completed token fd direction result ∈ (within o control).2) :
    .completed token fd direction result ∈ o.events := by
  obtain ⟨last, hEq, hThrew⟩ := within_events o control
  rw [hEq] at h
  rcases List.mem_append.mp h with hMem | hMem
  · exact hMem
  · obtain ⟨x, hEq⟩ := hThrew _ hMem
    cases hEq

namespace FrameStep

/-- A callback of the event loop. -/
theorem onReady {faults : Faults} (control : Control) :
    FrameStep w (within (w.onReady faults fd event) control).1
      (.onReady fd event :: (within (w.onReady faults fd event) control).2) a := by
  cases hLookup : w.fdStates.lookup fd with
  | none =>
    simp only [World.onReady, hLookup]
    exact .same rfl rfl
  | some =>
    simp only [World.onReady, hLookup]
    refine .settled (within_frames control) ?_
    intro token other direction answer hMem
    rcases List.mem_cons.mp hMem with hEq | hMem
    · cases hEq
    · rcases settle_events (mem_within_completed hMem) with ⟨f, hEq⟩ | ⟨waitSlot, -, hEq⟩
        <;> cases hEq
      exact ⟨rfl, rfl, rfl⟩

theorem expireTimer {faults : Faults} {pick : Nat} {timer : TimerEntry} {now : Int}
    (control : Control) :
    FrameStep w (within (World.expireTimer faults { w with timers := w.timers.eraseIdx pick } timer)
      control).1 (.timerPopped timer now ::
        (within (World.expireTimer faults { w with timers := w.timers.eraseIdx pick } timer)
        control).2) a := by
  by_cases hActive : ({ w with timers := w.timers.eraseIdx pick } : World).timerActive timer = true
  · simp only [World.expireTimer, hActive, if_true]
    refine .settled (within_frames control) ?_
    intro token other direction answer hMem
    rcases List.mem_cons.mp hMem with hEq | hMem
    · cases hEq
    · rcases settle_events (mem_within_completed hMem) with ⟨f, hEq⟩ | ⟨waitSlot, -, hEq⟩
        <;> cases hEq
      exact ⟨rfl, rfl, rfl⟩
  · simp only [World.expireTimer, hActive]
    exact .same rfl rfl

end FrameStep

variable {faults : Faults}

theorem rollback_frames : (w.rollback faults fd event).state.frames = w.frames := by
  unfold rollback
  split
  · rfl
  · dsimp only
    split_ifs
    · rfl
    · rfl
    · exact refreshInterest_frames

/-- To arm a wait writes no cell but the one the wait names. -/
theorem armWait_frames {address c : Nat} {timeout : Int} (hNe : a ≠ c) :
    (w.armWait wrap faults address fd event timeout (some c) (some c)).state.frames a =
      w.frames a := by
  rcases armWait_cases (some c) (some c) with ⟨e, hFail⟩ | ⟨h, cell, hHandle, hCell, -, -, -,
    hEnter⟩
  · rw [hFail]
    rfl
  · cases hHandle
    cases hCell
    rw [hEnter]
    let P (w' : World) : Prop := w'.frames a = w.frames a
    refine Outcome.andThen_state (P := P) ?_ id
    refine Outcome.rethrow_state (P := P) ?_ (fun h => (congrFun rollback_frames a).trans h)
    refine Outcome.andThen_state (P := P) ((congrFun refreshInterest_frames a).trans ?_) ?_
    · exact Function.update_of_ne hNe ..
    · intro h
      split_ifs
      · unfold pushTimer
        split_ifs <;> exact h
      · exact h

theorem armWait_completions {address : Nat} {timeout : Int} {x y : Option Nat} :
    completions (w.armWait wrap faults address fd event timeout x y).events = [] := by
  apply List.filterMap_eq_nil_iff.mpr
  intro e he
  rcases armWait_events he with ⟨f, rfl⟩ | ⟨token, rfl⟩ <;> rfl

/-- Frames that user code and the executor change are not suspended. -/
theorem frameStep_of_step (sched : Scheduled True w) (h : Step wrap w label w' events)
    (hSuspended : w.IsSuspended a) : FrameStep w w' events a := by
  obtain ⟨frame, hFrame, hStatus⟩ := hSuspended
  have hFree {c : Nat} (hTask : w.isFreeTask c = true) : a ≠ c := by
    rintro rfl
    simp [isFreeTask, hFrame, hStatus] at hTask
  have hRunning {c left : Nat} (hControl : w.control = .running c left) : a ≠ c :=
    ne_running sched ⟨frame, hFrame, hStatus⟩ hControl
  cases h with
  | close =>
    refine .same rfl ?_
    split_ifs <;> rfl
  | @create c hUser hNew =>
    refine .same (Function.update_of_ne ?_ ..) rfl
    rintro rfl
    rw [hNew] at hFrame
    cases hFrame
  | drop hUser hTask => exact .same (Function.update_of_ne (hFree hTask) ..) rfl
  | @spawn task fails hUser hTask =>
    cases task with
    | none => exact .same rfl rfl
    | some =>
      simp only [World.spawn]
      split_ifs
      · exact .same (Function.update_of_ne (hFree hTask) ..) rfl
      · exact .same (Function.update_of_ne (hFree hTask) ..) rfl
      · exact .same (Function.update_of_ne (hFree hTask) ..) rfl
  | @cancel fd faults =>
    refine .cancelled (by rw [toUser_state]) ?_
    intro token other direction answer hMem
    obtain ⟨last, hEq, hThrew⟩ := toUser_events (w.cancel faults fd)
    rw [hEq] at hMem
    rcases List.mem_cons.mp hMem with hEq | hMem
    · cases hEq
    · rcases List.mem_append.mp hMem with hMem | hMem
      · exact hMem
      · obtain ⟨x, hEq⟩ := hThrew _ hMem
        cases hEq
  | @await c left child hControl hTask =>
    exact .same ((Function.update_of_ne (hFree hTask) ..).trans
      (Function.update_of_ne (hRunning hControl) ..)) rfl
  | @yield c left push hControl =>
    refine .same ((Function.update_of_ne (hRunning hControl) ..).trans
      (congrFun (schedule_frames ..) a)) ?_
    rw [completions_append, completions_of_faults (fun _ => (Quiet.schedule ..).events)]
    rfl
  | yieldThrows =>
    refine .same (congrFun (schedule_frames ..) a) ?_
    rw [completions_append, completions_of_faults (fun _ => (Quiet.schedule ..).events)]
    rfl
  | @wait c left address fd timeout event faults hControl =>
    refine .same ((Function.update_of_ne (hRunning hControl) ..).trans
      (armWait_frames (hRunning hControl))) ?_
    rw [completions_append, armWait_completions]
    rfl
  | @waitThrows c left address fd timeout event faults e hControl =>
    refine .same (armWait_frames (hRunning hControl)) ?_
    rw [completions_append, armWait_completions]
    rfl
  | @finish c left exception own hControl hOwn =>
    have hNe := hRunning hControl
    cases hCompletion : own.completion with
    | true =>
      simp only [finalSuspend, if_true]
      exact .same ((Function.update_of_ne hNe ..).trans (Function.update_of_ne hNe ..)) rfl
    | false =>
      cases hContinuation : own.continuation with
      | none =>
        simp only [finalSuspend, Bool.false_eq_true, if_false]
        exact .same (Function.update_of_ne hNe ..) rfl
      | some parent =>
        -- the caller is not suspended, it awaits the one that ends
        have hParent : a ≠ parent := by
          rintro rfl
          have hRole : own.node.role = .child a := by
            simp [Frame.node, Frame.role, hCompletion, hContinuation]
          obtain ⟨caller, hCaller, hAwaits⟩ := sched.threaded.caller (Scheduled.nodes_of_frame hOwn)
            hRole
          rw [Scheduled.nodes_of_frame hFrame] at hCaller
          cases hCaller
          exact absurd (hStatus.symm.trans hAwaits) (by simp)
        simp only [finalSuspend, Bool.false_eq_true, if_false]
        exact .same ((Function.update_of_ne hNe ..).trans ((Function.update_of_ne hParent ..).trans
          (Function.update_of_ne hNe ..))) rfl
  | @resume c =>
    by_cases hEq : a = c
    · subst hEq
      exact .resumed rfl (Function.update_self ..) rfl
    · exact .same (Function.update_of_ne hEq ..) rfl
  | @destroyRoot root left firstError own hControl hHead hOwn =>
    refine .same (Function.update_of_ne ?_ ..) rfl
    rintro rfl
    rw [hFrame] at hOwn
    cases hOwn
    have hDone := (sched.threaded.completed_eq (Scheduled.nodes_of_frame hFrame)).mp hHead
    exact absurd (hStatus.symm.trans hDone) (by simp)
  | expire => exact .expireTimer _
  | ready => exact .onReady _
  | _ => exact .same rfl rfl

/-- A coroutine that is suspended stays so, or is resumed. -/
theorem suspended_of_step (sched : Scheduled True w) (hKeyed : w.AllKeyed)
    (h : Step wrap w label w' events) (hSuspended : w.IsSuspended a) :
    w'.IsSuspended a ∨ w'.Runs a := by
  have hCore {other : World} (hCore : (other.frames a).map Frame.core = (w.frames a).map Frame.core)
      (hFrames : w'.frames = other.frames) : w'.IsSuspended a := by
    obtain ⟨frame, hFrame, hStatus⟩ := hSuspended
    rw [hFrame, Option.map_some, Option.map_eq_some_iff] at hCore
    obtain ⟨frame', hFrame', hEq⟩ := hCore
    have hSame : frame'.core.status = frame.core.status := congrArg Frame.status hEq
    exact ⟨frame', (congrFun hFrames a).trans hFrame', hSame.trans hStatus⟩
  cases frameStep_of_step sched h hSuspended with
  | same hFrame =>
    obtain ⟨frame, hOld, hStatus⟩ := hSuspended
    exact .inl ⟨frame, hFrame.trans hOld, hStatus⟩
  | @resumed left hControl => exact .inr ⟨left, hControl⟩
  | @settled faults timers fd event result hFrames =>
    have hKeyed' : World.AllKeyed { w with timers } := hKeyed
    exact .inl (hCore ((elsewhere_settle (hKeyed' fd) result).frames a) hFrames)
  | @cancelled faults fd hFrames =>
      exact .inl (hCore ((elsewhere_cancel (hKeyed fd)).frames a) hFrames)

/-- The cell of a coroutine without a wait is not written. -/
theorem answer_kept_of_step (sched : Scheduled True w) (h : Step wrap w label w' events)
    (hSuspended : w.IsSuspended a) (hNone : w.NoWait a) : w'.answer a = w.answer a := by
  cases frameStep_of_step sched h hSuspended with
  | same hFrame => rw [answer, hFrame, answer]
  | resumed _ hFrame =>
    rw [answer, hFrame, Option.map_map]
    rfl
  | @settled faults timers fd event result hFrames =>
    have hNone' : World.NoWait { w with timers } a := hNone
    exact (answer_of_frames hFrames).trans ((settle_answer result).trans
      (hNone'.complete_answer _ _))
  | cancelled hFrames => exact (answer_of_frames hFrames).trans hNone.cancel_answer

/-- The cell of a coroutine whose wait is completed holds the result. -/
theorem answer_of_completed (sched : Scheduled True w) (h : Step wrap w label w' events)
    (hSuspended : w.IsSuspended a) (hOne : w.OneWait a fd event) {waitSlot : WaitSlot}
    {result : Bool} (hSlot : w.slotAt fd event = some waitSlot) (hResult : waitSlot.result = a)
    (hMem : .completed waitSlot.token fd event result ∈ events) : w'.answer a = some result := by
  have hCell : ∃ cell, w.answer a = some cell := by
    obtain ⟨frame, hFrame, -⟩ := hSuspended
    exact ⟨frame.ready, by rw [answer, hFrame, Option.map_some]⟩
  obtain ⟨cell, hCell⟩ := hCell
  have hNever (hNone : completions events = []) : False := by
    have hToken := mem_completions.mpr ⟨fd, event, result, hMem⟩
    rw [hNone] at hToken
    cases hToken
  cases frameStep_of_step sched h hSuspended with
  | same _ hNone | resumed _ _ hNone => exact (hNever hNone).elim
  | @settled faults timers other direction answer hFrames hOnly =>
    obtain ⟨rfl, rfl, rfl⟩ := hOnly hMem
    have hSlot' : World.slotAt { w with timers } fd event = some waitSlot := hSlot
    have hCell' : World.answer { w with timers } a = some cell := hCell
    rw [answer_of_frames hFrames, settle_answer, complete_answer _ _ hSlot', if_pos hResult, hCell',
      Option.map_some]
  | @cancelled faults other hFrames hOnly =>
    have hCancel := hOnly hMem
    obtain ⟨rfl, rfl⟩ : fd = other ∧ result = false := by
      rcases cancel_events hCancel with ⟨f, hEq⟩ | ⟨direction, slot, -, hEq⟩
      · cases hEq
      · simp only [Obs.completed.injEq] at hEq
        exact ⟨hEq.2.1, hEq.2.2.2⟩
    rw [answer_of_frames hFrames, hOne.cancel_answer hSlot hResult hCancel, hCell, Option.map_some]

end Steps

section Waits

variable {wrap : Wrap} {w w' : World} {trace events : List Obs} {label : Label} {fd : Int}
  {event : Event} {a : Nat} {waitSlot : WaitSlot}

/-- Slots are filled by the coroutine that runs, with new tokens. -/
theorem slot_of_step (h : Step wrap w label w' events)
    (hSlot : w'.slotAt fd event = some waitSlot) :
    w.slotAt fd event = some waitSlot ∨
      ∃ c left, w.control = .running c left ∧ waitSlot = ⟨c, wrap w.nextToken, c⟩ := by
  cases label with
  | wait =>
    cases h with
    | @wait c left _ _ _ _ _ hControl hFresh hOk =>
      obtain ⟨-, hSlots, -, -⟩ := armWait_returned hOk
      have hTaken := (hSlots fd event).symm.trans hSlot
      split_ifs at hTaken
      · exact .inr ⟨c, left, hControl, (Option.some.inj hTaken).symm⟩
      · exact .inl hTaken
    | waitThrows hControl hFresh hError =>
        exact .inl ((armWait_thrown (by simp [hError])).slots hSlot)
  | _ => exact .inl ((ebbs_of_step h nofun).slots hSlot)

/-- A slot is emptied only for a wait that is completed. -/
theorem lost_of_step (h : Step wrap w label w' events) (hSlot : w.slotAt fd event = some waitSlot) :
    w'.slotAt fd event = some waitSlot ∨ waitSlot.token ∈ completions events := by
  cases label with
  | wait =>
    cases h with
    | wait hControl hFresh hOk =>
      obtain ⟨hFree, hSlots, -, -⟩ := armWait_returned hOk
      refine .inl ((hSlots fd event).trans ?_)
      rw [if_neg, hSlot]
      rintro ⟨rfl, rfl⟩
      rw [hFree] at hSlot
      cases hSlot
    | @waitThrows c left _ _ _ _ _ e hControl hFresh hError =>
      refine ((armWait_thrown (by simp [hError])).lost hSlot).imp_right (fun hMem => ?_)
      rw [completions_append]
      exact List.mem_append_left _ hMem
  | _ => exact (ebbs_of_step h nofun).lost hSlot

/-- Timers are set with new tokens only. -/
theorem timer_of_step (h : Step wrap w label w' events) {timer : TimerEntry}
    (hTimer : timer ∈ w'.timers) :
    timer ∈ w.timers ∨ timer.token = wrap w.nextToken ∧ w.nextToken < w'.nextToken := by
  cases label with
  | wait other direction timeout address faults =>
    cases h with
    | @wait c left _ _ _ _ _ hControl hFresh hOk =>
      obtain ⟨-, -, hTimers, -⟩ := armWait_returned hOk
      have hMem : timer ∈ (w.armWait wrap faults address other direction timeout (some c)
          (some c)).state.timers :=
        hTimer
      rw [hTimers, List.mem_append] at hMem
      refine hMem.imp_right (fun hNew => ?_)
      split_ifs at hNew
      · rw [List.mem_singleton.mp hNew]
        exact ⟨rfl, armWait_nextToken_lt hOk⟩
      · cases hNew
    | waitThrows hControl hFresh hError =>
      have hDrops := armWait_thrown (ne_of_eq_of_ne hError (Option.some_ne_none _))
      exact .inl (hDrops.timers ▸ hTimer)
  | _ => exact .inl ((ebbs_of_step h nofun).timers.subset hTimer)

/-- Every wait names the cell of the coroutine it will resume. -/
def World.SelfNamed (w : World) : Prop :=
  ∀ fd event waitSlot, w.slotAt fd event = some waitSlot → waitSlot.result = waitSlot.continuation

theorem selfNamed_of_reaches (h : (machine wrap).Reaches w trace) : w.SelfNamed := by
  apply h.invariant (P := fun w _ => w.SelfNamed)
  · intro fd event waitSlot hSlot
    cases hSlot
  · intro w w' trace events label _ ih hNext fd event waitSlot hSlot
    rcases slot_of_step (step_of_next hNext) hSlot with hOld | ⟨c, left, -, rfl⟩
    · exact ih _ _ _ hOld
    · rfl

/-- A coroutine has one wait at most. -/
theorem oneWait_of_slot (sched : Scheduled True w) (self : w.SelfNamed)
    (hSlot : w.slotAt fd event = some waitSlot) : w.OneWait waitSlot.result fd event := by
  obtain ⟨lost, hPlaced, -⟩ := sched.kept
  have hHandle {other : Int} {direction : Event} {s : WaitSlot}
      (hOther : w.slotAt other direction = some s) : w.slots (other, direction) =
      some s.result := by
    rw [World.slots, hOther, Option.map_some, self _ _ _ hOther]
  intro other direction s hOther hResult
  have hPlace := hPlaced.single ((hHandle hOther).trans (congrArg some hResult)) (hHandle hSlot)
  exact Prod.mk.inj hPlace

theorem noWait_of_step (sched : Scheduled True w) (h : Step wrap w label w' events)
    (hSuspended : w.IsSuspended a) (hNone : w.NoWait a) : w'.NoWait a := by
  intro fd event waitSlot hSlot
  rcases slot_of_step h hSlot with hOld | ⟨c, left, hControl, rfl⟩
  · exact hNone _ _ _ hOld
  · exact (ne_running sched hSuspended hControl).symm

/-- A wait goes on, or is completed and its coroutine finds the result. -/
theorem wait_of_step {token : Nat} (sched : Scheduled True w) (self : w.SelfNamed)
    (tokens : Tokens wrap w trace) (tokens' : Tokens wrap w' (trace ++ events))
    (h : Step wrap w label w' events) (hSuspended : w.IsSuspended a)
    (hSlot : w.slotAt fd event = some ⟨a, token, a⟩) :
    w'.slotAt fd event = some ⟨a, token, a⟩ ∨
      ∃ result, .completed token fd event result ∈ events ∧ w'.NoWait a ∧
      w'.answer a = some result := by
  have hOne := oneWait_of_slot sched self hSlot
  refine (lost_of_step h hSlot).imp_right (fun hMem => ?_)
  obtain ⟨other, direction, result, hCompleted⟩ := mem_completions.mp hMem
  obtain ⟨⟨s, hOther, hToken⟩, -, -⟩ := (attributed_of_step h).cause hCompleted
  obtain ⟨rfl, rfl⟩ := tokens.home (.inr (.inr ⟨s, hOther, hToken⟩)) (.inr (.inr ⟨_, hSlot, rfl⟩))
  refine ⟨result, hCompleted, ?_, answer_of_completed sched h hSuspended hOne hSlot rfl hCompleted⟩
  intro place direction s hNow
  rcases slot_of_step h hNow with hOld | ⟨c, left, hControl, rfl⟩
  · intro hResult
    obtain ⟨rfl, rfl⟩ := hOne _ _ _ hOld hResult
    rw [hSlot] at hOld
    cases hOld
    refine tokens'.unspent hNow ?_
    rw [completions_append]
    exact List.mem_append_right _ hMem
  · exact (ne_running sched hSuspended hControl).symm

/-- A coroutine that has the thread has no wait. -/
theorem noWait_of_runs (sched : Scheduled True w) (self : w.SelfNamed) (h : w.Runs a) :
    w.NoWait a := by
  intro fd event waitSlot hSlot hResult
  obtain ⟨left, hControl⟩ := h
  obtain ⟨frame, hFrame, hStatus⟩ := sched.running_frame hControl
  obtain ⟨lost, hPlaced, -⟩ := sched.kept
  have hHandle : w.slots (fd, event) = some a := by
    rw [World.slots, hSlot, Option.map_some, ← self _ _ _ hSlot, hResult]
  have hParked := (mem_parked (Scheduled.nodes_of_frame hFrame)).mp
      (hPlaced.mem_iff.mpr (.inr ⟨_, hHandle⟩))
  rcases hParked with hEq | ⟨hEq, -⟩
  · exact absurd (hStatus.symm.trans hEq) (by simp)
  · exact absurd (hStatus.symm.trans hEq) (by simp)

theorem within_now {o : IoOutcome} (control : Control) :
    (within o control).1.now = o.state.now := by
  unfold within
  cases o.error <;> rfl

/-- Only the clock itself moves the clock. -/
theorem now_of_step (hKeyed : w.AllKeyed) (h : Step wrap w label w' events) :
    w'.now = w.now ∨ ∃ d : Nat, w' = { w with now := w.now + d } := by
  cases h with
  | tick d => exact .inr ⟨d, rfl⟩
  | @spawn task =>
    refine .inl ?_
    rw [toUser_state]
    cases task with
    | none => rfl
    | some =>
      simp only [World.spawn]
      split_ifs <;> rfl
  | cancel =>
    refine .inl ?_
    rw [toUser_state]
    exact (elsewhere_cancel (hKeyed _)).now
  | @yield c left push | @yieldThrows c left push =>
    exact .inl (elsewhere_schedule push w c : Elsewhere 0 Set.univ _ _).now
  | wait | waitThrows => exact .inl (elsewhere_armWait (hKeyed _) (Set.mem_univ _) ..).now
  | finish =>
    refine .inl ?_
    unfold finalSuspend
    split_ifs
    · rfl
    · split <;> rfl
  | @expire now second pick =>
    have hKeyed' : World.AllKeyed { w with timers := w.timers.eraseIdx pick } := hKeyed
    exact .inl ((within_now _).trans (elsewhere_expireTimer (hKeyed' _)).now)
  | ready => exact .inl ((within_now _).trans (elsewhere_onReady (hKeyed _)).now)
  | _ => exact .inl rfl

theorem now_le_of_step (hKeyed : w.AllKeyed) (h : Step wrap w label w' events) :
    w.now ≤ w'.now := by
  rcases now_of_step hKeyed h with hEq | ⟨d, rfl⟩
  · exact hEq.ge
  · exact Int.le_add_of_nonneg_right (Int.natCast_nonneg d)

/-- `expire_timers` judges all timers by the reading it starts with. -/
theorem reading_of_step (hKeyed : w.AllKeyed) (h : Step wrap w label w' events) {now : Int}
    {second : Bool} (hControl : w'.control = .expire now second) :
    w.control = .expire now second ∨ now = w'.now := by
  have hWithin {o : IoOutcome} {control : Control} (hNow : (within o control).1.control = .expire
      now second) : control = .expire now second := by
    rcases within_control o control with hEq | hEq
    · exact hEq ▸ hNow
    · rw [hEq] at hNow
      cases hNow
  cases h with
  | @spawn task =>
    refine .inl ?_
    rw [toUser_state] at hControl
    cases task with
    | none => exact hControl
    | some =>
      simp only [World.spawn] at hControl
      split_ifs at hControl <;> exact hControl
  | cancel =>
    rw [toUser_state, (elsewhere_cancel (hKeyed _)).control] at hControl
    exact .inl hControl
  | @yieldThrows c left push =>
    exact .inl ((elsewhere_schedule push w c : Elsewhere 0 Set.univ _ _).control.symm.trans
      hControl)
  | waitThrows =>
    exact .inl ((elsewhere_armWait (hKeyed _) (Set.mem_univ _) ..).control.symm.trans hControl)
  | finish =>
    revert hControl
    unfold finalSuspend
    split_ifs
    · simp
    · split <;> simp
  | batchDone | dispatched =>
    cases hControl
    exact .inr rfl
  | expired =>
    dsimp only at hControl
    split_ifs at hControl
  | expire hOld =>
    cases hWithin hControl
    exact .inl hOld
  | unselected hAt =>
    cases hAt with
    | read | write => cases hControl
  | ready hAt =>
    cases hWithin hControl
    cases hAt
  | change | close | tick | create | drop | stop | rerun | awaitEmpty => exact .inl hControl
  | _ => cases hControl

theorem reading_of_reaches (h : (machine wrap).Reaches w trace) :
    ∀ now second, w.control = .expire now second → now ≤ w.now := by
  apply h.invariant (P := fun w _ => ∀ now second, w.control = .expire now second → now ≤ w.now)
  · exact nofun
  · intro w w' trace events label hReaches ih hNext now second hControl
    have hStep := step_of_next hNext
    have hKeyed := allKeyed_of_reaches hReaches
    rcases reading_of_step hKeyed hStep hControl with hOld | hEq
    · exact (ih now second hOld).trans (now_le_of_step hKeyed hStep)
    · exact hEq.le

theorem timer_issued_of_reaches (h : (machine wrap).Reaches w trace) :
    ∀ timer ∈ w.timers, ∃ i < w.nextToken, timer.token = wrap i := by
  apply h.invariant (P := fun w _ => ∀ timer ∈ w.timers, ∃ i < w.nextToken, timer.token = wrap i)
  · exact nofun
  · intro w w' trace events label _ ih hNext timer hTimer
    have hStep := step_of_next hNext
    rcases timer_of_step hStep hTimer with hOld | ⟨hToken, hLt⟩
    · obtain ⟨i, hLt, hToken⟩ := ih timer hOld
      exact ⟨i, hLt.trans_le (nextToken_le_of_step hStep), hToken⟩
    · exact ⟨w.nextToken, hLt, hToken⟩

/-- What becomes of a wait in one step: it goes on with the timers it has, or it is
completed, and with `false` only by `cancel` or by a timer that is due. -/
theorem fate_of_next {token : Nat} (hReaches : (machine wrap).Reaches w trace)
    (hNext : w.next wrap label = some (w', events))
    (hWrap : Set.InjOn wrap.token (Set.Iio w'.nextToken)) (hSuspended : w.IsSuspended a)
    (hSlot : w.slotAt fd event = some ⟨a, token, a⟩) :
    (w'.IsSuspended a ∧ w'.slotAt fd event = some ⟨a, token, a⟩ ∧
        ∀ timer ∈ w'.timers, timer.token = token → timer ∈ w.timers) ∨
      ∃ result, (w'.IsSuspended a ∨ w'.Runs a) ∧ w'.NoWait a ∧ w'.answer a = some result ∧
        (result = false → (∃ faults, label = .cancel fd faults) ∨
          ∃ timer ∈ w.timers, timer.token = token ∧ timer.deadline ≤ w'.now) := by
  have hStep := step_of_next hNext
  have hReaches' := hReaches.step (a := label) hNext
  have hBefore := hWrap.mono (Set.Iio_subset_Iio (nextToken_le_of_step hStep))
  have sched := (scheduled_of_reaches hReaches).mono (fun _ => trivial)
  have sched' := (scheduled_of_reaches hReaches').mono (fun _ => trivial)
  have hKeyed := allKeyed_of_reaches hReaches
  have tokens := tokens_of_reaches hReaches hBefore
  have hHeld := suspended_of_step sched hKeyed hStep hSuspended
  rcases wait_of_step sched (selfNamed_of_reaches hReaches) tokens
    (tokens_of_reaches hReaches' hWrap) hStep hSuspended hSlot with hKept | ⟨result, hMem, hNone,
    hAnswer⟩
  · refine .inl ⟨?_, hKept, ?_⟩
    · rcases hHeld with hStill | hRuns
      · exact hStill
      · exact absurd rfl (noWait_of_runs sched' (selfNamed_of_reaches hReaches') hRuns _ _ _ hKept)
    · intro timer hTimer hToken
      rcases timer_of_step hStep hTimer with hOld | ⟨hNew, hLt⟩
      · exact hOld
      · obtain ⟨i, hIssued, hEq⟩ := tokens.issued (.inr (.inr ⟨_, hSlot, rfl⟩))
        have hSame : i = w.nextToken :=
          hWrap (Set.mem_Iio.mpr (hIssued.trans hLt)) (Set.mem_Iio.mpr hLt)
          (hEq.symm.trans (hToken.symm.trans hNew))
        omega
  · refine .inr ⟨result, hHeld, hNone, hAnswer, ?_⟩
    rintro rfl
    refine (cause_of_false hStep hMem).imp_right ?_
    rintro ⟨timer, hTimer, hToken, now, second, hControl, hDue⟩
    have hNow := (reading_of_reaches hReaches now second hControl).trans
        (now_le_of_step hKeyed hStep)
    exact ⟨timer, hTimer, hToken, hDue.trans hNow⟩

/-- The answer of a coroutine without a wait stays until it is resumed. -/
theorem answer_of_next (hReaches : (machine wrap).Reaches w trace)
    (hNext : w.next wrap label = some (w', events)) (hSuspended : w.IsSuspended a)
    (hNone : w.NoWait a) :
    (w'.IsSuspended a ∨ w'.Runs a) ∧ w'.NoWait a ∧ w'.answer a = w.answer a := by
  have hStep := step_of_next hNext
  have sched := (scheduled_of_reaches hReaches).mono (fun _ => trivial)
  exact ⟨suspended_of_step sched (allKeyed_of_reaches hReaches) hStep hSuspended,
    noWait_of_step sched hStep hSuspended hNone, answer_kept_of_step sched hStep hSuspended hNone⟩

/-- A wait that is armed is there, and only its own timer bears its token. -/
theorem armed_of_next {left address : Nat} {timeout : Int} {faults : Faults}
    (hReaches : (machine wrap).Reaches w trace)
    (hNext : w.next wrap (.wait fd event timeout address faults) = some (w', events))
    (hWrap : Set.InjOn wrap.token (Set.Iio w'.nextToken)) (hControl : w.control = .running a left)
    (hOk : (w.armWait wrap faults address fd event timeout (some a) (some a)).error = none) :
    w'.IsSuspended a ∧ w'.slotAt fd event = some ⟨a, wrap w.nextToken, a⟩ ∧
      ∀ timer ∈ w'.timers, timer.token = wrap w.nextToken →
        0 ≤ timeout ∧ timer.deadline = w.deadlineOf wrap timeout := by
  have sched := (scheduled_of_reaches hReaches).mono (fun _ => trivial)
  cases step_of_next hNext with
  | @wait c left' _ _ _ _ _ hRunning =>
    cases hControl.symm.trans hRunning
    obtain ⟨-, hSlots, hTimers, -⟩ := armWait_returned hOk
    refine ⟨?_, (hSlots fd event).trans (if_pos ⟨rfl, rfl⟩), ?_⟩
    · obtain ⟨frame, hFrame, -⟩ := sched.running_frame hControl
      have hCore : ((w.armWait wrap faults address fd event timeout (some a) (some a)).state.frames
          a).map Frame.core = (w.frames a).map Frame.core :=
        (elsewhere_armWait (allKeyed_of_reaches hReaches fd) (Set.mem_univ address) ..).frames a
      rw [hFrame, Option.map_some, Option.map_eq_some_iff] at hCore
      obtain ⟨frame', hFrame', -⟩ := hCore
      refine ⟨{ frame' with status := .suspended }, ?_, rfl⟩
      exact (Function.update_self ..).trans (congrArg _ hFrame')
    · intro timer hTimer hToken
      have hMem : timer ∈ (w.armWait wrap faults address fd event timeout (some a)
          (some a)).state.timers := hTimer
      rw [hTimers, List.mem_append] at hMem
      rcases hMem with hOld | hNew
      · obtain ⟨i, hLt, hEq⟩ := timer_issued_of_reaches hReaches timer hOld
        have hNextLt := armWait_nextToken_lt hOk
        have hSame : i = w.nextToken :=
          hWrap (Set.mem_Iio.mpr (hLt.trans hNextLt)) (Set.mem_Iio.mpr hNextLt)
          (hEq.symm.trans hToken)
        omega
      · split_ifs at hNew with hTimeout
        · rw [List.mem_singleton.mp hNew]
          exact ⟨hTimeout, rfl⟩
        · cases hNew
  | @waitThrows c left' _ _ _ _ _ e hRunning hFresh hError =>
    cases hControl.symm.trans hRunning
    rw [hOk] at hError
    cases hError

theorem cancel_of_next {faults : Faults}
    (hNext : w.next wrap (.cancel fd faults) = some (w', events)) :
    w' = (w.cancel faults fd).state := by
  cases step_of_next hNext with
  | cancel => exact toUser_state

end Waits

/-- A `cancel` that returns has ended every wait of the descriptor. -/
theorem cancel_slotAt_of_returned {w : World} {fd : Int} {event : Event} {faults : Faults}
    (hOk : (w.cancel faults fd).error = none) :
    (w.cancel faults fd).state.slotAt fd event = none := by
  cases hLookup : w.fdStates.lookup fd with
  | none =>
    rw [cancel_of_none faults hLookup]
    exact slotAt_of_lookup_none hLookup
  | some =>
    rw [cancel_of_lookup faults hLookup] at hOk ⊢
    obtain ⟨-, -, hState⟩ := Outcome.andThen_returned hOk
    rw [hState]
    exact slotAt_of_lookup_none (Finmap.lookup_erase fd _)

end Tinycoro.Io
