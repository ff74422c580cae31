import Tinycoro.Io.Run
import Mathlib.Data.Finset.Max

/-! Everything the executor can do next, with what each branch has tested. Every
invariant is proved by cases on this relation. -/
namespace Tinycoro.Io

open Effect Transition World Tombstones

/-- User code runs: outside `run`, in a coroutine, or in the destructors of a frame. -/
def World.UserCode (w : World) : Prop :=
  w.control = .idle ∨ (∃ h left, w.control = .running h left) ∨
  ∃ firstError left, w.control = .drain firstError left

/-- Inside `dispatch_events`, before the callback for `event` on the channel of `fd`. Behind it
the thread is at `after`. -/
inductive World.Dispatches (w : World) (fd : Int) (flags : EpollEvents) (channel : Nat) :
    Event → Control → Prop where
  | read {rest : List (Int × EpollEvents)} (hControl : w.control = .dispatch ((fd, flags) :: rest))
      (hChannel : w.loop.channels fd = some channel) :
      Dispatches w fd flags channel .read (.dispatchWrite fd flags channel rest)
  | write {rest : List (Int × EpollEvents)}
      (hControl : w.control = .dispatchWrite fd flags channel rest) :
      Dispatches w fd flags channel .write (.dispatch rest)

/-- What `next_poll_timeout` may leave of the timers: it pops only timers of waits that are
over. -/
structure World.Pruned (w : World) (timers : List TimerEntry) : Prop where
  sublist : timers.Sublist w.timers
  filter : ∀ {p : TimerEntry → Bool}, (∀ timer ∈ w.timers, w.timerActive timer = false →
    p timer = false) → timers.filter p = w.timers.filter p

theorem World.Pruned.refl (w : World) : w.Pruned w.timers := ⟨.refl _, fun _ => rfl⟩

theorem World.pruned_nextPollTimeout (w : World) (now : Int) (pick : Pick) :
    w.Pruned (w.nextPollTimeout now pick).1.timers :=
  ⟨sublist_prune .., filter_prune⟩

inductive Step (wrap : Wrap) (w : World) : Label → World → List Obs → Prop where
  | change (fd : Int) (holding : EpollEvents) (wake : Bool) :
      Step wrap w (.change fd holding wake)
        { w with loop := { w.loop with kernel := w.loop.kernel.change fd holding wake } } []
  | close (fd : Int) :
      Step wrap w (.close fd) { w with loop := { w.loop with kernel := w.loop.kernel.close fd } }
        (if (w.loop.channels fd).isSome then [.fault .close] else [])
  | tick (d : Nat) : Step wrap w (.tick d) { w with now := w.now + d } []
  | create {h : Nat} (hUser : w.UserCode) (hNew : w.frames h = none) :
      Step wrap w (.create h) { w with frames := Function.update w.frames h (some .create) }
      [.created h]
  | drop {h : Nat} (hUser : w.UserCode) (hFree : w.isFreeTask h = true) :
      Step wrap w (.drop h) (w.destroyFrame h) []
  | spawn {task : Option Nat} {fails : Bool} (hUser : w.UserCode)
      (hFree : task.all w.isFreeTask = true) :
      Step wrap w (.spawn task fails) (toUser (w.spawn fails task)).1
        (toUser (w.spawn fails task)).2
  | cancel {fd : Int} {faults : Faults} (hUser : w.UserCode) :
      Step wrap w (.cancel fd faults)
        (toUser (w.cancel faults fd)).1 (.cancelled fd :: (toUser (w.cancel faults fd)).2)
  | stop (hUser : w.UserCode) : Step wrap w .stop { w with stopRequested := true } []
  | run (hUser : w.UserCode) (hRunning : w.running = false) :
      Step wrap w .run { w with running := true, stopRequested := false, control := .turn } []
  | rerun (hUser : w.UserCode) (hRunning : w.running = true) :
      Step wrap w .run w [.threw (.logicError "IoContext::run is not reentrant")]
  | awaitEmpty {h left : Nat} (hControl : w.control = .running h left) :
      Step wrap w (.await none) w [.threw (.logicError "cannot await an empty Task")]
  | await {h left child : Nat} (hControl : w.control = .running h left)
      (hFree : w.isFreeTask child = true) :
      Step wrap w (.await (some child)) { (w.setStatus h (.awaiting child)).setFrame child
          (fun frame => { frame with status := .running, continuation := some h }) with
        control := .running child left } [.suspended h, .resumed child]
  | yield {h left : Nat} {push : Bool} (hControl : w.control = .running h left)
      (hOk : (w.schedule push h).error = none) :
      Step wrap w (.yield push)
        { (w.schedule push h).state.setStatus h .suspended with control := .drain none left }
        ((w.schedule push h).events ++ [.suspended h])
  | yieldThrows {h left : Nat} {push : Bool} {e : Exception}
      (hControl : w.control = .running h left) (hError : (w.schedule push h).error = some e) :
      Step wrap w (.yield push) (w.schedule push h).state ((w.schedule push h).events ++ [.threw e])
  | wait {h left address : Nat} {fd timeout : Int} {event : Event} {faults : Faults}
      (hControl : w.control = .running h left) (hFresh : w.freshAddress address = true)
      (hOk : (w.armWait wrap faults address fd event timeout (some h) (some h)).error = none) :
      Step wrap w (.wait fd event timeout address faults)
        { (w.armWait wrap faults address fd event timeout (some h)
          (some h)).state.setStatus h .suspended with control := .drain none left }
        ((w.armWait wrap faults address fd event timeout (some h) (some h)).events ++
          [.suspended h])
  | waitThrows {h left address : Nat} {fd timeout : Int} {event : Event} {faults : Faults}
      {e : Exception} (hControl : w.control = .running h left)
      (hFresh : w.freshAddress address = true)
      (hError : (w.armWait wrap faults address fd event timeout (some h) (some h)).error = some e) :
      Step wrap w (.wait fd event timeout address faults)
        (w.armWait wrap faults address fd event timeout (some h) (some h)).state
        ((w.armWait wrap faults address fd event timeout (some h) (some h)).events ++ [.threw e])
  | finish {h left : Nat} {exception : Option Nat} {frame : Frame}
      (hControl : w.control = .running h left) (hFrame : w.frames h = some frame) :
      Step wrap w (.finish exception)
        ({ w with frames := Function.update w.frames h (some
          { frame with status := .done, exception }) }.finalSuspend h left
          { frame with status := .done, exception }).1
        ({ w with frames := Function.update w.frames h (some
          { frame with status := .done, exception }) }.finalSuspend h left
          { frame with status := .done, exception }).2
  | turn (hControl : w.control = .turn) (hStop : w.stopRequested = false) (hRoots : w.roots ≠ ∅)
      {pick : Pick} {batch : Option (List Int)} {faults : Faults} :
      Step wrap w (.advance pick batch faults) { w with control := .runReady w.ready.length } []
  | returned (hControl : w.control = .turn ∨ w.control = .poll)
      (hStop : w.stopRequested = true ∨ w.roots = ∅)
      {pick : Pick} {batch : Option (List Int)} {faults : Faults} :
      Step wrap w (.advance pick batch faults) w.returnRun.1 w.returnRun.2
  | batchDone {left : Nat} (hControl : w.control = .runReady left)
      (hEnd : left = 0 ∨ w.stopRequested = true)
      {pick : Pick} {batch : Option (List Int)} {faults : Faults} :
      Step wrap w (.advance pick batch faults) { w with control := .expire w.now false } []
  | skipDone {h left : Nat} {rest : List Nat} (hControl : w.control = .runReady (left + 1))
      (hReady : w.ready = h :: rest) (hDone : w.isDone h = true) {pick : Pick}
      {batch : Option (List Int)} {faults : Faults} :
      Step wrap w (.advance pick batch faults) { w with ready := rest, control := .runReady left }
        []
  | resume {h left : Nat} {rest : List Nat} (hControl : w.control = .runReady (left + 1))
      (hReady : w.ready = h :: rest) (hDone : w.isDone h = false) {pick : Pick}
      {batch : Option (List Int)} {faults : Faults} :
      Step wrap w (.advance pick batch faults)
        { { w with ready := rest }.setStatus h .running with control := .running h left }
        [.resumed h]
  | drained {left : Nat} (hControl : w.control = .drain none left) (hHead : w.completedHead = none)
      {pick : Pick} {batch : Option (List Int)} {faults : Faults} :
      Step wrap w (.advance pick batch faults) { w with control := .runReady left } []
  | drainThrows {e left : Nat} (hControl : w.control = .drain (some e) left)
      (hHead : w.completedHead = none) {pick : Pick} {batch : Option (List Int)} {faults : Faults} :
      Step wrap w (.advance pick batch faults) (w.throwRun (.task e)).1 (w.throwRun (.task e)).2
  | destroyRoot {root left : Nat} {firstError : Option Nat} {frame : Frame}
      (hControl : w.control = .drain firstError left) (hHead : w.completedHead = some root)
      (hFrame : w.frames root = some frame)
      {pick : Pick} {batch : Option (List Int)} {faults : Faults} :
      Step wrap w (.advance pick batch faults) { w with
        completedHead := frame.completedNext
        roots := w.roots.erase root
        frames := Function.update w.frames root none
        control := .drain (firstError.or frame.exception) left } []
  | expired {now : Int} {second : Bool} (hControl : w.control = .expire now second)
      (hDue : ∀ timer ∈ w.timers, now < timer.deadline) {pick : Pick} {batch : Option (List Int)}
      {faults : Faults} :
      Step wrap w (.advance pick batch faults) { w with control := if second then .turn else .poll }
        []
  | expire {now : Int} {second : Bool} {i : Nat} {timer : TimerEntry} {faults : Faults}
      (hControl : w.control = .expire now second) (hPick : w.timers[i]? = some timer)
      (hDue : timer.deadline ≤ now) {pick : Pick} {batch : Option (List Int)} :
      Step wrap w (.advance pick batch faults)
        (within (expireTimer faults { w with timers := w.timers.eraseIdx i } timer)
        (.expire now second)).1
        (.timerPopped timer now ::
          (within (expireTimer faults { w with timers := w.timers.eraseIdx i } timer)
          (.expire now second)).2)
  | noWakeSource {timers : List TimerEntry} (hControl : w.control = .poll) (hRoots : w.roots ≠ ∅)
      (hReady : w.ready = []) (hTimers : w.Pruned timers) (hWaiter : w.hasRegisteredWaiter = false)
      {pick : Pick} {batch : Option (List Int)} {faults : Faults} :
      Step wrap w (.advance pick batch faults)
        ({ w with timers }.throwRun
        (.logicError "IoContext Task has no readiness or timer wake source")).1
        ({ w with timers }.throwRun
          (.logicError "IoContext Task has no readiness or timer wake source")).2
  | pollFails {timers : List TimerEntry} (hControl : w.control = .poll) (hTimers : w.Pruned timers)
      {pick : Pick} {batch : Option (List Int)} {faults : Faults} :
      Step wrap w (.advance pick batch faults)
        ({ w with timers }.throwRun (.systemError "epoll_wait")).1
        ({ w with timers }.throwRun (.systemError "epoll_wait")).2
  | epollWait {timers : List TimerEntry} {timeout : Int} {batch : List Int} {kernel : Kernel}
      {events : List (Int × EpollEvents)} (hControl : w.control = .poll) (hTimers : w.Pruned timers)
      (hWait : w.loop.kernel.epollWait timeout EventLoop.kMaxEvents batch = some (kernel, events))
      {pick : Pick} {faults : Faults} :
      Step wrap w (.advance pick (some batch) faults)
        { w with timers, loop := { w.loop with kernel }, control := .dispatch events } []
  | dispatched (hControl : w.control = .dispatch [])
      {pick : Pick} {batch : Option (List Int)} {faults : Faults} :
      Step wrap w (.advance pick batch faults) { w with control := .expire w.now true } []
  | unwatched {fd : Int} {flags : EpollEvents} {rest : List (Int × EpollEvents)}
      (hControl : w.control = .dispatch ((fd, flags) :: rest))
      (hChannel : w.loop.channels fd = none) {pick : Pick} {batch : Option (List Int)}
      {faults : Faults} :
      Step wrap w (.advance pick batch faults) { w with control := .dispatch rest } []
  | unselected {fd : Int} {flags : EpollEvents} {channel : Nat} {event : Event} {after : Control}
      (hAt : w.Dispatches fd flags channel event after)
      (hNot : ¬(w.loop.channels fd = some channel ∧ EventLoop.selects flags event = true))
      {pick : Pick} {batch : Option (List Int)} {faults : Faults} :
      Step wrap w (.advance pick batch faults) { w with control := after } []
  | ready {fd : Int} {flags : EpollEvents} {channel : Nat} {event : Event} {after : Control}
      {faults : Faults} (hAt : w.Dispatches fd flags channel event after)
      (hChannel : w.loop.channels fd = some channel)
      (hSelects : EventLoop.selects flags event = true) {pick : Pick} {batch : Option (List Int)} :
      Step wrap w (.advance pick batch faults) (within (w.onReady faults fd event) after).1
        (.onReady fd event :: (within (w.onReady faults fd event) after).2)

section Inversion

variable {wrap : Wrap} {w w' : World} {events : List Obs} {label : Label}

theorem Step.of_some {r : World × List Obs} (h : some r = some (w', events))
    (hStep : Step wrap w label r.1 r.2) : Step wrap w label w' events := by
  cases Option.some.inj h
  exact hStep

theorem step_of_outsideStep (h : w.outsideStep label = some (w', events)) :
    Step wrap w label w' events := by
  cases label with
  | change => exact .of_some h (.change ..)
  | close => exact .of_some h (.close ..)
  | tick => exact .of_some h (.tick ..)
  | _ => cases h

/-- The calls of user code outside a coroutine. -/
theorem step_of_userStep (hUser : w.UserCode) (h : w.userStep label = some (w', events)) :
    Step wrap w label w' events := by
  cases label with
  | create =>
    simp only [userStep] at h
    split_ifs at h with hNew
    exact .of_some h (.create hUser hNew)
  | drop =>
    simp only [userStep] at h
    split_ifs at h with hFree
    exact .of_some h (.drop hUser hFree)
  | spawn =>
    simp only [userStep] at h
    split_ifs at h with hFree
    exact .of_some h (.spawn hUser hFree)
  | cancel => exact .of_some h (.cancel hUser)
  | stop => exact .of_some h (.stop hUser)
  | run =>
    simp only [userStep] at h
    split_ifs at h with hRunning
    · exact .of_some h (.rerun hUser hRunning)
    · exact .of_some h (.run hUser (by simpa using hRunning))
  | _ => cases h

variable {left : Nat} {pick : Pick} {batch : Option (List Int)} {faults : Faults}

/-- What the coroutine on the thread does: await, yield, wait for a descriptor, end. -/
theorem step_of_coroutineStep {a : Nat} (hControl : w.control = .running a left)
    (h : w.coroutineStep wrap a left label = some (w', events)) : Step wrap w label w' events := by
  cases label with
  | await task =>
    cases task with
    | none => exact .of_some h (.awaitEmpty hControl)
    | some =>
      simp only [coroutineStep] at h
      split_ifs at h with hFree
      exact .of_some h (.await hControl hFree)
  | yield push =>
    simp only [coroutineStep] at h
    cases hError : (w.schedule push a).error with
    | none =>
      have hYield : Step wrap w _ _ _ := .yield hControl hError
      generalize w.schedule push a = o at h hError hYield
      cases o
      cases hError
      exact .of_some h hYield
    | some =>
      have hThrows : Step wrap w _ _ _ := .yieldThrows hControl hError
      generalize w.schedule push a = o at h hError hThrows
      cases o
      cases hError
      exact .of_some h hThrows
  | wait fd event timeout address faults =>
    simp only [coroutineStep] at h
    split_ifs at h with hFresh
    cases hError : (w.armWait wrap faults address fd event timeout (some a) (some a)).error with
    | none =>
      have hWait := Step.wait hControl hFresh hError
      generalize w.armWait wrap faults address fd event timeout (some a) (some a) = o
        at h hError hWait
      cases o
      cases hError
      exact .of_some h hWait
    | some =>
      have hThrows := Step.waitThrows hControl hFresh hError
      generalize w.armWait wrap faults address fd event timeout (some a) (some a) = o
        at h hError hThrows
      cases o
      cases hError
      exact .of_some h hThrows
  | finish =>
    simp only [coroutineStep, Option.bind_eq_bind, Option.bind_eq_some_iff] at h
    obtain ⟨frame, hFrame, hEq⟩ := h
    exact .of_some hEq (.finish hControl hFrame)
  | _ => cases h

/-- The heap has one of the earliest entries on top, if there are any. -/
theorem picks_topIndex (pick : Pick) : Picks TimerEntry.deadline (topIndex pick) := by
  intro timers hNonempty
  have hPicked : (timers[topIndex pick timers]?).any (isEarliest timers) = true := by
    unfold topIndex
    split_ifs with hPick
    · exact hPick
    · obtain ⟨first, hFirst⟩ := List.exists_mem_of_ne_nil timers hNonempty
      obtain ⟨timer, hTimer, hLeast⟩ :=
        timers.toFinset.exists_min_image TimerEntry.deadline ⟨first, List.mem_toFinset.mpr hFirst⟩
      have hEarliest : isEarliest timers timer = true :=
        List.all_eq_true.mpr fun other hOther => decide_eq_true
        (hLeast other (List.mem_toFinset.mpr hOther))
      have hLt : timers.findIdx (isEarliest timers) < timers.length :=
        List.findIdx_lt_length_of_exists ⟨timer, List.mem_toFinset.mp hTimer, hEarliest⟩
      rw [List.getElem?_eq_getElem hLt, Option.any_some]
      exact List.findIdx_getElem
  cases hTop : timers[topIndex pick timers]? with
  | none =>
    rw [hTop] at hPicked
    cases hPicked
  | some timer =>
    rw [hTop] at hPicked
    exact ⟨timer, hTop, by simpa [isEarliest] using hPicked⟩

theorem step_of_pollLoop {timers : List TimerEntry} {timeout : Int} (hControl : w.control = .poll)
    (hRoots : w.roots ≠ ∅) (hTimers : w.Pruned timers)
    (h : World.pollLoop { w with timers } timeout batch = some (w', events)) :
    Step wrap w (.advance pick batch faults) w' events := by
  unfold pollLoop at h
  split_ifs at h with hNone
  · exact .of_some h (.noWakeSource hControl hRoots hNone.1 hTimers hNone.2.2)
  · cases batch with
    | none => exact .of_some h (.pollFails hControl hTimers)
    | some =>
      simp only [Option.bind_eq_bind, Option.bind_eq_some_iff] at h
      obtain ⟨⟨kernel, reports⟩, hWait, hEq⟩ := h
      exact .of_some hEq (.epollWait hControl hTimers hWait)

theorem step_of_poll (hControl : w.control = .poll) (h : w.poll pick batch = some (w', events)) :
    Step wrap w (.advance pick batch faults) w' events := by
  unfold poll at h
  split_ifs at h with hStop hReady
  · exact .of_some h (.returned (.inr hControl) hStop)
  · exact step_of_pollLoop hControl (fun hEmpty => hStop (.inr hEmpty)) (.refl w) h
  · exact step_of_pollLoop hControl (fun hEmpty => hStop (.inr hEmpty))
      (w.pruned_nextPollTimeout w.now pick) h

/-- One turn of the loop of `expire_timers`. -/
theorem step_of_expireTimers {now : Int} {second : Bool} (hControl : w.control = .expire now second)
    (h : some (w.expireTimers faults now second pick) = some (w', events)) :
    Step wrap w (.advance pick batch faults) w' events := by
  refine .of_some h ?_
  unfold expireTimers
  cases hTop : w.timers[topIndex pick w.timers]? with
  | none =>
    refine .expired hControl fun timer hTimer => ?_
    obtain ⟨top, hSome, -⟩ := picks_topIndex pick w.timers (List.ne_nil_of_mem hTimer)
    cases hTop.symm.trans hSome
  | some timer =>
    dsimp only
    by_cases hDue : timer.deadline ≤ now
    · rw [if_pos hDue]
      exact .expire hControl hTop hDue
    · rw [if_neg hDue]
      refine .expired hControl fun other hOther => ?_
      obtain ⟨top, hSame, hLeast⟩ := picks_topIndex pick w.timers (List.ne_nil_of_mem hOther)
      cases hTop.symm.trans hSame
      have hLe := hLeast other hOther
      omega

theorem step_of_runReady (hControl : w.control = .runReady left)
    (h : w.runReady left = some (w', events)) :
    Step wrap w (.advance pick batch faults) w' events := by
  cases left with
  | zero => exact .of_some h (.batchDone hControl (.inl rfl))
  | succ =>
    simp only [runReady] at h
    split_ifs at h with hStop
    · exact .of_some h (.batchDone hControl (.inr hStop))
    · cases hReady : w.ready with
      | nil => simp [hReady] at h
      | cons =>
        simp only [hReady] at h
        split_ifs at h with hDone
        · exact .of_some h (.skipDone hControl hReady hDone)
        · exact .of_some h (.resume hControl hReady (Bool.eq_false_of_not_eq_true hDone))

theorem step_of_drainCompleted {firstError : Option Nat}
    (hControl : w.control = .drain firstError left)
    (h : w.drainCompleted firstError left = some (w', events)) :
    Step wrap w (.advance pick batch faults) w' events := by
  unfold drainCompleted at h
  split at h
  · rename_i hHead
    cases firstError with
    | none => exact .of_some h (.drained hControl hHead)
    | some => exact .of_some h (.drainThrows hControl hHead)
  · rename_i root hHead
    simp only [Option.bind_eq_bind, Option.bind_eq_some_iff] at h
    obtain ⟨frame, hFrame, hEq⟩ := h
    exact .of_some hEq (.destroyRoot hControl hHead hFrame)

theorem step_of_dispatchRead {fd : Int} {flags : EpollEvents} {rest : List (Int × EpollEvents)}
    (hControl : w.control = .dispatch ((fd, flags) :: rest)) :
    Step wrap w (.advance pick batch faults) (w.dispatchRead faults fd flags rest).1
      (w.dispatchRead faults fd flags rest).2 := by
  unfold dispatchRead
  cases hChannel : w.loop.channels fd with
  | none => exact .unwatched hControl hChannel
  | some channel =>
    have hAt : w.Dispatches fd flags channel .read _ := .read hControl hChannel
    dsimp only
    split_ifs with hRead
    · exact .ready hAt hChannel hRead
    · exact .unselected hAt (fun hBoth => hRead hBoth.2)

theorem step_of_dispatchWrite {fd : Int} {flags : EpollEvents} {channel : Nat}
    {rest : List (Int × EpollEvents)}
    (hControl : w.control = .dispatchWrite fd flags channel rest) :
    Step wrap w (.advance pick batch faults) (w.dispatchWrite faults fd flags channel rest).1
      (w.dispatchWrite faults fd flags channel rest).2 := by
  unfold dispatchWrite
  split_ifs with hWrite
  · exact .ready (.write hControl) hWrite.1 hWrite.2
  · exact .unselected (.write hControl) hWrite

/-- What the executor does by itself. -/
theorem step_of_advance (h : w.advance faults pick batch = some (w', events)) :
    Step wrap w (.advance pick batch faults) w' events := by
  unfold advance at h
  split at h
  · cases h
  · cases h
  · rename_i hControl
    split_ifs at h with hStop
    · exact .of_some h (.returned (.inl hControl) hStop)
    · simp only [not_or, Bool.not_eq_true] at hStop
      exact .of_some h (.turn hControl hStop.1 hStop.2)
  · rename_i left hControl
    exact step_of_runReady hControl h
  · rename_i firstError left hControl
    exact step_of_drainCompleted hControl h
  · rename_i now second hControl
    exact step_of_expireTimers hControl h
  · rename_i hControl
    exact step_of_poll hControl h
  · rename_i hControl
    exact .of_some h (.dispatched hControl)
  · rename_i fd flags rest hControl
    exact .of_some h (step_of_dispatchRead hControl)
  · rename_i fd flags channel rest hControl
    exact .of_some h (step_of_dispatchWrite hControl)

theorem step_of_next (h : w.next wrap label = some (w', events)) : Step wrap w label w' events := by
  unfold World.next at h
  rcases Option.or_eq_some_iff.mp h with hOutside | ⟨-, hInside⟩
  · exact step_of_outsideStep hOutside
  · clear h
    split at hInside
    · exact step_of_advance hInside
    · rename_i hControl
      exact step_of_userStep (.inl hControl) hInside
    · rename_i a left _ hControl
      rcases Option.or_eq_some_iff.mp hInside with hUser | ⟨-, hOwn⟩
      · exact step_of_userStep (.inr (.inl ⟨a, left, hControl⟩)) hUser
      · exact step_of_coroutineStep hControl hOwn
    · rename_i firstError left _ hControl
      exact step_of_userStep (.inr (.inr ⟨firstError, left, hControl⟩)) hInside
    · cases hInside

end Inversion

end Tinycoro.Io
