import Tinycoro.Pool.ThreadPool

/-! How the pool uses its queue: which thread is inside `push` or `pop`, with
which task, and that nobody else is. The queue's own invariant comes with it,
since every step of the pool is a step of the queue or leaves it alone. -/
namespace Tinycoro.ThreadPool

open Transition

variable {n : Nat} {τ κ : Type} {C : Ring.Size}

/-- The events of the queue. -/
def queueTrace (trace : List (Event n τ κ)) : List (Mpmc.Event (Thread n τ) κ Nat) :=
  trace.filterMap fun
    | .queue event => some event
    | _ => none

@[simp] theorem queueTrace_append (trace events : List (Event n τ κ)) :
    queueTrace (trace ++ events) = queueTrace trace ++ queueTrace events := List.filterMap_append ..

/-- The thread is inside `push` with this task. A push that has given its task
away is remembered by the position it claimed. -/
def PushOf (trace : List (Mpmc.Event (Thread n τ) Nat Nat)) (t : Thread n τ) (task : Nat) :
    Mpmc.Pc Nat Nat → Prop
  | .pushLoad val | .pushSequence val _ | .pushExchange val _ | .pushMove val _ => val = task
  | .pushStore pos => (Mpmc.pushes trace)[pos]? = some (t, pos, task)
  | _ => False

/-- The thread is inside `pop`. -/
def PopOf : Mpmc.Pc Nat Nat → Prop
  | .popLoad | .popSequence _ | .popExchange _ | .popMove _ | .popStore _ _ => True
  | _ => False

/-- Where a thread is, seen from the pool: outside the queue, in `push` on behalf
of `submit`, or in `pop` on behalf of `worker_loop`. A worker submits only from
inside a task. -/
inductive Mode (s : State n τ Nat C) (trace : List (Mpmc.Event (Thread n τ) Nat Nat))
    (t : Thread n τ) : Prop where
  | outside (hClient : ∀ task, s.client t ≠ .push task)
      (hWorker : ∀ i, t = .worker i → s.worker i ≠ .pop)
      (hTask : ∀ i, t = .worker i → s.client t ≠ .idle → ∃ task, s.worker i = .run task)
      (hPc : s.queue.pc t = .idle)
  | pushing {task : Nat} (hClient : s.client t = .push task)
      (hTask : ∀ i, t = .worker i → ∃ task, s.worker i = .run task)
      (hPc : PushOf trace t task (s.queue.pc t))
  | popping {i : Fin n} (hThread : t = .worker i) (hWorker : s.worker i = .pop)
      (hClient : s.client t = .idle) (hPc : PopOf (s.queue.pc t))

structure Linked (s : State n τ Nat C) (trace : List (Mpmc.Event (Thread n τ) Nat Nat)) : Prop where
  queue : Mpmc.Inv s.queue trace
  mode : ∀ t, Mode s trace t

variable {trace : List (Mpmc.Event (Thread n τ) Nat Nat)} {s s' : State n τ Nat C}
  {events : List (Event n τ Nat)}

theorem PushOf.append {t : Thread n τ} {task : Nat} {pc : Mpmc.Pc Nat Nat}
    (h : PushOf trace t task pc) (events : List (Mpmc.Event (Thread n τ) Nat Nat)) :
    PushOf (trace ++ events) t task pc := by
  cases pc <;> first | exact h | exact Mpmc.getElem?_pushes_append h events

variable [DecidableEq τ]

/-- A step inside the queue stays in its call as long as the call does not
return. -/
theorem PushOf.step {q q' : Mpmc.State (Thread n τ) Nat Nat C}
    {trace events : List (Mpmc.Event (Thread n τ) Nat Nat)} {t : Thread n τ} {task : Nat}
    (h : PushOf trace t task (q.pc t)) (inv : Mpmc.Inv q trace)
    (hStep : Mpmc.Step (.unbounded C) q t q' events) (hBusy : q'.pc t ≠ .idle) :
    PushOf (trace ++ events) t task (q'.pc t) := by
  have hKnown := inv.thread t
  cases hStep <;> simp_all [PushOf]
  -- left is the data move, whose position was claimed with this task
  exact hKnown.2

theorem PopOf.step {q q' : Mpmc.State (Thread n τ) Nat Nat C}
    {events : List (Mpmc.Event (Thread n τ) Nat Nat)} {t : Thread n τ} (h : PopOf (q.pc t))
    (hStep : Mpmc.Step (.unbounded C) q t q' events) (hBusy : q'.pc t ≠ .idle) :
    PopOf (q'.pc t) := by
  cases hStep <;> simp_all [PopOf]

/-- Everything the pool can do next, with what the branch has tested. The return
of a queue operation is told by the thread that called it. -/
inductive Step (s : State n τ Nat C) :
    Thread n τ → State n τ Nat C → List (Event n τ Nat) → Prop where
  | submitEmpty {t : Thread n τ} (hMay : mayCall s t = true) :
      Step s t { s with calls := s.calls + 1 } [.submitted t s.calls false]
  | submit {t : Thread n τ} (hMay : mayCall s t = true) :
      Step s t { s with
        calls := s.calls + 1
        client := Function.update s.client t (.lock s.calls) } []
  | lock {t : Thread n τ} {task : Nat} (hClient : s.client t = .lock task)
      (hFree : s.lifecycleMutex = none) :
      Step s t { s with
        lifecycleMutex := some t
        client := Function.update s.client t (.check task) } []
  | callPush {t : Thread n τ} {task : Nat} (hClient : s.client t = .check task)
      (hAccepting : s.accepting = true) (hPc : s.queue.pc t = .idle) :
      Step s t { s with
        queue := s.queue.goto t (.pushLoad task) s.queue.queue
        client := Function.update s.client t (.push task) } []
  | refuse {t : Thread n τ} {task : Nat} (hClient : s.client t = .check task)
      (hAccepting : s.accepting = false) :
      Step s t { s with client := Function.update s.client t (.unlock task false) } []
  | release {t : Thread n τ} {task : Nat} (hClient : s.client t = .release task) :
      Step s t { s with
        available := s.available + 1
        client := Function.update s.client t (.unlock task true) } []
  | unlock {t : Thread n τ} {task : Nat} {result : Bool}
      (hClient : s.client t = .unlock task result) :
      Step s t { s with
        lifecycleMutex := none
        client := Function.update s.client t .idle } [.submitted t task result]
  | queueSilent {t : Thread n τ} {queue : Mpmc.State (Thread n τ) Nat Nat C}
      (hStep : Mpmc.Step (.unbounded C) s.queue t queue []) (hPc : s.queue.pc t ≠ .idle)
      (hBusy : queue.pc t ≠ .idle) : Step s t { s with queue } []
  | pushClaimed {t : Thread n τ} {task pos : Nat} {queue : Mpmc.State (Thread n τ) Nat Nat C}
      (hClient : s.client t = .push task) (hPc : s.queue.pc t = .pushExchange task pos)
      (hStep : Mpmc.Step (.unbounded C) s.queue t queue [.pushClaimed t pos task]) :
      Step s t { s with queue } [.queue (.pushClaimed t pos task)]
  | pushReturned {t : Thread n τ} {task pos : Nat} {queue : Mpmc.State (Thread n τ) Nat Nat C}
      (hClient : s.client t = .push task) (hPc : s.queue.pc t = .pushStore pos)
      (hStep : Mpmc.Step (.unbounded C) s.queue t queue [.pushReturned t pos]) :
      Step s t { s with queue, client := Function.update s.client t (.release task) }
        [.queue (.pushReturned t pos)]
  | pushFull {t : Thread n τ} {task pos : Nat} {queue : Mpmc.State (Thread n τ) Nat Nat C}
      (hClient : s.client t = .push task) (hPc : s.queue.pc t = .pushSequence task pos)
      (hStep : Mpmc.Step (.unbounded C) s.queue t queue [.pushFull t]) :
      Step s t { s with queue, client := Function.update s.client t (.unlock task false) }
        [.queue (.pushFull t)]
  | popClaimed {i : Fin n} {pos : Nat} {queue : Mpmc.State (Thread n τ) Nat Nat C}
      (hWorker : s.worker i = .pop) (hPc : s.queue.pc (.worker i) = .popExchange pos)
      (hStep : Mpmc.Step (.unbounded C) s.queue (.worker i) queue [.popClaimed (.worker i) pos]) :
      Step s (.worker i) { s with queue } [.queue (.popClaimed (.worker i) pos)]
  | popReturned {i : Fin n} {pos : Nat} {task : Task} {queue : Mpmc.State (Thread n τ) Nat Nat C}
      (hWorker : s.worker i = .pop) (hPc : s.queue.pc (.worker i) = .popStore pos task)
      (hStep : Mpmc.Step (.unbounded C) s.queue (.worker i) queue
        [.popReturned (.worker i) pos task]) :
      Step s (.worker i) { s with queue, worker := Function.update s.worker i (.run task) }
        [.queue (.popReturned (.worker i) pos task), .started i task]
  | popEmpty {i : Fin n} {pos : Nat} {queue : Mpmc.State (Thread n τ) Nat Nat C}
      (hWorker : s.worker i = .pop) (hPc : s.queue.pc (.worker i) = .popSequence pos)
      (hStep : Mpmc.Step (.unbounded C) s.queue (.worker i) queue [.popEmpty (.worker i)]) :
      Step s (.worker i) { s with queue, worker := Function.update s.worker i .checkStop }
        [.queue (.popEmpty (.worker i))]
  | acquire {i : Fin n} (hWorker : s.worker i = .acquire) (hAvailable : 0 < s.available)
      (hPc : s.queue.pc (.worker i) = .idle) :
      Step s (.worker i) { s with
        queue := s.queue.goto (.worker i) .popLoad s.queue.queue
        available := s.available - 1
        worker := Function.update s.worker i .pop } []
  | handle {i : Fin n} {error : Task} (hWorker : s.worker i = .handle error) :
      Step s (.worker i) { s with
        errors := s.errors ++ [error]
        worker := Function.update s.worker i .acquire } []
  | stop {i : Fin n} (hWorker : s.worker i = .checkStop) (hStop : s.stopRequested i = true) :
      Step s (.worker i) { s with worker := Function.update s.worker i .returned } []
  | again {i : Fin n} (hWorker : s.worker i = .checkStop) (hStop : s.stopRequested i = false) :
      Step s (.worker i) { s with worker := Function.update s.worker i .acquire } []
  | throw {i : Fin n} {task : Task} (hWorker : s.worker i = .run task)
      (hClient : s.client (.worker i) = .idle) :
      Step s (.worker i) { s with worker := Function.update s.worker i (.handle task) }
        [.finished i task true]
  | complete {i : Fin n} {task : Task} (hWorker : s.worker i = .run task)
      (hClient : s.client (.worker i) = .idle) :
      Step s (.worker i) { s with worker := Function.update s.worker i .acquire }
        [.finished i task false]
  | takeErrors : Step s .closer { s with errors := [] } [.tookErrors s.errors]
  | callShutdown (hCloser : s.closer = .idle) : Step s .closer { s with closer := .lock } []
  | closerLock (hCloser : s.closer = .lock) (hFree : s.lifecycleMutex = none) :
      Step s .closer { s with lifecycleMutex := some .closer, closer := .exchange } []
  | close (hCloser : s.closer = .exchange) (hAccepting : s.accepting = true) :
      Step s .closer { s with accepting := false, closer := .requestStop 0 } []
  | closedBefore (hCloser : s.closer = .exchange) (hAccepting : s.accepting = false) :
      Step s .closer { s with closer := .unlock } []
  | requestStop {i : Nat} (hCloser : s.closer = .requestStop i) (h : i < n) :
      Step s .closer { s with
        stopRequested := Function.update s.stopRequested ⟨i, h⟩ true
        closer := .requestStop (i + 1) } []
  | stopRequested {i : Nat} (hCloser : s.closer = .requestStop i) (h : n ≤ i) :
      Step s .closer { s with closer := .release } []
  | releaseAll (hCloser : s.closer = .release) :
      Step s .closer { s with available := s.available + n, closer := .unlock } []
  | closerUnlock (hCloser : s.closer = .unlock) :
      Step s .closer { s with lifecycleMutex := none, closer := .join 0 } []
  | join {i : Nat} (hCloser : s.closer = .join i) (h : i < n)
      (hWorker : s.worker ⟨i, h⟩ = .returned) :
      Step s .closer { s with closer := .join (i + 1) } []
  | joined {i : Nat} (hCloser : s.closer = .join i) (h : n ≤ i ∨ s.cleared = true) :
      Step s .closer { s with cleared := true, closer := .idle } [.shutdownReturned]

theorem step_of_clientStep {t : Thread n τ}
    (h : clientStep (.unbounded C) s t = some (s', events)) : Step s t s' events := by
  unfold clientStep at h
  cases hClient : s.client t <;> simp only [hClient, reduceCtorEq] at h
  case lock task =>
    split_ifs at h with hFree
    cases h
    exact .lock hClient hFree
  case check task =>
    split_ifs at h with hAccepting
    · simp only [Mpmc.next] at h
      cases hPc : s.queue.pc t <;> simp only [hPc, Option.bind_eq_bind, Option.bind_some,
        Option.bind_none, Option.pure_def, reduceCtorEq, Option.some.injEq, Prod.mk.injEq] at h
      obtain ⟨rfl, rfl⟩ := h
      exact .callPush hClient hAccepting hPc
    · cases h
      exact .refuse hClient (by simpa using hAccepting)
  case release task =>
    cases h
    exact .release hClient
  case unlock task result =>
    cases h
    exact .unlock hClient

/-- A step inside the queue, by what it answers. -/
theorem step_of_queueStep (linked : Linked s trace) {t : Thread n τ} {spurious : Bool}
    (h : queueStep (.unbounded C) s t spurious = some (s', events)) : Step s t s' events := by
  simp only [queueStep, Option.bind_eq_bind, Option.bind_eq_some_iff] at h
  obtain ⟨⟨queue, emitted⟩, hNext, hReact⟩ := h
  have hInside := Mpmc.pc_ne_idle_of_next hNext
  have hStep := Mpmc.step_of_next hNext
  -- the steps that emit nothing stay inside the call; the others are told by who called
  cases linked.mode t with
  | outside _ _ _ hIdle => exact absurd hIdle hInside
  | @pushing task hClient _ hPush =>
    cases hStep
    case pushFull hPc hDiff =>
      simp only [hPc, PushOf] at hPush
      subst hPush
      simp only [react, hClient, Option.pure_def, Option.some.injEq, Prod.mk.injEq] at hReact
      obtain ⟨rfl, rfl⟩ := hReact
      exact .pushFull hClient hPc (.pushFull hPc hDiff)
    case pushClaim hPc hPos =>
      simp only [hPc, PushOf] at hPush
      subst hPush
      cases hReact
      exact .pushClaimed hClient hPc (.pushClaim hPc hPos)
    case pushStore hPc =>
      simp only [react, hClient, Option.pure_def, Option.some.injEq, Prod.mk.injEq] at hReact
      obtain ⟨rfl, rfl⟩ := hReact
      exact .pushReturned hClient hPc (.pushStore hPc)
    all_goals first
      | (cases hReact; exact .queueSilent (Mpmc.step_of_next hNext) hInside (by simp))
      | simp_all [PushOf]
  | @popping i hThread hWorker =>
    subst hThread
    cases hStep
    case popEmpty hPc hDiff =>
      simp only [react, Option.pure_def, Option.some.injEq, Prod.mk.injEq] at hReact
      obtain ⟨rfl, rfl⟩ := hReact
      exact .popEmpty hWorker hPc (.popEmpty hPc hDiff)
    case popClaim hPc hPos =>
      cases hReact
      exact .popClaimed hWorker hPc (.popClaim hPc hPos)
    case popStore hPc =>
      simp only [react, Option.pure_def, Option.some.injEq, Prod.mk.injEq] at hReact
      obtain ⟨rfl, rfl⟩ := hReact
      exact .popReturned hWorker hPc (.popStore hPc)
    all_goals first
      | (cases hReact; exact .queueSilent (Mpmc.step_of_next hNext) hInside (by simp))
      | simp_all [PopOf]

theorem step_of_workerStep {i : Fin n} (h : workerStep (.unbounded C) s i = some (s', events)) :
    Step s (.worker i) s' events := by
  unfold workerStep at h
  cases hWorker : s.worker i <;> simp only [hWorker, reduceCtorEq] at h
  case acquire =>
    split_ifs at h with hAvailable
    simp only [Mpmc.next] at h
    cases hPc : s.queue.pc (.worker i) <;> simp only [hPc, Option.bind_eq_bind, Option.bind_some,
      Option.bind_none, Option.pure_def, reduceCtorEq, Option.some.injEq, Prod.mk.injEq] at h
    obtain ⟨rfl, rfl⟩ := h
    exact .acquire hWorker hAvailable hPc
  case handle error =>
    cases h
    exact .handle hWorker
  case checkStop =>
    split_ifs at h with hStop <;> cases h
    · exact .stop hWorker hStop
    · exact .again hWorker (by simpa using hStop)

theorem step_of_finish {i : Fin n} {throws : Bool} (h : finish s i throws = some (s', events)) :
    Step s (.worker i) s' events := by
  unfold finish at h
  split at h
  · rename_i task hWorker hClient
    split_ifs at h <;> cases h
    · exact .throw hWorker hClient
    · exact .complete hWorker hClient
  · cases h

theorem step_of_closerStep (h : closerStep s = some (s', events)) : Step s .closer s' events := by
  unfold closerStep at h
  cases hCloser : s.closer <;> simp only [hCloser, reduceCtorEq] at h
  case lock =>
    split_ifs at h with hFree
    cases h
    exact .closerLock hCloser hFree
  case exchange =>
    split_ifs at h with hAccepting <;> cases h
    · exact .close hCloser hAccepting
    · exact .closedBefore hCloser (by simpa using hAccepting)
  case requestStop i =>
    split_ifs at h with hi <;> cases h
    · exact .requestStop hCloser hi
    · exact .stopRequested hCloser (Nat.le_of_not_lt hi)
  case release =>
    cases h
    exact .releaseAll hCloser
  case unlock =>
    cases h
    exact .closerUnlock hCloser
  case join i =>
    split_ifs at h with hi hWorker <;> cases h
    · exact .join hCloser hi.1 hWorker
    · refine .joined hCloser ?_
      by_cases hLt : i < n
      · right
        simpa [hLt] using hi
      · exact .inl (Nat.le_of_not_lt hLt)

theorem step_of_next (linked : Linked s trace) {label : Label n τ}
    (h : next (.unbounded C) s label = some (s', events)) : ∃ actor, Step s actor s' events := by
  cases label with
  | submit t =>
    simp only [next, submit] at h
    split_ifs at h with hMay hEmpty <;> cases h
    · exact ⟨t, .submitEmpty hMay⟩
    · exact ⟨t, .submit hMay⟩
  | client t => exact ⟨t, step_of_clientStep h⟩
  | queue t => exact ⟨t, step_of_queueStep linked h⟩
  | worker i => exact ⟨.worker i, step_of_workerStep h⟩
  | finish i => exact ⟨.worker i, step_of_finish h⟩
  | takeErrors =>
    cases h
    exact ⟨.closer, .takeErrors⟩
  | shutdown =>
    simp only [next] at h
    split_ifs at h with hCloser
    cases h
    exact ⟨.closer, .callShutdown hCloser⟩
  | closer => exact ⟨.closer, step_of_closerStep h⟩

omit [DecidableEq τ] in
theorem mayCall_iff {s : State n τ κ C} {t : Thread n τ} (h : mayCall s t = true) :
    s.client t = .idle ∧ t ≠ .closer ∧ ∀ i, t = .worker i → ∃ task, s.worker i = .run task := by
  cases t with
  | worker i =>
    cases hWorker : s.worker i <;> simp [mayCall, hWorker] at h
    exact ⟨h, by simp, fun j hj => by cases hj; exact ⟨_, hWorker⟩⟩
  | client => exact ⟨by simpa [mayCall] using h, by simp, by simp⟩
  | closer => cases h

section Preservation

variable {s s' : State n τ Nat C} {trace : List (Mpmc.Event (Thread n τ) Nat Nat)}
    {events : List (Event n τ Nat)} {t : Thread n τ}

/-- A step of one thread leaves the others where they are. -/
theorem Step.frame (h : Step s t s' events) {u : Thread n τ} (hu : u ≠ t) :
    s'.client u = s.client u ∧ s'.queue.pc u = s.queue.pc u ∧
      ∀ i, u = .worker i → s'.worker i = s.worker i := by
  have hOther : ∀ {i j : Fin n}, u = .worker i → t = .worker j → i ≠ j := by
    rintro i j rfl rfl rfl
    exact hu rfl
  cases h with
  | callPush =>
      exact ⟨Function.update_of_ne hu .., Mpmc.State.goto_pc_of_ne _ hu .., fun _ _ => rfl⟩
  | acquire =>
    exact ⟨rfl, Mpmc.State.goto_pc_of_ne _ hu .., fun _ hi => Function.update_of_ne (hOther hi rfl)
      ..⟩
  | queueSilent hStep | pushClaimed _ _ hStep | popClaimed _ _ hStep =>
    exact ⟨rfl, hStep.pc_of_ne hu, fun _ _ => rfl⟩
  | pushReturned _ _ hStep | pushFull _ _ hStep =>
    exact ⟨Function.update_of_ne hu .., hStep.pc_of_ne hu, fun _ _ => rfl⟩
  | popReturned _ _ hStep | popEmpty _ _ hStep =>
    exact ⟨rfl, hStep.pc_of_ne hu, fun _ hi => Function.update_of_ne (hOther hi rfl) ..⟩
  | submit | lock | refuse | release | unlock =>
    exact ⟨Function.update_of_ne hu .., rfl, fun _ _ => rfl⟩
  | handle | stop | again | throw | complete =>
    exact ⟨rfl, rfl, fun _ hi => Function.update_of_ne (hOther hi rfl) ..⟩
  | _ => exact ⟨rfl, rfl, fun _ _ => rfl⟩

theorem Linked.queue_step (linked : Linked s trace) (h : Step s t s' events) :
    Mpmc.Inv s'.queue (trace ++ queueTrace events) := by
  cases h with
  | callPush _ _ hPc => exact linked.queue.step (.callPush _ hPc)
  | acquire _ _ hPc => exact linked.queue.step (.callPop hPc)
  | queueSilent hStep | pushClaimed _ _ hStep | pushReturned _ _ hStep | pushFull _ _ hStep
  | popClaimed _ _ hStep | popReturned _ _ hStep | popEmpty _ _ hStep =>
      exact linked.queue.step hStep
  | _ => exact (List.append_nil trace).symm ▸ linked.queue

omit [DecidableEq τ] in
theorem Mode.frame (mode : Mode s trace t) (events : List (Mpmc.Event (Thread n τ) Nat Nat))
    (hClient : s'.client t = s.client t) (hPc : s'.queue.pc t = s.queue.pc t)
    (hWorker : ∀ i, t = .worker i → s'.worker i = s.worker i) : Mode s' (trace ++ events) t := by
  cases mode with
  | outside hPush hPop hTask hIdle =>
    refine .outside ?_ ?_ ?_ (hPc.trans hIdle)
    · rw [hClient]
      exact hPush
    · intro i hi
      rw [hWorker i hi]
      exact hPop i hi
    · intro i hi
      rw [hClient, hWorker i hi]
      exact hTask i hi
  | pushing hPush hTask hInside =>
    refine .pushing (hClient.trans hPush) ?_ ?_
    · intro i hi
      rw [hWorker i hi]
      exact hTask i hi
    · rw [hPc]
      exact hInside.append events
  | popping hi hPop hIdle hInside =>
    exact .popping hi ((hWorker _ hi).trans hPop) (hClient.trans hIdle) (hPc ▸ hInside)

/-- The mode of the thread that moves. -/
theorem Linked.mode_step (linked : Linked s trace) (h : Step s t s' events) :
    Mode s' (trace ++ queueTrace events) t := by
  have mode := linked.mode t
  cases h with
  | submit hMay =>
    obtain ⟨hIdle, -, hRun⟩ := mayCall_iff hMay
    cases mode with
    | outside hPush hPop _ hPc => exact .outside (by simp) hPop (fun i hi _ => hRun i hi) hPc
    | pushing hClient => simp [hIdle] at hClient
    | popping hi hPop =>
      obtain ⟨task, hTask⟩ := hRun _ hi
      simp [hPop] at hTask
  | lock hClient | refuse hClient | release hClient | unlock hClient =>
    cases mode with
    | outside hPush hPop hTask hPc =>
      exact .outside (by simp) hPop (fun i hi _ => hTask i hi (by simp [hClient])) hPc
    | pushing hOther | popping _ _ hOther => simp [hClient] at hOther
  | @callPush _ task hClient =>
    cases mode with
    | outside _ _ hTask =>
      exact .pushing (Function.update_self ..) (fun i hi => hTask i hi (by simp [hClient]))
        (by simp [PushOf])
    | pushing hOther | popping _ _ hOther => simp [hClient] at hOther
  | queueSilent hStep hPc hBusy =>
    cases mode with
    | outside _ _ _ hIdle => exact absurd hIdle hPc
    | pushing hClient hTask hInside =>
      exact .pushing hClient hTask (hInside.step linked.queue hStep hBusy)
    | popping hi hPop hIdle hInside => exact .popping hi hPop hIdle (hInside.step hStep hBusy)
  | pushClaimed hClient _ hStep =>
    cases mode with
    | outside hOther => exact absurd hClient (hOther _)
    | pushing hPush hTask hInside =>
      refine .pushing hPush hTask (hInside.step linked.queue hStep ?_)
      cases hStep
      simp
    | popping _ _ hOther => simp [hClient] at hOther
  | @pushReturned _ _ _ queue hClient _ hStep | @pushFull _ _ _ queue hClient _ hStep =>
    have hIdle : queue.pc t = .idle := by
      cases hStep
      exact Mpmc.State.goto_pc_self ..
    cases mode with
    | outside hOther => exact absurd hClient (hOther _)
    | pushing _ hTask =>
      refine .outside (by simp) ?_ (fun i hi _ => hTask i hi) hIdle
      intro i hi hPop
      obtain ⟨task, hRun⟩ := hTask i hi
      simp_all
    | popping _ _ hOther => simp [hClient] at hOther
  | popClaimed hWorker _ hStep =>
    cases mode with
    | outside _ hOther => exact absurd hWorker (hOther _ rfl)
    | pushing _ hTask =>
      obtain ⟨task, hRun⟩ := hTask _ rfl
      simp [hWorker] at hRun
    | popping hi hPop hIdle hInside =>
      refine .popping hi hPop hIdle (hInside.step hStep ?_)
      cases hStep
      simp
  | @popReturned i _ _ queue hWorker _ hStep | @popEmpty i _ queue hWorker _ hStep =>
    have hIdle : queue.pc (.worker i) = .idle := by
      cases hStep
      exact Mpmc.State.goto_pc_self ..
    cases mode with
    | outside _ hOther => exact absurd hWorker (hOther _ rfl)
    | pushing _ hTask =>
      obtain ⟨task, hRun⟩ := hTask _ rfl
      simp [hWorker] at hRun
    | popping _ _ hClient => exact .outside (by simp [hClient]) (by simp) (by simp [hClient]) hIdle
  | @acquire i hWorker =>
    cases mode with
    | outside _ _ hTask =>
      refine .popping rfl (by simp) ?_ (by simp [PopOf])
      by_contra hClient
      obtain ⟨task, hRun⟩ := hTask i rfl hClient
      simp [hWorker] at hRun
    | pushing _ hTask =>
      obtain ⟨task, hRun⟩ := hTask _ rfl
      simp [hWorker] at hRun
    | popping hi hPop =>
      cases hi
      simp [hWorker] at hPop
  | handle hWorker | stop hWorker | again hWorker =>
    cases mode with
    | outside hPush _ hTask hPc =>
      refine .outside hPush (by simp) ?_ hPc
      intro j hj hClient
      obtain ⟨task, hRun⟩ := hTask j hj hClient
      cases hj
      simp [hWorker] at hRun
    | pushing _ hTask =>
      obtain ⟨task, hRun⟩ := hTask _ rfl
      simp [hWorker] at hRun
    | popping hi hPop =>
      cases hi
      simp [hWorker] at hPop
  | throw hWorker hClient | complete hWorker hClient =>
    cases mode with
    | outside hPush _ _ hPc => exact .outside hPush (by simp) (by simp [hClient]) hPc
    | pushing hOther => simp [hClient] at hOther
    | popping hi hPop =>
      cases hi
      simp [hWorker] at hPop
  | _ => exact mode.frame _ rfl rfl (fun _ _ => rfl)

theorem Linked.step (linked : Linked s trace) (h : Step s t s' events) :
    Linked s' (trace ++ queueTrace events) := by
  refine ⟨linked.queue_step h, ?_⟩
  intro u
  by_cases hu : u = t
  · rw [hu]
    exact linked.mode_step h
  · obtain ⟨hClient, hPc, hWorker⟩ := h.frame hu
    exact (linked.mode u).frame _ hClient hPc hWorker

theorem linked_start : Linked (machine n τ (.unbounded C)).start [] where
  queue := Mpmc.inv_start
  mode := fun _ => .outside (fun _ => by simp [machine]) (fun _ _ => by simp [machine])
    (fun _ _ h => absurd rfl h) rfl

end Preservation

end Tinycoro.ThreadPool
