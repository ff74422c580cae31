import Tinycoro.Pool.Drain
import Mathlib.Data.Multiset.Basic

/-! Every task whose `submit` returned true runs once and has ended when
`shutdown` returns; a task that was refused never runs; and every exception is
stored and handed out once. Calls of `submit` are numbered, so the numbers pushed
into the queue are distinct; the queue delivers each position once; and when
`shutdown` has joined all workers nothing is left in the queue or in a worker's
hands. -/
namespace Tinycoro.ThreadPool

open Transition

variable {n : Nat} {τ κ : Type} {C : Ring.Size}

section Trace

/-- The tasks that workers have begun to run, in order. -/
def started (trace : List (Event n τ κ)) : List Task :=
  trace.filterMap fun
    | .started _ task => some task
    | _ => none

/-- The tasks that have returned or thrown, in order. -/
def finished (trace : List (Event n τ κ)) : List Task :=
  trace.filterMap fun
    | .finished _ task _ => some task
    | _ => none

/-- The exceptions thrown by tasks, in order. -/
def thrown (trace : List (Event n τ κ)) : List Task :=
  trace.filterMap fun
    | .finished _ task true => some task
    | _ => none

/-- The exceptions returned by all calls of `take_errors`. -/
def taken (trace : List (Event n τ κ)) : List Task :=
  trace.flatMap fun
    | .tookErrors errors => errors
    | _ => []

/-- The tasks moved into the queue. -/
def enqueued (trace : List (Event n τ κ)) : List Nat :=
  (Mpmc.pushes (queueTrace trace)).map (fun claim => claim.2.2)

@[simp] theorem started_append (trace events : List (Event n τ κ)) :
    started (trace ++ events) = started trace ++ started events := List.filterMap_append ..

@[simp] theorem finished_append (trace events : List (Event n τ κ)) :
    finished (trace ++ events) = finished trace ++ finished events := List.filterMap_append ..

@[simp] theorem thrown_append (trace events : List (Event n τ κ)) :
    thrown (trace ++ events) = thrown trace ++ thrown events := List.filterMap_append ..

@[simp] theorem taken_append (trace events : List (Event n τ κ)) :
    taken (trace ++ events) = taken trace ++ taken events := List.flatMap_append ..

@[simp] theorem enqueued_append (trace events : List (Event n τ κ)) :
    enqueued (trace ++ events) = enqueued trace ++ enqueued events := by
  rw [enqueued, queueTrace_append, Mpmc.pushes_append, List.map_append, enqueued, enqueued]

end Trace

def Client.task : Client → Option Nat
  | .idle => none
  | .lock task | .check task | .push task | .release task | .unlock task _ => some task

/-- The submission under way has given its task to the queue. -/
def gave (s : State n τ κ C) (t : Thread n τ) : Bool :=
  match s.client t with
  | .push _ => !(s.queue.pc t).outside
  | .release _ => true
  | .unlock _ result => result
  | _ => false

/-- The numbers of the calls of `submit` name their tasks. -/
structure Named (s : State n τ Nat C) (trace : List (Event n τ Nat)) : Prop where
  active : ∀ {t task}, (s.client t).task = some task →
    task < s.calls ∧ (task ∈ enqueued trace ↔ gave s t = true)
  distinct : ∀ {t u task}, (s.client t).task = some task → (s.client u).task = some task → t = u
  nodup : (enqueued trace).Nodup
  called : ∀ {task}, task ∈ enqueued trace → task < s.calls
  answered : ∀ {t task result}, .submitted t task result ∈ trace → task < s.calls ∧
    (∀ u, (s.client u).task ≠ some task) ∧ (task ∈ enqueued trace ↔ result = true)

variable [DecidableEq τ]

section Named

variable {s s' : State n τ Nat C} {trace events : List (Event n τ Nat)} {t : Thread n τ}

theorem named_start : Named (machine n τ (.unbounded C)).start [] where
  active := fun h => by simp [machine, Client.task] at h
  distinct := fun h => by simp [machine, Client.task] at h
  nodup := List.nodup_nil
  called := fun h => by simp [enqueued, queueTrace, Mpmc.pushes] at h
  answered := fun h => by simp at h

variable {task : Nat} {u : Thread n τ}

theorem Named.distinct_step (named : Named s trace) (h : Step s t s' events) {v : Thread n τ}
    (hu : (s'.client u).task = some task) (hv : (s'.client v).task = some task) : u = v := by
  have hActive := @named.active
  have hDistinct := @named.distinct u v
  cases h <;> grind -ring -linarith [Function.update_apply, Client.task]

theorem Step.gave_frame (h : Step s t s' events) (hu : u ≠ t) : gave s' u = gave s u := by
  obtain ⟨hClient, hPc, -⟩ := h.frame hu
  unfold gave
  rw [hClient, hPc]

theorem Step.calls_le (h : Step s t s' events) : s.calls ≤ s'.calls := by
  cases h <;> first | exact Nat.le_refl _ | exact Nat.le_succ _

/-- What a step does to the submission of its own thread: it begins or ends it,
gives the task to the queue, or neither. -/
theorem Linked.own_task (linked : Linked s (queueTrace trace)) (h : Step s t s' events) :
    (s'.client t = .lock s.calls ∧ s'.calls = s.calls + 1 ∧ enqueued events = []) ∨
    (s'.client t = .idle ∧ enqueued events = []) ∨
    (∃ task, s.client t = .push task ∧ s'.client t = .push task ∧ gave s t = false ∧
      gave s' t = true ∧ enqueued events = [task]) ∨
    ((s'.client t).task = (s.client t).task ∧ gave s' t = gave s t ∧ enqueued events = []) := by
  cases h with
  | submit => exact .inl ⟨Function.update_self .., rfl, rfl⟩
  | pushClaimed hClient hPc hStep =>
    refine .inr (.inr (.inl ⟨_, hClient, hClient, ?_, ?_, rfl⟩))
    · simp [gave, hClient, hPc, Mpmc.Pc.outside]
    · cases hStep
      simp [gave, hClient, Mpmc.Pc.outside]
  | queueSilent hStep =>
    right; right; right
    simp [gave, hStep.silent.2.2.1, enqueued, queueTrace, Mpmc.pushes]
  | pushReturned hClient hPc | pushFull hClient hPc =>
    right; right; right
    simp [gave, hClient, hPc, Client.task, Mpmc.Pc.outside, enqueued, queueTrace, Mpmc.pushes]
  | unlock => simp [enqueued, queueTrace, Mpmc.pushes]
  | lock hClient | refuse hClient | release hClient | callPush hClient =>
    right; right; right
    simp [gave, hClient, Client.task, Mpmc.Pc.outside, enqueued, queueTrace, Mpmc.pushes]
  | popClaimed hWorker | popReturned hWorker | popEmpty hWorker | acquire hWorker =>
    exact .inr (.inl ⟨linked.idle_of_worker (by simp [hWorker]), rfl⟩)
  | _ => exact .inr (.inr (.inr ⟨rfl, rfl, rfl⟩))

/-- What a step gives to the queue is the task of its own submission. -/
theorem Linked.enqueued_step (linked : Linked s (queueTrace trace)) (h : Step s t s' events) :
    enqueued events = [] ∨
      ∃ task, enqueued events = [task] ∧ (s.client t).task = some task ∧ gave s t = false := by
  rcases linked.own_task h with ⟨-, -, hNone⟩ | ⟨-, hNone⟩ | ⟨task, hClient, -, hGave, -,
    hOne⟩ | ⟨-, -, hNone⟩
  · exact .inl hNone
  · exact .inl hNone
  · exact .inr ⟨task, hOne, by rw [hClient]; rfl, hGave⟩
  · exact .inl hNone

/-- A task in the hands of a client is one of the calls so far, and enqueued once its push has
claimed a place. -/
theorem Named.active_step (named : Named s trace) (linked : Linked s (queueTrace trace))
    (h : Step s t s' events) (hu : (s'.client u).task = some task) :
    task < s'.calls ∧ (task ∈ enqueued (trace ++ events) ↔ gave s' u = true) := by
  have hCalls := h.calls_le
  rw [enqueued_append]
  by_cases hSame : u = t
  · subst hSame
    rcases linked.own_task h with ⟨hLock, hCall, hNone⟩ | ⟨hIdle, hNone⟩ |
      ⟨own, hBefore, hAfter, -, hGave, hOne⟩ | ⟨hTask, hGave, hNone⟩
    · -- a new number is larger than all that were pushed
      rw [hLock] at hu
      cases hu
      refine ⟨by omega, ?_⟩
      simp only [hNone, List.append_nil, gave, hLock, Bool.false_eq_true, iff_false]
      exact fun hMem => Nat.lt_irrefl _ (named.called hMem)
    · simp [hIdle, Client.task] at hu
    · rw [hAfter] at hu
      cases hu
      have hLt := (named.active (t := u) (by rw [hBefore]; rfl)).1
      simp [hOne, hGave, Nat.lt_of_lt_of_le hLt hCalls]
    · rw [hTask] at hu
      obtain ⟨hLt, hIff⟩ := named.active hu
      rw [hNone, List.append_nil, hGave]
      exact ⟨Nat.lt_of_lt_of_le hLt hCalls, hIff⟩
  · rw [(h.frame hSame).1] at hu
    obtain ⟨hLt, hIff⟩ := named.active hu
    refine ⟨Nat.lt_of_lt_of_le hLt hCalls, ?_⟩
    rw [h.gave_frame hSame, ← hIff]
    rcases linked.enqueued_step h with hNone | ⟨own, hOne, hOwn, -⟩
    · rw [hNone, List.append_nil]
    · have hNe : task ≠ own := by
        rintro rfl
        exact hSame (named.distinct hu hOwn)
      simp [hOne, hNe]

theorem Named.nodup_step (named : Named s trace) (linked : Linked s (queueTrace trace))
    (h : Step s t s' events) : (enqueued (trace ++ events)).Nodup := by
  rw [enqueued_append]
  rcases linked.enqueued_step h with hNone | ⟨task, hOne, hOwn, hGave⟩
  · rw [hNone, List.append_nil]
    exact named.nodup
  · have hFresh : task ∉ enqueued trace := by
      intro hMem
      rw [(named.active hOwn).2, hGave] at hMem
      cases hMem
    rw [hOne]
    exact List.nodup_append.mpr ⟨named.nodup, List.nodup_singleton task, by grind⟩

theorem Named.called_step (named : Named s trace) (linked : Linked s (queueTrace trace))
    (h : Step s t s' events) (hTask : task ∈ enqueued (trace ++ events)) : task < s'.calls := by
  apply Nat.lt_of_lt_of_le _ h.calls_le
  rw [enqueued_append] at hTask
  rcases List.mem_append.mp hTask with hOld | hNew
  · exact named.called hOld
  · rcases linked.enqueued_step h with hNone | ⟨own, hOne, hOwn, -⟩
    · simp [hNone] at hNew
    · simp only [hOne, List.mem_singleton] at hNew
      rw [hNew]
      exact (named.active hOwn).1

/-- A step brings no old number back. -/
theorem Linked.not_active_step (linked : Linked s (queueTrace trace)) (h : Step s t s' events)
    (hCalled : task < s.calls) (hActive : ∀ u, (s.client u).task ≠ some task) (u : Thread n τ) :
    (s'.client u).task ≠ some task := by
  by_cases hSame : u = t
  · subst hSame
    rcases linked.own_task h with ⟨hLock, -, -⟩ | ⟨hIdle, -⟩ | ⟨own, hBefore, hAfter, -⟩ | ⟨hTask,
      -⟩
    · rw [hLock]
      simp only [Client.task, ne_eq, Option.some.injEq]
      omega
    · simp [hIdle, Client.task]
    · rw [hAfter, ← hBefore]
      exact hActive u
    · rw [hTask]
      exact hActive u
  · rw [(h.frame hSame).1]
    exact hActive u

/-- A task whose call has answered is enqueued exactly if the answer was `true`. -/
theorem Named.answered_step (named : Named s trace) (linked : Linked s (queueTrace trace))
    (h : Step s t s' events) {result : Bool} (hMem : .submitted u task result ∈ trace ++ events) :
    task < s'.calls ∧
      (∀ v, (s'.client v).task ≠ some task) ∧ (task ∈ enqueued (trace ++ events) ↔
      result = true) := by
  rcases List.mem_append.mp hMem with hOld | hNew
  · obtain ⟨hCalled, hActive, hIff⟩ := named.answered hOld
    refine ⟨Nat.lt_of_lt_of_le hCalled h.calls_le, linked.not_active_step h hCalled hActive, ?_⟩
    rw [enqueued_append, ← hIff]
    rcases linked.enqueued_step h with hNone | ⟨own, hOne, hOwn, -⟩
    · rw [hNone, List.append_nil]
    · have hNe : task ≠ own := by
        rintro rfl
        exact hActive t hOwn
      simp [hOne, hNe]
  · have hSame : enqueued (trace ++ events) = enqueued trace := by
      cases h <;> first | exact (enqueued_append ..).trans (List.append_nil _) | simp at hNew
    rw [hSame]
    cases h with
    | submitEmpty =>
      cases List.mem_singleton.mp hNew
      refine ⟨Nat.lt_succ_self _, ?_, ?_⟩
      · intro v hv
        exact Nat.lt_irrefl _ (named.active hv).1
      · simpa using fun hMem => Nat.lt_irrefl _ (named.called hMem)
    | unlock hClient =>
      cases List.mem_singleton.mp hNew
      have hOwn : (s.client t).task = some task := by rw [hClient]; rfl
      obtain ⟨hCalled, hIff⟩ := named.active hOwn
      refine ⟨hCalled, ?_, by rw [hIff, gave, hClient]⟩
      intro v hv
      by_cases hvt : v = t
      · simp [hvt, Client.task] at hv
      · simp only [Function.update_of_ne hvt] at hv
        exact hvt (named.distinct hv hOwn)
    | _ => simp at hNew

theorem Named.step (named : Named s trace) (linked : Linked s (queueTrace trace))
    (h : Step s t s' events) : Named s' (trace ++ events) where
  active := named.active_step linked h
  distinct := named.distinct_step h
  nodup := named.nodup_step linked h
  called := named.called_step linked h
  answered := named.answered_step linked h

end Named

/-- The task in a worker's hands. -/
def Worker.running : Worker → Multiset Task
  | .run task => {task}
  | _ => 0

/-- The exception in a worker's hands. -/
def Worker.handling : Worker → Multiset Task
  | .handle error => {error}
  | _ => 0

/-- Tasks and exceptions are accounted for. -/
structure Counted (s : State n τ κ C) (trace : List (Event n τ κ)) : Prop where
  delivered : started trace = (Mpmc.delivered (queueTrace trace)).map (fun call => call.2.2)
  tasks : (started trace : Multiset Task) = finished trace + ∑ i, (s.worker i).running
  errors : (thrown trace : Multiset Task) = taken trace + s.errors + ∑ i, (s.worker i).handling

section Counted

variable {s s' : State n τ Nat C} {trace events : List (Event n τ Nat)} {t : Thread n τ}

theorem counted_start : Counted (machine n τ (.unbounded C)).start [] where
  delivered := rfl
  tasks := by simp [machine, started, finished, Worker.running]
  errors := by simp [machine, thrown, taken, Worker.handling]

theorem Counted.delivered_step (counted : Counted s trace) (h : Step s t s' events) :
    started (trace ++ events) =
      (Mpmc.delivered (queueTrace (trace ++ events))).map (fun call => call.2.2) := by
  have hEvents : started events = (Mpmc.delivered (queueTrace events)).map
      (fun call => call.2.2) := by
    cases h <;> rfl
  rw [started_append, queueTrace_append, Mpmc.delivered_append, List.map_append, counted.delivered,
    hEvents]

/-- What a step adds to the tasks in the workers' hands is what it starts, less
what it ends. -/
theorem Step.running_flow (h : Step s t s' events) :
    ∑ i, (s'.worker i).running + finished events = ∑ i, (s.worker i).running + started events := by
  cases h with
  | popReturned hWorker | popEmpty hWorker | acquire hWorker | handle hWorker | stop hWorker
  | again hWorker | throw hWorker | complete hWorker =>
    apply Tally.sum_update_flow Worker.running s.worker hWorker
    simp [Worker.running, started, finished]
  | _ => rfl

/-- What a step adds to the exceptions in the workers' hands is what is thrown, less
what is stored. -/
theorem Step.handling_flow (h : Step s t s' events) :
    ∑ i, (s'.worker i).handling + (taken events + s'.errors) =
      ∑ i, (s.worker i).handling + (thrown events + s.errors) := by
  cases h with
  | popReturned hWorker | popEmpty hWorker | acquire hWorker | handle hWorker | stop hWorker
  | again hWorker | throw hWorker | complete hWorker =>
    apply Tally.sum_update_flow Worker.handling s.worker hWorker
    simp [Worker.handling, thrown, taken]
  | takeErrors => simp [taken, thrown]
  | _ => rfl

theorem Counted.step (counted : Counted s trace) (h : Step s t s' events) :
    Counted s' (trace ++ events) where
  delivered := counted.delivered_step h
  tasks := by
    have hFlow := h.running_flow
    rw [started_append, finished_append, ← Multiset.coe_add, ← Multiset.coe_add, counted.tasks,
      add_assoc, ← hFlow, add_assoc, add_comm (∑ i, (s'.worker i).running)]
  errors := by
    have hFlow := h.handling_flow
    rw [thrown_append, taken_append, ← Multiset.coe_add, ← Multiset.coe_add, counted.errors]
    calc (taken trace + s.errors + ∑ i, (s.worker i).handling + thrown events : Multiset Task)
        = taken trace + (∑ i, (s.worker i).handling + (thrown events + s.errors)) := by ac_rfl
      _ = taken trace + (∑ i, (s'.worker i).handling + (taken events + s'.errors)) := by rw [hFlow]
      _ = taken trace + taken events + s'.errors + ∑ i, (s'.worker i).handling := by ac_rfl

end Counted

/-- How far `shutdown` has joined the workers. -/
structure Joined (s : State n τ κ C) (trace : List (Event n τ κ)) : Prop where
  joined : ∀ {k}, s.closer = .join k → ∀ i : Fin n, i.val < k → s.worker i = .returned
  cleared : s.cleared = true → ∀ i, s.worker i = .returned
  done : .shutdownReturned ∈ trace → s.cleared = true

section Joined

variable {s s' : State n τ Nat C} {trace events : List (Event n τ Nat)} {t : Thread n τ}

theorem joined_start : Joined (machine n τ (.unbounded C)).start [] where
  joined := fun h => by simp [machine] at h
  cleared := fun h => by simp [machine] at h
  done := fun h => by simp at h

/-- A worker that has returned stays so. -/
theorem Step.returned (h : Step s t s' events) {i : Fin n} (hi : s.worker i = .returned) :
    s'.worker i = .returned := by
  cases h <;> grind -ring -linarith [Function.update_apply]

/-- `shutdown` passes a worker only when that has returned, for good. -/
theorem Joined.step (joined : Joined s trace) (h : Step s t s' events) :
    Joined s' (trace ++ events) where
  joined := by
    intro k hk i hi
    have hReturned := h.returned (i := i)
    have hOld := joined.joined (k := k)
    cases h with
    | join hCloser hLt hWorker =>
      cases hk
      rcases Nat.lt_succ_iff_lt_or_eq.mp hi with hBefore | hEq
      · exact joined.joined hCloser i hBefore
      · subst hEq
        exact hWorker
    | _ => grind -ring -linarith
  cleared := by
    intro hCleared i
    have hReturned := h.returned (i := i)
    have hOld := joined.cleared
    cases h with
    | joined hCloser hEnd =>
      rcases hEnd with hAll | hBefore
      · exact joined.joined hCloser i (Nat.lt_of_lt_of_le i.isLt hAll)
      · exact hOld hBefore i
    | _ => exact hReturned (hOld hCleared i)
  done := by
    intro hMem
    have hOld := joined.done
    cases h <;> simp_all

end Joined

/-- All that is known of a reachable pool. -/
structure Known (s : State n τ Nat C) (trace : List (Event n τ Nat)) : Prop where
  linked : Linked s (queueTrace trace)
  gate : Gate s
  permits : Permits s
  named : Named s trace
  counted : Counted s trace
  joined : Joined s trace

theorem Known.step {s s' : State n τ Nat C} {trace events : List (Event n τ Nat)} {t : Thread n τ}
    (known : Known s trace) (h : Step s t s' events) : Known s' (trace ++ events) where
  linked := by
    rw [queueTrace_append]
    exact known.linked.step h
  gate := known.gate.step h
  permits := known.permits.step known.linked known.gate h
  named := known.named.step known.linked h
  counted := known.counted.step h
  joined := known.joined.step h

theorem known_of_reaches {s : State n τ Nat C} {trace : List (Event n τ Nat)}
    (h : (machine n τ (.unbounded C)).Reaches s trace) : Known s trace := by
  refine h.invariant ⟨linked_start, gate_start, permits_start, named_start, counted_start,
    joined_start⟩ ?_
  intro s s' trace events label _ known hNext
  obtain ⟨t, hStep⟩ := step_of_next known.linked hNext
  exact known.step hStep

end Tinycoro.ThreadPool
