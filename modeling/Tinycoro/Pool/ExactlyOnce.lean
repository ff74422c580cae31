import Tinycoro.Pool.Tasks
import Tinycoro.Queue.MpmcWord

/-! What the pool promises: a task that was accepted runs once and has ended when
`shutdown` returns, a task that was refused never runs, and exceptions are neither
lost nor repeated. It is proved of the pool over counters that do not wrap and
carried over to machine words. -/
namespace Tinycoro.ThreadPool

open Transition

variable {n : Nat} {τ κ : Type} {C : Ring.Size}

/-- Tasks and exceptions of a pool in a state with its trace. -/
structure ExactlyOnce (s : State n τ κ C) (trace : List (Event n τ κ)) : Prop where
  started_once : (started trace).Nodup
  finished_once : (finished trace).Nodup
  /-- a task whose `submit` returned true has run, and had ended when `shutdown` returned -/
  drained : ∀ {pre post}, trace = pre ++ .shutdownReturned :: post → ∀ {t task},
    .submitted t task true ∈ trace → (started trace).count (some task) = 1 ∧
    some task ∈ finished pre
  /-- a task whose `submit` returned false does not run -/
  refused : ∀ {t task}, .submitted t task false ∈ trace → some task ∉ started trace
  /-- what tasks have thrown is handed out, stored, or about to be stored by its worker -/
  errors : (thrown trace : Multiset Task) = taken trace + s.errors + ∑ i, (s.worker i).handling
  errors_once : (taken trace ++ s.errors).Nodup
  errors_settled : .shutdownReturned ∈ trace → (thrown trace).Perm (taken trace ++ s.errors)

section Facts

variable {s : State n τ Nat C} {trace : List (Event n τ Nat)}

theorem pushed_queueTrace (trace : List (Event n τ Nat)) (p : Nat) :
    Mpmc.pushed (queueTrace trace) p = (enqueued trace)[p]? := by
  rw [Mpmc.pushed, enqueued, List.getElem?_map]

/-- What has been started is what the queue held at the positions delivered. -/
theorem Known.started_eq (known : Known s trace) :
    started trace = ((Mpmc.delivered (queueTrace trace)).map (fun call => call.2.1)).map
      (fun p => (enqueued trace)[p]?) := by
  rw [known.counted.delivered, List.map_map]
  apply List.map_congr_left
  rintro ⟨u, p, data⟩ hMem
  rw [Function.comp_apply, ← pushed_queueTrace]
  exact (known.linked.queue.delivered_ok hMem).2.2

theorem Known.started_nodup (known : Known s trace) : (started trace).Nodup := by
  rw [known.started_eq]
  refine List.Nodup.map_on ?_ known.linked.queue.delivered_nodup
  intro p hp q _ hEq
  obtain ⟨⟨u, p, data⟩, hMem, rfl⟩ := List.mem_map.mp hp
  obtain ⟨-, v, task, hPush, -⟩ := known.linked.queue.value_matches hMem
  refine (List.getElem?_inj ?_ known.named.nodup).mp hEq
  rw [enqueued, List.length_map]
  exact (List.getElem?_eq_some_iff.mp hPush).1

theorem Known.enqueued_of_started (known : Known s trace) {task : Nat}
    (h : some task ∈ started trace) : task ∈ enqueued trace := by
  rw [known.started_eq] at h
  obtain ⟨p, -, hEq⟩ := List.mem_map.mp h
  exact List.mem_of_getElem? hEq

theorem Linked.not_popping_of_returned {trace : List (Mpmc.Event (Thread n τ) Nat Nat)}
    (linked : Linked s trace) (hAll : ∀ i, s.worker i = .returned) (u : Thread n τ) {p : Nat} :
    ¬ Mpmc.Popping (s.queue.pc u) p := by
  intro h
  cases linked.mode u with
  | outside _ _ _ hPc => simp [hPc, Mpmc.Popping] at h
  | pushing _ _ hPc => rcases h with h | ⟨data, h⟩ <;> simp [h, PushOf] at hPc
  | @popping i _ hWorker => simp [hAll i] at hWorker

/-- When all workers have returned, all that has started has ended. -/
theorem Known.started_perm (known : Known s trace) (hAll : ∀ i, s.worker i = .returned) :
    (started trace).Perm (finished trace) := by
  have hTasks := known.counted.tasks
  simp only [hAll, Worker.running, Finset.sum_const_zero, add_zero] at hTasks
  exact Multiset.coe_eq_coe.mp hTasks

/-- When all workers have returned, all that was pushed has ended: nothing is left
in the queue, and no pop is under way. -/
theorem Known.finished_of_returned (known : Known s trace) (hn : 0 < n)
    (hAll : ∀ i, s.worker i = .returned) {task : Nat} (hTask : task ∈ enqueued trace) :
    some task ∈ finished trace := by
  have inv := known.linked.queue
  obtain ⟨p, hp⟩ := List.mem_iff_getElem?.mp hTask
  rw [← (known.started_perm hAll).mem_iff, known.started_eq]
  refine List.mem_map.mpr ⟨p, ?_, hp⟩
  have hPush : p < s.queue.queue.enqueuePos := by
    rw [← pushed_queueTrace] at hp
    obtain ⟨claim, hClaim, -⟩ := Option.map_eq_some_iff.mp hp
    exact inv.lt_enqueue_of_pushes hClaim
  have hEmpty := (known.permits.drained (.inr (hAll ⟨0, hn⟩))).2
  rcases inv.popped (hEmpty ▸ hPush) with ⟨u, hu⟩ | ⟨u, data, hMem⟩
  · exact absurd hu (known.linked.not_popping_of_returned hAll u)
  · exact List.mem_map.mpr ⟨_, hMem, rfl⟩

theorem Known.finished_nodup (known : Known s trace) : (finished trace).Nodup := by
  rw [← Multiset.coe_nodup]
  refine Multiset.nodup_of_le ?_ (Multiset.coe_nodup.mpr known.started_nodup)
  rw [known.counted.tasks]
  exact Multiset.le_add_right _ _

/-- An exception is one way for a task to end. -/
theorem thrown_sublist (trace : List (Event n τ κ)) : (thrown trace).Sublist (finished trace) := by
  induction trace with
  | nil => exact .slnil
  | cons event trace ih =>
    cases event with
    | finished i task threw =>
      cases threw with
      | true => exact ih.cons_cons task
      | false => exact ih.cons task
    | _ => exact ih

theorem Known.mem_started (known : Known s trace) {task : Task} (h : task ∈ finished trace) :
    task ∈ started trace := by
  rw [← Multiset.mem_coe, known.counted.tasks]
  exact Multiset.mem_add.mpr (.inl h)

end Facts

section Runs

variable [DecidableEq τ] {s s' : State n τ Nat C} {trace events : List (Event n τ Nat)}
  {t : Thread n τ}

theorem Known.not_enqueued_of_returned (known : Known s trace) (hn : 0 < n)
    (hAll : ∀ i, s.worker i = .returned) (h : Step s t s' events) : enqueued events = [] := by
  have hClosed := (known.permits.drained (.inr (hAll ⟨0, hn⟩))).1.1
  rcases known.linked.own_task h with ⟨-, -, hNone⟩ | ⟨-, hNone⟩ | ⟨task, hPush, -⟩ | ⟨-, -, hNone⟩
  · exact hNone
  · exact hNone
  · exact absurd hPush (known.gate.refused hClosed t task).1
  · exact hNone

/-- The step on which `shutdown` returns emits nothing else. -/
theorem Step.shutdownReturned (h : Step s t s' events) (hMem : .shutdownReturned ∈ events) :
    events = [.shutdownReturned] := by
  cases h <;> simp_all

/-- Where `shutdown` has returned, everything that is ever pushed has ended. -/
theorem settled_of_reaches (hn : 0 < n) (h : (machine n τ (.unbounded C)).Reaches s trace)
    {pre post : List (Event n τ Nat)} (hSplit : trace = pre ++ .shutdownReturned :: post)
    {task : Nat} (hTask : task ∈ enqueued trace) : some task ∈ finished pre := by
  induction h generalizing pre post task with
  | start => simp at hSplit
  | @step s s' trace events label prior last ih =>
    have known := known_of_reaches prior
    obtain ⟨t, hStep⟩ := step_of_next known.linked last
    have hReturns : ∀ {first rest}, events = first ++ .shutdownReturned :: rest →
        pre = trace ++ first → some task ∈ finished pre := by
      -- the step joins the last worker, and what has ended then had ended before it
      intro first rest hEvents hPre
      have hAlone := hStep.shutdownReturned (by rw [hEvents]; simp)
      have later := known.step hStep
      have hAll := later.joined.cleared (later.joined.done (by rw [hAlone]; simp))
      have hEnded := later.finished_of_returned hn hAll hTask
      have hFirst : first = [] := by
        rw [hAlone] at hEvents
        cases first with
        | nil => rfl
        | cons => simp at hEvents
      rw [hPre, hFirst, List.append_nil]
      rw [hAlone, finished_append] at hEnded
      simpa [finished] using hEnded
    have hEarlier : ∀ {rest}, trace = pre ++ .shutdownReturned :: rest →
        some task ∈ finished pre := by
      intro rest hTrace
      have hAll := known.joined.cleared (known.joined.done (by rw [hTrace]; simp))
      rw [enqueued_append, known.not_enqueued_of_returned hn hAll hStep, List.append_nil] at hTask
      exact ih hTrace hTask
    rcases List.append_eq_append_iff.mp hSplit with ⟨first, hPre, hEvents⟩ | ⟨rest, hTrace, hRest⟩
    · exact hReturns hEvents hPre
    · cases rest with
      | nil =>
        have hNow : events = [] ++ .shutdownReturned :: post := hRest.symm
        exact hReturns hNow (by simpa using hTrace.symm)
      | cons =>
        cases hRest
        exact hEarlier hTrace

/-- From the invariants of the pool, along every run. -/
theorem exactlyOnce_of_reaches (hn : 0 < n) (h : (machine n τ (.unbounded C)).Reaches s trace) :
    ExactlyOnce s trace := by
  have known := known_of_reaches h
  constructor
  · exact known.started_nodup
  · exact known.finished_nodup
  · intro pre post hSplit t task hMem
    have hTask := (known.named.answered hMem).2.2.mpr rfl
    have hEnded := settled_of_reaches hn h hSplit hTask
    refine ⟨?_, hEnded⟩
    apply List.count_eq_one_of_mem known.started_nodup
    apply known.mem_started
    rw [hSplit, finished_append]
    exact List.mem_append_left _ hEnded
  · intro t task hMem hStarted
    have hNever := (known.named.answered hMem).2.2.mp (known.enqueued_of_started hStarted)
    cases hNever
  · exact known.counted.errors
  · rw [← Multiset.coe_nodup, ← Multiset.coe_add]
    have hThrown := known.finished_nodup.sublist (thrown_sublist trace)
    refine Multiset.nodup_of_le ?_ (Multiset.coe_nodup.mpr hThrown)
    rw [known.counted.errors]
    exact Multiset.le_add_right _ _
  · intro hReturned
    have hAll := known.joined.cleared (known.joined.done hReturned)
    have hErrors := known.counted.errors
    simp only [hAll, Worker.handling, Finset.sum_const_zero, add_zero] at hErrors
    exact Multiset.coe_eq_coe.mp hErrors

end Runs

end Tinycoro.ThreadPool
