import Tinycoro.Pool.Word

/-! Why joining the workers comes to an end. A worker leaves its loop only when the pool
is closed and the queue is drained, and a pool in which every worker waits for a permit
has nothing left to do. Both are read off the balance of the permits. -/
namespace Tinycoro.ThreadPool

open Transition

variable {n : Nat} {τ κ μ : Type} {C : Ring.Size}

/-- A pop has claimed the position of every push. -/
def Claimed (trace : List (Event n τ κ)) : Prop :=
  ∀ {t pos task}, .queue (.pushClaimed t pos task) ∈ trace → ∃ u, .queue (.popClaimed u pos) ∈ trace

/-- A pop has claimed every task whose `submit` has returned true. -/
def SubmittedClaimed (trace : List (Event n τ κ)) : Prop :=
  ∀ {t task}, .submitted t task true ∈ trace →
    ∃ u pos v, .queue (.pushClaimed u pos task) ∈ trace ∧ .queue (.popClaimed v pos) ∈ trace

/-- Nobody is between locking the lifecycle mutex and unlocking it. -/
def Unlocked (s : State n τ κ C) : Prop :=
  (∀ t, (s.client t).inside = false) ∧ s.closer.inside = false

/-- Every worker that has not returned is blocked in `available_.acquire`. -/
def Blocked (s : State n τ κ C) : Prop :=
  ∀ i, s.worker i ≠ .returned → s.worker i = .acquire ∧ s.available = 0

/-- A pop that comes back empty does so when the pool is closed and nothing is left to
claim; where all workers are blocked there is nothing left to claim either, and after
`shutdown` has released its permits there is no worker left to be blocked. -/
structure NeverStrands [DecidableEq τ] [DecidableEq κ] (K : Mpmc.SizeT κ C) (s : State n τ κ C)
    (trace : List (Event n τ κ)) : Prop where
  empty : ∀ {label s' events i}, next K s label = some (s', events) →
    .queue (.popEmpty (.worker i)) ∈ events →
      Released s ∧ (∀ j, s.stopRequested j = true) ∧ SubmittedClaimed trace ∧ Claimed trace
  blocked : Unlocked s → Blocked s → Claimed trace ∧ (Released s → ∀ i, s.worker i = .returned)

section Facts

variable {s : State n τ Nat C} {trace : List (Event n τ Nat)}

theorem mem_queueTrace {event : Mpmc.Event (Thread n τ) κ Nat} {trace : List (Event n τ κ)} :
    event ∈ queueTrace trace ↔ .queue event ∈ trace := by
  rw [queueTrace, List.mem_filterMap]
  constructor
  · rintro ⟨e, hMem, hEq⟩
    cases e <;> cases hEq
    exact hMem
  · exact fun hMem => ⟨_, hMem, rfl⟩

/-- The claims of pushes and pops are those of all positions below the counters. -/
theorem Linked.claimed (linked : Linked s (queueTrace trace))
    (h : s.queue.queue.enqueuePos = s.queue.queue.dequeuePos) : Claimed trace := by
  intro t pos task hPush
  have hLt := linked.queue.push_lt (Mpmc.mem_pushes.mpr (mem_queueTrace.mpr hPush))
  rw [h, ← List.mem_range, ← linked.queue.pop_positions] at hLt
  obtain ⟨⟨u, p⟩, hPop, rfl⟩ := List.mem_map.mp hLt
  exact ⟨u, mem_queueTrace.mp (Mpmc.mem_pops.mp hPop)⟩

theorem Claimed.submitted (h : Claimed trace) (named : Named s trace) : SubmittedClaimed trace := by
  intro t task hMem
  obtain ⟨⟨u, pos, val⟩, hPush, rfl⟩ := List.mem_map.mp ((named.answered hMem).2.2.mpr rfl)
  have hPush := mem_queueTrace.mp (Mpmc.mem_pushes.mp hPush)
  obtain ⟨v, hPop⟩ := h hPush
  exact ⟨u, pos, v, hPush, hPop⟩

theorem Gate.stopped (gate : Gate s) (h : Released s) (i : Fin n) : s.stopRequested i = true :=
  gate.stops h.1 i (by rw [Closer.flagged_of_not_stopping h.2]; exact i.isLt)

theorem pending_of_unlocked (h : Unlocked s) : pending s = 0 := by
  unfold pending
  cases s.lifecycleMutex with
  | none => rfl
  | some t =>
    have hOutside := h.1 t
    dsimp only [unpaid]
    cases hClient : s.client t <;> first | rfl | (rw [hClient] at hOutside; cases hOutside)

/-- Where the workers are blocked, each of them that has returned still has its permit. -/
theorem held_of_blocked (h : Blocked s) (i : Fin n) :
    held s i = if s.worker i = .returned then 1 else 0 := by
  unfold held
  by_cases hReturned : s.worker i = .returned
  · rw [hReturned, if_pos rfl]
  · rw [(h i hReturned).1]
    rfl

/-- All permits of the workers are held only if all of them have returned. -/
theorem returned_of_sum_held (h : Blocked s) (hSum : n ≤ ∑ i, held s i) (i : Fin n) :
    s.worker i = .returned := by
  by_contra hNot
  have hLt : ∑ j, held s j < ∑ _j : Fin n, 1 := by
    refine Finset.sum_lt_sum (fun j _ => ?_) ⟨i, Finset.mem_univ i, ?_⟩
    · rw [held_of_blocked h]
      split_ifs <;> omega
    · rw [held_of_blocked h, if_neg hNot]
      exact Nat.one_pos
  rw [Finset.sum_const, Finset.card_univ, Fintype.card_fin, smul_eq_mul, Nat.mul_one] at hLt
  omega

/-- The balance where every worker is blocked. With `shutdown` still to come no worker has
returned, so every position is claimed; after it, the permits it has released are all in
the hands of workers that have returned. -/
theorem Known.blocked (known : Known s trace) (hn : 0 < n) (hUnlocked : Unlocked s)
    (hBlocked : Blocked s) :
    s.queue.queue.enqueuePos = s.queue.queue.dequeuePos ∧
      (Released s → ∀ i, s.worker i = .returned) := by
  by_cases hAll : ∀ i, s.worker i = .returned
  · exact ⟨(known.permits.drained (.inr (hAll ⟨0, hn⟩))).2, fun _ => hAll⟩
  · rw [not_forall] at hAll
    obtain ⟨i, hWaits⟩ := hAll
    have hZero := (hBlocked i hWaits).2
    have hBalanced := known.permits.balanced
    have hPending := pending_of_unlocked hUnlocked
    have hOrder := known.linked.queue.dequeue_le
    unfold Balanced at hBalanced
    by_cases hReleased : Released s
    · have hBonus : bonus s = n := by simp [bonus, hReleased.1, hReleased.2]
      have hReturned := returned_of_sum_held hBlocked (by omega) i
      exact absurd hReturned hWaits
    · have hNone : ∑ j, held s j = 0 := by
        refine Finset.sum_eq_zero fun j _ => ?_
        rw [held_of_blocked hBlocked, if_neg]
        exact fun hReturned => hReleased (known.permits.drained (.inr hReturned)).1
      have hBonus : bonus s = 0 := by
        by_contra hSome
        exact hReleased (released_of_bonus (Nat.one_le_iff_ne_zero.mpr hSome))
      exact ⟨by omega, fun h => absurd h hReleased⟩

end Facts

section Runs

variable [DecidableEq τ] {s s' : State n τ Nat C} {trace events : List (Event n τ Nat)}
  {t : Thread n τ}

/-- A pop that comes back empty has read the sequence number of a position that is not
published. -/
theorem Step.popSequence_of_empty (h : Step s t s' events) {i : Fin n}
    (hMem : .queue (.popEmpty (.worker i)) ∈ events) :
    ∃ pos, s.worker i = .pop ∧ s.queue.pc (.worker i) = .popSequence pos ∧
      s.queue.sequenceAt pos ≤ pos := by
  have hNext : s'.worker i = .checkStop := by
    cases h <;> simp_all
  have hPop : s.worker i = .pop := by
    cases h <;> simp_all
  rcases h.checkStop_of_step (.inl hNext) with hOld | hOld | hRead
  · exact absurd (hPop.symm.trans hOld) (by simp)
  · exact absurd (hPop.symm.trans hOld) (by simp)
  · exact hRead

theorem neverStrands_of_reaches (hn : 0 < n) (h : (machine n τ (.unbounded C)).Reaches s trace) :
    NeverStrands (.unbounded C) s trace := by
  have known := known_of_reaches h
  constructor
  · intro label s' events i hNext hEmpty
    obtain ⟨t, hStep⟩ := step_of_next known.linked hNext
    obtain ⟨pos, hPop, hPc, hSeq⟩ := hStep.popSequence_of_empty hEmpty
    obtain ⟨hReleased, hDrained⟩ := known.permits.empty known.linked known.gate hPop hPc hSeq
    have hClaimed : Claimed trace := known.linked.claimed hDrained
    exact ⟨hReleased, known.gate.stopped hReleased, hClaimed.submitted known.named, hClaimed⟩
  · intro hUnlocked hBlocked
    obtain ⟨hDrained, hReturned⟩ := known.blocked hn hUnlocked hBlocked
    exact ⟨known.linked.claimed hDrained, hReturned⟩

end Runs

section Word

variable {f : κ → μ} {trace : List (Event n τ κ)}

theorem mem_map_pushClaimed {t : Thread n τ} {pos : μ} {task : Nat}
    (h : .queue (.pushClaimed t pos task) ∈ trace.map (Event.map f)) :
    ∃ p, f p = pos ∧ .queue (.pushClaimed t p task) ∈ trace := by
  obtain ⟨event, hMem, hEq⟩ := List.mem_map.mp h
  cases event with
  | queue event =>
    cases event <;> cases hEq
    exact ⟨_, rfl, hMem⟩
  | _ => cases hEq

theorem Claimed.map (h : Claimed trace) : Claimed (trace.map (Event.map f)) := by
  intro t pos task hPush
  obtain ⟨p, rfl, hMem⟩ := mem_map_pushClaimed hPush
  obtain ⟨u, hPop⟩ := h hMem
  exact ⟨u, List.mem_map_of_mem hPop⟩

theorem SubmittedClaimed.map (h : SubmittedClaimed trace) :
    SubmittedClaimed (trace.map (Event.map f)) := by
  intro t task hMem
  obtain ⟨event, hEvent, hEq⟩ := List.mem_map.mp hMem
  cases event <;> cases hEq
  obtain ⟨u, pos, v, hPush, hPop⟩ := h hEvent
  exact ⟨u, f pos, v, List.mem_map_of_mem hPush, List.mem_map_of_mem hPop⟩

/-- What is promised does not depend on how positions are counted. -/
theorem NeverStrands.word [DecidableEq τ] {w : Nat} {s : State n τ Nat C}
    {trace : List (Event n τ Nat)} (h : NeverStrands (.unbounded C) s trace)
    (hBounded : Mpmc.Bounded w s.queue) :
    NeverStrands (.word C w) (s.map (BitVec.ofNat w)) (trace.map (Event.map (BitVec.ofNat w))) := by
  constructor
  · intro label s' events i hNext hEmpty
    rw [next_word hBounded] at hNext
    obtain ⟨⟨ideal, history⟩, hIdeal, hEq⟩ := Option.map_eq_some_iff.mp hNext
    cases hEq
    obtain ⟨event, hMem, hEq⟩ := List.mem_map.mp hEmpty
    have hIs : event = .queue (.popEmpty (.worker i)) := by
      cases event with
      | queue event =>
        cases event <;> cases hEq
        rfl
      | _ => cases hEq
    obtain ⟨hReleased, hStopped, hSubmitted, hClaimed⟩ := h.empty hIdeal (hIs ▸ hMem)
    exact ⟨hReleased, hStopped, hSubmitted.map, hClaimed.map⟩
  · intro hUnlocked hBlocked
    obtain ⟨hClaimed, hReturned⟩ := h.blocked hUnlocked hBlocked
    exact ⟨hClaimed.map, hReturned⟩

/-- The pool strands neither a task nor a worker, under every interleaving. With counters
of `w` bits this holds while fewer than `2 ^ (w - 1) - kQueueSize` tasks have been pushed. -/
theorem never_strands [DecidableEq τ] (hn : 0 < n) :
    (∀ (s : State n τ Nat C) (trace : _), (machine n τ (.unbounded C)).Reaches s trace →
      NeverStrands (.unbounded C) s trace) ∧
    (∀ (w : Nat) (s : State n τ (BitVec w) C) (trace : _), (machine n τ (.word C w)).Reaches s trace
      → (Mpmc.pushes (queueTrace trace)).length < 2 ^ (w - 1) - C.val →
      NeverStrands (.word C w) s trace) := by
  constructor
  · intro s trace h
    exact neverStrands_of_reaches hn h
  · intro w s trace h hBound
    obtain ⟨ideal, history, hReaches, rfl, rfl⟩ := reaches_unbounded h (by omega)
    rw [queueTrace_map, Mpmc.pushes_map, List.length_map] at hBound
    have hBounded := (known_of_reaches hReaches).linked.queue.bounded (w := w) (by omega)
    exact (neverStrands_of_reaches hn hReaches).word hBounded

/-- One worker and one task: the worker is back in front of the semaphore, and the task
has been claimed. -/
theorem never_strands_one_worker :
    ∃ (s : State 1 Unit (BitVec 64) ⟨2, by decide, by decide⟩) (trace : _),
      (machine 1 Unit (.word ⟨2, by decide, by decide⟩ 64)).Reaches s trace ∧
      .queue (.pushClaimed (.client ()) 0 0) ∈ trace ∧ s.worker 0 = .acquire ∧ s.available = 0 ∧
      Claimed trace := by
  let labels : List (Label 1 Unit) :=
    [.submit (.client ()) false, .client (.client ()), .client (.client ()), .queue (.client ())
      false, .queue (.client ()) false, .queue (.client ()) false, .queue (.client ()) false,
      .queue (.client ()) false, .client (.client ()), .client (.client ()), .worker 0,
      .queue (.worker 0) false, .queue (.worker 0) false, .queue (.worker 0) false,
      .queue (.worker 0) false, .queue (.worker 0) false, .finish 0 false]
  have hRun : ((machine 1 Unit (.word ⟨2, by decide, by decide⟩ 64)).run
      (machine 1 Unit (.word ⟨2, by decide, by decide⟩ 64)).start labels).map (fun r =>
        (r.2, r.1.worker 0, r.1.available, r.1.closer, [.worker 0, .client (), .closer].map
        r.1.client)) =
        some ([.queue (.pushClaimed (.client ()) 0 0), .queue (.pushReturned (.client ()) 0),
          .submitted (.client ()) 0 true, .queue (.popClaimed (.worker 0) 0),
          .queue (.popReturned (.worker 0) 0 (some 0)), .started 0 (some 0), .finished 0 (some 0)
          false],
          .acquire, 0, .idle, [.idle, .idle, .idle]) := by decide +kernel
  obtain ⟨⟨s, trace⟩, hRun, hView⟩ := Option.map_eq_some_iff.mp hRun
  simp only [Prod.mk.injEq, List.map_cons, List.map_nil, List.cons.injEq, and_true] at hView
  obtain ⟨rfl, hWorker, hAvailable, hCloser, hOwn, hClient, hOther⟩ := hView
  have hReaches := Machine.Reaches.start.run hRun
  have hSafe := (never_strands (by decide)).2 64 s _ hReaches (by decide)
  refine ⟨s, _, hReaches, by simp, hWorker, hAvailable, (hSafe.blocked ⟨fun t => ?_, ?_⟩ ?_).1⟩
  · match t with
    | .worker 0 => rw [hOwn]; rfl
    | .client () => rw [hClient]; rfl
    | .closer => rw [hOther]; rfl
  · rw [hCloser]
    rfl
  · intro i _
    rw [Subsingleton.elim i 0]
    exact ⟨hWorker, hAvailable⟩

end Word

end Tinycoro.ThreadPool
