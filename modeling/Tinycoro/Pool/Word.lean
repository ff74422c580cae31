import Tinycoro.Pool.ExactlyOnce

/-! The pool over a queue with machine-word counters. While the positions claimed
stay a lap below the sign bit it does step for step what the pool over unbounded
counters does, and its promises carry over. -/
namespace Tinycoro.ThreadPool

open Transition

variable {n : Nat} {τ κ μ : Type} {C : Ring.Size}

def State.map (f : κ → μ) (s : State n τ κ C) : State n τ μ C where
  queue := s.queue.map f
  available := s.available
  accepting := s.accepting
  lifecycleMutex := s.lifecycleMutex
  stopRequested := s.stopRequested
  errors := s.errors
  calls := s.calls
  client := s.client
  worker := s.worker
  closer := s.closer
  cleared := s.cleared

def Event.map (f : κ → μ) : Event n τ κ → Event n τ μ
  | .queue event => .queue (event.map f)
  | .submitted t task result => .submitted t task result
  | .started i task => .started i task
  | .finished i task thrown => .finished i task thrown
  | .tookErrors errors => .tookErrors errors
  | .shutdownReturned => .shutdownReturned

section Map

variable (f : κ → μ) (trace : List (Event n τ κ))

theorem queueTrace_map :
    queueTrace (trace.map (Event.map f)) = (queueTrace trace).map (Mpmc.Event.map f) := by
  rw [queueTrace, queueTrace, List.filterMap_map, List.map_filterMap]
  congr 1
  funext event
  cases event <;> rfl

theorem started_map : started (trace.map (Event.map f)) = started trace := by
  rw [started, started, List.filterMap_map]
  congr 1
  funext event
  cases event <;> rfl

theorem finished_map : finished (trace.map (Event.map f)) = finished trace := by
  rw [finished, finished, List.filterMap_map]
  congr 1
  funext event
  cases event <;> rfl

theorem thrown_map : thrown (trace.map (Event.map f)) = thrown trace := by
  rw [thrown, thrown, List.filterMap_map]
  congr 1
  funext event
  cases event with
  | finished i task threw => cases threw <;> rfl
  | _ => rfl

theorem taken_map : taken (trace.map (Event.map f)) = taken trace := by
  rw [taken, taken, List.flatMap_map]
  congr 1
  funext event
  cases event <;> rfl

end Map

/-- The promises do not mention positions. -/
theorem ExactlyOnce.map {s : State n τ κ C} {trace : List (Event n τ κ)} (h : ExactlyOnce s trace)
    (f : κ → μ) : ExactlyOnce (s.map f) (trace.map (Event.map f)) := by
  have hSubmitted : ∀ {t task result}, .submitted t task result ∈ trace.map (Event.map f) →
      .submitted t task result ∈ trace := by
    intro t task result hMem
    obtain ⟨event, hEvent, hEq⟩ := List.mem_map.mp hMem
    cases event <;> cases hEq
    exact hEvent
  constructor
  · rw [started_map]
    exact h.started_once
  · rw [finished_map]
    exact h.finished_once
  · intro pre post hSplit t task hMem
    obtain ⟨pre', rest, rfl, rfl, hRest⟩ := List.map_eq_append_iff.mp hSplit
    obtain ⟨event, post', rfl, hEvent, rfl⟩ := List.map_eq_cons_iff.mp hRest
    cases event <;> cases hEvent
    rw [started_map, finished_map]
    exact h.drained rfl (hSubmitted hMem)
  · intro t task hMem
    rw [started_map]
    exact h.refused (hSubmitted hMem)
  · rw [thrown_map, taken_map]
    exact h.errors
  · rw [taken_map]
    exact h.errors_once
  · intro hMem
    rw [thrown_map, taken_map]
    apply h.errors_settled
    obtain ⟨event, hEvent, hEq⟩ := List.mem_map.mp hMem
    cases event <;> cases hEq
    exact hEvent

section Simulation

variable [DecidableEq τ] {w : Nat} {s : State n τ Nat C}

/-- The state and events of the word machine that stand for unbounded ones. -/
def toWord (w : Nat) (r : State n τ Nat C × List (Event n τ Nat)) :
    State n τ (BitVec w) C × List (Event n τ (BitVec w)) :=
  (r.1.map (BitVec.ofNat w), r.2.map (Event.map (BitVec.ofNat w)))

theorem submit_word (t : Thread n τ) (empty : Bool) :
    submit (s.map (BitVec.ofNat w)) t empty = (submit s t empty).map (toWord w) := by
  have hMay : mayCall (s.map (BitVec.ofNat w)) t = mayCall s t := by cases t <;> rfl
  unfold submit
  rw [hMay]
  split_ifs <;> rfl

theorem clientStep_word (h : Mpmc.Bounded w s.queue) (t : Thread n τ) :
    clientStep (.word C w) (s.map (BitVec.ofNat w)) t = (clientStep (.unbounded C) s t).map
    (toWord w) := by
  have hClient : (s.map (BitVec.ofNat w)).client t = s.client t := rfl
  have hMutex : (s.map (BitVec.ofNat w)).lifecycleMutex = s.lifecycleMutex := rfl
  have hAccepting : (s.map (BitVec.ofNat w)).accepting = s.accepting := rfl
  have hPush (task : Nat) : Mpmc.next (.word C w) (s.map (BitVec.ofNat w)).queue (t, .push task) =
      (Mpmc.next (.unbounded C) s.queue (t, .push task)).map (Mpmc.toWord w) := Mpmc.next_word h _
  unfold clientStep
  rw [hClient]
  cases s.client t with
  | check task =>
    simp only [hAccepting, hPush]
    split_ifs
    · cases Mpmc.next (.unbounded C) s.queue (t, .push task) <;> rfl
    · rfl
  | lock =>
    simp only [hMutex]
    split_ifs <;> rfl
  | _ => rfl

theorem react_word (s : State n τ Nat C) (t : Thread n τ)
    (event : Mpmc.Event (Thread n τ) Nat Nat) :
    react (s.map (BitVec.ofNat w)) t (event.map (BitVec.ofNat w)) = toWord w (react s t event) := by
  have hClient : (s.map (BitVec.ofNat w)).client t = s.client t := rfl
  unfold react
  rw [hClient]
  cases event <;> cases s.client t <;> cases t <;> rfl

theorem queueStep_word (h : Mpmc.Bounded w s.queue) (t : Thread n τ) (spurious : Bool) :
    queueStep (.word C w) (s.map (BitVec.ofNat w)) t spurious =
      (queueStep (.unbounded C) s t spurious).map (toWord w) := by
  have hNext : Mpmc.next (.word C w) (s.map (BitVec.ofNat w)).queue (t, .step spurious) =
      (Mpmc.next (.unbounded C) s.queue (t, .step spurious)).map (Mpmc.toWord w) :=
      Mpmc.next_word h _
  unfold queueStep
  rw [hNext]
  cases Mpmc.next (.unbounded C) s.queue (t, .step spurious) with
  | none => rfl
  | some result =>
    obtain ⟨queue, events⟩ := result
    cases events with
    | nil => rfl
    | cons event => exact congrArg some (react_word { s with queue } t event)

theorem workerStep_word (h : Mpmc.Bounded w s.queue) (i : Fin n) :
    workerStep (.word C w) (s.map (BitVec.ofNat w)) i = (workerStep (.unbounded C) s i).map
    (toWord w) := by
  have hWorker : (s.map (BitVec.ofNat w)).worker i = s.worker i := rfl
  have hAvailable : (s.map (BitVec.ofNat w)).available = s.available := rfl
  have hStop : (s.map (BitVec.ofNat w)).stopRequested = s.stopRequested := rfl
  have hPop : Mpmc.next (.word C w) (s.map (BitVec.ofNat w)).queue (.worker i, .pop) =
      (Mpmc.next (.unbounded C) s.queue (.worker i, .pop)).map (Mpmc.toWord w) := Mpmc.next_word h _
  unfold workerStep
  rw [hWorker]
  cases s.worker i with
  | acquire =>
    simp only [hAvailable, hPop]
    split_ifs
    · cases Mpmc.next (.unbounded C) s.queue (.worker i, .pop) <;> rfl
    · rfl
  | checkStop =>
    simp only [hStop]
    split_ifs <;> rfl
  | _ => rfl

omit [DecidableEq τ] in
theorem finish_word (i : Fin n) (throws : Bool) :
    finish (s.map (BitVec.ofNat w)) i throws = (finish s i throws).map (toWord w) := by
  have hWorker : (s.map (BitVec.ofNat w)).worker i = s.worker i := rfl
  have hClient : (s.map (BitVec.ofNat w)).client (.worker i) = s.client (.worker i) := rfl
  unfold finish
  rw [hWorker, hClient]
  cases s.worker i <;> cases s.client (.worker i) <;> try rfl
  dsimp only
  split_ifs <;> rfl

omit [DecidableEq τ] in
theorem closerStep_word : closerStep (s.map (BitVec.ofNat w)) = (closerStep s).map (toWord w) := by
  have hCloser : (s.map (BitVec.ofNat w)).closer = s.closer := rfl
  have hMutex : (s.map (BitVec.ofNat w)).lifecycleMutex = s.lifecycleMutex := rfl
  have hAccepting : (s.map (BitVec.ofNat w)).accepting = s.accepting := rfl
  have hCleared : (s.map (BitVec.ofNat w)).cleared = s.cleared := rfl
  have hWorker : (s.map (BitVec.ofNat w)).worker = s.worker := rfl
  unfold closerStep
  rw [hCloser]
  cases s.closer with
  | lock | exchange | requestStop | join =>
    simp only [hMutex, hAccepting, hCleared, hWorker]
    split_ifs <;> rfl
  | _ => rfl

/-- On small counters the word machine takes the unbounded machine's step. -/
theorem next_word (h : Mpmc.Bounded w s.queue) (label : Label n τ) :
    next (.word C w) (s.map (BitVec.ofNat w)) label = (next (.unbounded C) s label).map
    (toWord w) := by
  cases label with
  | submit t empty => exact submit_word t empty
  | client t => exact clientStep_word h t
  | queue t spurious => exact queueStep_word h t spurious
  | worker i => exact workerStep_word h i
  | finish i throws => exact finish_word i throws
  | takeErrors => rfl
  | closer => exact closerStep_word
  | shutdown =>
    have hCloser : (s.map (BitVec.ofNat w)).closer = s.closer := rfl
    simp only [next, hCloser]
    split_ifs <;> rfl

/-- A run of the word machine that has claimed few positions is a run of the
unbounded machine. -/
theorem reaches_unbounded {s : State n τ (BitVec w) C} {trace : List (Event n τ (BitVec w))}
    (h : (machine n τ (.word C w)).Reaches s trace)
    (hBound : (Mpmc.pushes (queueTrace trace)).length + C.val < 2 ^ (w - 1)) :
    ∃ ideal history, (machine n τ (.unbounded C)).Reaches ideal history ∧
      s = ideal.map (BitVec.ofNat w) ∧ trace = history.map (Event.map (BitVec.ofNat w)) := by
  refine h.lift (State.map (BitVec.ofNat w)) (Event.map (BitVec.ofNat w))
    (fun trace => (Mpmc.pushes (queueTrace trace)).length + C.val < 2 ^ (w - 1)) ?_ rfl ?_ hBound
  · intro trace events hSmall
    rw [queueTrace_append, Mpmc.pushes_append, List.length_append] at hSmall
    omega
  · intro ideal history hReaches hSmall label
    rw [queueTrace_map, Mpmc.pushes_map, List.length_map] at hSmall
    exact next_word ((known_of_reaches hReaches).linked.queue.bounded hSmall) label

end Simulation

/-- The pool runs every accepted task exactly once and drains before `shutdown`
returns, under every interleaving. With counters of `w` bits this holds while
fewer than `2 ^ (w - 1) - kQueueSize` tasks have been pushed. -/
theorem exactly_once [DecidableEq τ] (hn : 0 < n) :
    (∀ (s : State n τ Nat C) (trace : _), (machine n τ (.unbounded C)).Reaches s trace →
      ExactlyOnce s trace) ∧
    (∀ (w : Nat) (s : State n τ (BitVec w) C) (trace : _), (machine n τ (.word C w)).Reaches s trace
      → (Mpmc.pushes (queueTrace trace)).length < 2 ^ (w - 1) - C.val → ExactlyOnce s trace) := by
  constructor
  · intro s trace h
    exact exactlyOnce_of_reaches hn h
  · intro w s trace h hBound
    obtain ⟨ideal, history, hReaches, rfl, rfl⟩ := reaches_unbounded h (by omega)
    exact (exactlyOnce_of_reaches hn hReaches).map (BitVec.ofNat w)

/-- One worker: a task that throws is accepted, run and drained by `shutdown`, its
exception is taken, and a later submission is refused. -/
theorem exactly_once_one_worker :
    ∃ (s : State 1 Unit (BitVec 64) ⟨2, by decide, by decide⟩) (trace : _),
      (machine 1 Unit (.word ⟨2, by decide, by decide⟩ 64)).Reaches s trace ∧
      trace = [.queue (.pushClaimed (.client ()) 0 0), .queue (.pushReturned (.client ()) 0),
        .submitted (.client ()) 0 true, .queue (.popClaimed (.worker 0) 0),
        .queue (.popReturned (.worker 0) 0 (some 0)), .started 0 (some 0), .finished 0
          (some 0) true,
        .queue (.popEmpty (.worker 0)), .shutdownReturned, .tookErrors [some 0],
        .submitted (.client ()) 1 false] ∧
      ExactlyOnce s trace := by
  let labels : List (Label 1 Unit) :=
    [.submit (.client ()) false, .client (.client ()), .client (.client ()), .queue (.client ())
      false, .queue (.client ()) false, .queue (.client ()) false, .queue (.client ()) false,
      .queue (.client ()) false, .client (.client ()), .client (.client ()), .worker 0,
      .queue (.worker 0) false, .queue (.worker 0) false, .queue (.worker 0) false,
      .queue (.worker 0) false, .queue (.worker 0) false, .finish 0 true, .worker 0, .shutdown,
      .closer,
      .closer, .closer, .closer, .closer, .closer, .worker 0, .queue (.worker 0) false,
      .queue (.worker 0) false, .worker 0, .closer, .closer, .takeErrors, .submit (.client ())
      false,
      .client (.client ()), .client (.client ()), .client (.client ())]
  have hRun : ((machine 1 Unit (.word ⟨2, by decide, by decide⟩ 64)).run
      (machine 1 Unit (.word ⟨2, by decide, by decide⟩ 64)).start labels).map Prod.snd =
        some [.queue (.pushClaimed (.client ()) 0 0), .queue (.pushReturned (.client ()) 0),
          .submitted (.client ()) 0 true, .queue (.popClaimed (.worker 0) 0),
          .queue (.popReturned (.worker 0) 0 (some 0)), .started 0 (some 0), .finished 0 (some 0)
          true,
          .queue (.popEmpty (.worker 0)), .shutdownReturned, .tookErrors [some 0],
          .submitted (.client ()) 1 false] := by decide +kernel
  obtain ⟨⟨s, trace⟩, hRun, rfl⟩ := Option.map_eq_some_iff.mp hRun
  have hReaches := Machine.Reaches.start.run hRun
  exact ⟨s, _, hReaches, rfl, (exactly_once (by decide)).2 64 s _ hReaches (by decide)⟩

end Tinycoro.ThreadPool
