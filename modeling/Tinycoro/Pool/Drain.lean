import Tinycoro.Pool.Linked
import Tinycoro.Library.Tally
import Mathlib.Algebra.BigOperators.Fin
import Mathlib.Algebra.Order.BigOperators.Group.Finset

/-! Why a worker that finds the queue empty may leave. Submission happens under
the lifecycle mutex, so at most one push is between claiming its position and
publishing it. Permits of the semaphore are counted against the positions of the
queue: a permit exists for every published task that no pop has claimed, and a
pop comes back empty only on one of the permits that `shutdown` released, with
nothing left to claim. -/
namespace Tinycoro.ThreadPool

open Transition

variable {n : Nat} {τ κ : Type} {C : Ring.Size}

def Client.inside : Client → Bool
  | .check _ | .push _ | .release _ | .unlock _ _ => true
  | _ => false

def Closer.inside : Closer → Bool
  | .exchange | .requestStop _ | .release | .unlock => true
  | _ => false

/-- The closing thread has closed the pool and not yet released its permits. -/
def Closer.stopping : Closer → Bool
  | .requestStop _ | .release => true
  | _ => false

/-- How many stop tokens a closed pool has been asked to set. -/
def Closer.flagged (n : Nat) : Closer → Nat
  | .requestStop i => i
  | _ => n

theorem Closer.flagged_of_not_stopping {closer : Closer} (h : closer.stopping = false) :
    closer.flagged n = n := by
  cases closer <;> first | rfl | cases h

/-- `shutdown` has closed the pool and released a permit for every worker. -/
def Released (s : State n τ κ C) : Prop := s.accepting = false ∧ s.closer.stopping = false

/-- The lifecycle mutex is held by whoever is between locking and unlocking it,
and a closed pool has no submission under way. -/
structure Gate (s : State n τ κ C) : Prop where
  client : ∀ t, (s.client t).inside = true → s.lifecycleMutex = some t
  closer : s.closer.inside = true → s.lifecycleMutex = some .closer
  idle : s.client .closer = .idle
  closing : s.closer.stopping = true → s.accepting = false
  refused : s.accepting = false → ∀ t task, s.client t ≠ .push task ∧ s.client t ≠ .release task
  stops : s.accepting = false → ∀ i : Fin n, i.val < s.closer.flagged n → s.stopRequested i = true

variable [DecidableEq τ]

section Gate

variable {s s' : State n τ Nat C} {events : List (Event n τ Nat)} {t : Thread n τ}

theorem gate_start : Gate (machine n τ (.unbounded C)).start where
  client := fun _ h => by simp [machine, Client.inside] at h
  closer := fun h => by simp [machine, Closer.inside] at h
  idle := rfl
  closing := fun h => by simp [machine, Closer.stopping] at h
  refused := fun h => by simp [machine] at h
  stops := fun h => by simp [machine] at h

theorem Gate.client_step (gate : Gate s) (h : Step s t s' events) {u : Thread n τ}
    (hu : (s'.client u).inside = true) : s'.lifecycleMutex = some u := by
  have hClient := gate.client u
  have hHolder := gate.client t
  have hCloser := gate.closer
  have hIdle := gate.idle
  cases h <;> grind -ring -linarith [Function.update_apply, Client.inside, Closer.inside]

theorem Gate.closer_step (gate : Gate s) (h : Step s t s' events) (hc : s'.closer.inside = true) :
    s'.lifecycleMutex = some .closer := by
  have hHolder := gate.client t
  have hCloser := gate.closer
  have hIdle := gate.idle
  cases h <;> grind -ring -linarith [Closer.inside, Client.inside]

theorem Gate.idle_step (gate : Gate s) (h : Step s t s' events) : s'.client .closer = .idle := by
  have hIdle := gate.idle
  cases h with
  | submit hMay =>
    obtain ⟨-, hOther, -⟩ := mayCall_iff hMay
    exact (Function.update_of_ne hOther.symm ..).trans hIdle
  | _ => grind -ring -linarith [Function.update_apply]

theorem Gate.refused_step (gate : Gate s) (h : Step s t s' events) (hClosed : s'.accepting = false)
    (u : Thread n τ) (task : Nat) : s'.client u ≠ .push task ∧ s'.client u ≠ .release task := by
  have hRefused := gate.refused
  have hClient := gate.client u
  have hCloser := gate.closer
  have hIdle := gate.idle
  cases h <;> grind -ring -linarith [Function.update_apply, Client.inside, Closer.inside]

theorem Gate.closing_step (gate : Gate s) (h : Step s t s' events)
    (hStopping : s'.closer.stopping = true) : s'.accepting = false := by
  have hClosing := gate.closing
  cases h <;> grind -ring -linarith [Closer.stopping]

theorem Gate.stops_step (gate : Gate s) (h : Step s t s' events) (hClosed : s'.accepting = false)
    (i : Fin n) (hFlagged : i.val < s'.closer.flagged n) : s'.stopRequested i = true := by
  have hStops := gate.stops
  have hClosing := gate.closing
  cases h <;> grind -ring -linarith [Function.update_apply, Closer.flagged, Closer.stopping]

theorem Gate.step (gate : Gate s) (h : Step s t s' events) : Gate s' where
  client := fun _ => gate.client_step h
  closer := gate.closer_step h
  idle := gate.idle_step h
  closing := gate.closing_step h
  refused := gate.refused_step h
  stops := gate.stops_step h

end Gate

/-- The permit of a worker that no task answers for: its pop has claimed nothing
yet, or has come back empty. -/
def held (s : State n τ κ C) (i : Fin n) : Nat :=
  match s.worker i with
  | .pop => if (s.queue.pc (.worker i)).outside then 1 else 0
  | .checkStop | .returned => 1
  | _ => 0

/-- The position a submission has claimed without having released its permit. -/
def unpaid (s : State n τ κ C) (t : Thread n τ) : Nat :=
  match s.client t with
  | .push _ => if (s.queue.pc t).outside then 0 else 1
  | .release _ => 1
  | _ => 0

/-- Only the holder of the lifecycle mutex can be submitting. -/
def pending (s : State n τ κ C) : Nat :=
  match s.lifecycleMutex with
  | some t => unpaid s t
  | none => 0

/-- The permits `shutdown` has released. -/
def bonus (s : State n τ κ C) : Nat := if s.accepting || s.closer.stopping then 0 else n

/-- Every permit is for a position that no pop has claimed, or from `shutdown`. -/
def Balanced (s : State n τ Nat C) : Prop :=
  s.available + s.queue.queue.dequeuePos + ∑ i, held s i + pending s = s.queue.queue.enqueuePos +
  bonus s

/-- `shutdown` has released its permits and every task has been claimed. -/
def Drained (s : State n τ Nat C) : Prop :=
  Released s ∧ s.queue.queue.enqueuePos = s.queue.queue.dequeuePos

/-- What is known about the permits. The newest push is the only one inside the
queue, and a worker that has found it empty does so after the last push. -/
structure Permits (s : State n τ Nat C) : Prop where
  latest : ∀ {t p}, Mpmc.Pushing (s.queue.pc t) p → s.queue.queue.enqueuePos = p + 1
  balanced : Balanced s
  drained : ∀ {i}, s.worker i = .checkStop ∨ s.worker i = .returned → Drained s

section Permits

variable {s s' : State n τ Nat C} {trace : List (Mpmc.Event (Thread n τ) Nat Nat)}
    {events : List (Event n τ Nat)} {t : Thread n τ}

theorem permits_start : Permits (machine n τ (.unbounded C)).start where
  latest := fun h => by simp [machine, Mpmc.Pushing] at h
  balanced := by simp [Balanced, machine, held, pending, bonus, Mpmc.MPMCQueue.create,
    Mpmc.SizeT.unbounded]
  drained := fun h => by simp [machine] at h

variable {p : Nat} {i : Fin n}

omit [DecidableEq τ] in
theorem Linked.client_of_pushing (linked : Linked s trace) (h : Mpmc.Pushing (s.queue.pc t) p) :
    ∃ task, s.client t = .push task := by
  cases linked.mode t with
  | outside _ _ _ hPc => simp [hPc, Mpmc.Pushing] at h
  | pushing hClient => exact ⟨_, hClient⟩
  | popping _ _ _ hPc =>
    rcases h with ⟨val, hPush⟩ | hPush <;> simp [hPush, PopOf] at hPc

omit [DecidableEq τ] in
/-- A worker outside its task is not submitting. -/
theorem Linked.idle_of_worker (linked : Linked s trace) (hWorker : ∀ task, s.worker i ≠ .run task) :
    s.client (.worker i) = .idle := by
  cases linked.mode (.worker i) with
  | outside _ _ hTask =>
    by_contra hClient
    obtain ⟨task, hRun⟩ := hTask i rfl hClient
    exact hWorker task hRun
  | pushing _ hTask =>
    obtain ⟨task, hRun⟩ := hTask i rfl
    exact absurd hRun (hWorker task)
  | popping _ _ hIdle => exact hIdle

omit [DecidableEq τ] in
/-- Two threads that push are the same: both hold the lifecycle mutex. -/
theorem Gate.eq_of_push (gate : Gate s) {u : Thread n τ} {task other : Nat}
    (ht : s.client t = .push task) (hu : s.client u = .push other) : t = u := by
  have hFirst := gate.client t (by rw [ht]; rfl)
  have hSecond := gate.client u (by rw [hu]; rfl)
  rw [hFirst] at hSecond
  exact Option.some.inj hSecond

/-- A step of the pool claims a position for a push, or leaves `enqueuePos` and
brings no thread inside a push. -/
theorem Step.enqueue (h : Step s t s' events) :
    (∃ task, s.client t = .push task ∧ ∀ p, Mpmc.Pushing (s'.queue.pc t) p →
      s'.queue.queue.enqueuePos = p + 1) ∨
    (s'.queue.queue.enqueuePos = s.queue.queue.enqueuePos ∧
      ∀ p, Mpmc.Pushing (s'.queue.pc t) p → Mpmc.Pushing (s.queue.pc t) p) := by
  cases h with
  | pushClaimed hClient _ hStep =>
    left
    refine ⟨_, hClient, ?_⟩
    cases hStep
    simp [Mpmc.Pushing, Mpmc.SizeT.unbounded]
  | queueSilent hStep => exact .inr ⟨hStep.silent.1, hStep.silent.2.2.2⟩
  | pushReturned _ _ hStep | pushFull _ _ hStep | popClaimed _ _ hStep | popReturned _ _ hStep
  | popEmpty _ _ hStep =>
    right
    cases hStep
    simp [Mpmc.Pushing, Mpmc.MPMCQueue.setSequence]
  | callPush | acquire => exact .inr ⟨rfl, by simp [Mpmc.Pushing]⟩
  | _ => exact .inr ⟨rfl, fun _ => id⟩

theorem Permits.latest_step (permits : Permits s) (linked : Linked s trace) (gate : Gate s)
    (h : Step s t s' events) {u : Thread n τ} (hu : Mpmc.Pushing (s'.queue.pc u) p) :
    s'.queue.queue.enqueuePos = p + 1 := by
  by_cases hSame : u = t
  · subst hSame
    rcases h.enqueue with ⟨task, -, hLatest⟩ | ⟨hEq, hBefore⟩
    · exact hLatest p hu
    · rw [hEq]
      exact permits.latest (hBefore p hu)
  · rw [(h.frame hSame).2.1] at hu
    rcases h.enqueue with ⟨task, hClient, -⟩ | ⟨hEq, -⟩
    · obtain ⟨other, hPush⟩ := linked.client_of_pushing hu
      exact absurd (gate.eq_of_push hPush hClient) hSame
    · rw [hEq]
      exact permits.latest hu

omit [DecidableEq τ] in
/-- The permits of the workers are not touched by a step that leaves the workers
and their pops where they are. -/
theorem sum_held_congr (hWorker : s'.worker = s.worker)
    (hPc : ∀ i, s.worker i = .pop → s'.queue.pc (.worker i) = s.queue.pc (.worker i)) :
    ∑ i, held s' i = ∑ i, held s i := by
  apply Finset.sum_congr rfl
  intro i _
  unfold held
  rw [hWorker]
  cases hPop : s.worker i with
  | pop => simp only [hPc i hPop]
  | _ => rfl

/-- The permits of the workers when one of them moves. -/
theorem sum_held_worker (h : Step s (.worker i) s' events) :
    ∑ j, held s' j + held s i = ∑ j, held s j + held s' i := by
  apply Tally.sum_add_of_eq_off
  intro j hj
  obtain ⟨-, hPc, hWorker⟩ := h.frame (u := .worker j) (by simpa using hj)
  unfold held
  rw [hWorker j rfl, hPc]

omit [DecidableEq τ] in
theorem pending_congr (hClient : s'.client = s.client)
    (hMutex : s'.lifecycleMutex = s.lifecycleMutex)
    (hPc : ∀ u task, s.client u = .push task → s'.queue.pc u = s.queue.pc u) :
    pending s' = pending s := by
  unfold pending
  rw [hMutex]
  cases s.lifecycleMutex with
  | none => rfl
  | some u =>
    dsimp only [unpaid]
    rw [hClient]
    cases hPush : s.client u with
    | push task => simp only [hPc u task hPush]
    | _ => rfl

/-- A submitting thread is not in `pop`. -/
theorem Linked.sum_held_client (linked : Linked s trace) (h : Step s t s' events)
    (hClient : s.client t ≠ .idle) (hWorker : s'.worker = s.worker) :
    ∑ i, held s' i = ∑ i, held s i := by
  refine sum_held_congr hWorker ?_
  intro i hPop
  apply (h.frame _).2.1
  rintro rfl
  exact hClient (linked.idle_of_worker (by simp [hPop]))

theorem Linked.pending_worker (linked : Linked s trace) (h : Step s (.worker i) s' events)
    (hWorker : ∀ task, s.worker i ≠ .run task) (hClient : s'.client = s.client)
    (hMutex : s'.lifecycleMutex = s.lifecycleMutex) : pending s' = pending s := by
  refine pending_congr hClient hMutex ?_
  intro u task hPush
  apply (h.frame _).2.1
  rintro rfl
  simp [linked.idle_of_worker hWorker] at hPush

omit [DecidableEq τ] in
/-- The balance follows from what a step changes on each account. -/
theorem Balanced.of_changes (balanced : Balanced s) {w w' p' : Nat}
    (hHeld : ∑ i, held s' i + w = ∑ i, held s i + w') (hPending : pending s' + p = pending s + p')
    (hRest : s'.available + s'.queue.queue.dequeuePos + w' + p' + s.queue.queue.enqueuePos +
      bonus s = s.available + s.queue.queue.dequeuePos + w + p +
        s'.queue.queue.enqueuePos + bonus s') : Balanced s' := by
  unfold Balanced at balanced ⊢
  omega

/-- A step of the thread that holds the lifecycle mutex for `submit`. -/
theorem Balanced.holder (balanced : Balanced s) (linked : Linked s trace) (gate : Gate s)
    (h : Step s t s' events) (hInside : (s.client t).inside = true) (hWorker : s'.worker = s.worker)
    (hMutex : s'.lifecycleMutex = s.lifecycleMutex)
    (hRest : s'.available + s'.queue.queue.dequeuePos + unpaid s' t + s.queue.queue.enqueuePos +
      bonus s = s.available + s.queue.queue.dequeuePos + unpaid s t +
        s'.queue.queue.enqueuePos + bonus s') : Balanced s' := by
  have hHolder := gate.client t hInside
  have hHeld := linked.sum_held_client h (by intro hIdle; simp [hIdle, Client.inside] at hInside)
      hWorker
  have hPending : pending s' + unpaid s t = pending s + unpaid s' t := by
    simp only [pending, hMutex, hHolder, Nat.add_comm]
  exact balanced.of_changes (congrArg (· + 0) hHeld) hPending (by omega)

/-- A step of a worker outside its task. -/
theorem Balanced.worker (balanced : Balanced s) (linked : Linked s trace)
    (h : Step s (.worker i) s' events) (hWorker : ∀ task, s.worker i ≠ .run task)
    (hClient : s'.client = s.client) (hMutex : s'.lifecycleMutex = s.lifecycleMutex)
    (hRest : s'.available + s'.queue.queue.dequeuePos + held s' i + s.queue.queue.enqueuePos +
      bonus s = s.available + s.queue.queue.dequeuePos + held s i +
        s'.queue.queue.enqueuePos + bonus s') : Balanced s' := by
  have hPending := linked.pending_worker h hWorker hClient hMutex
  exact balanced.of_changes (sum_held_worker h) (congrArg (· + 0) hPending) (by omega)

omit [DecidableEq τ] in
/-- A step outside the queue that moves no worker. -/
theorem Balanced.outside (balanced : Balanced s) (hWorker : s'.worker = s.worker)
    (hQueue : s'.queue = s.queue) (hPending : pending s' = pending s)
    (hRest : s'.available + bonus s = s.available + bonus s') : Balanced s' := by
  have hHeld : ∑ i, held s' i = ∑ i, held s i := sum_held_congr hWorker (fun _ _ => by rw [hQueue])
  exact balanced.of_changes (congrArg (· + 0) hHeld) (congrArg (· + 0) hPending)
    (by rw [hQueue]; omega)

/-- Permits and tasks stay in balance: a permit is released for each task behind its push, and
taken before each pop. -/
theorem Permits.balanced_step (permits : Permits s) (linked : Linked s trace) (gate : Gate s)
    (h : Step s t s' events) : Balanced s' := by
  have balanced := permits.balanced
  have hHolder := balanced.holder linked gate h
  have hWorking : ∀ i, t = .worker i → _ := fun i hi => (hi ▸ balanced.worker linked (i := i)) h
  have hChanged : ∀ {i}, t = .worker i → ∑ j, held s' j + held s i = ∑ j, held s j + held s' i :=
    fun hi => sum_held_worker (hi ▸ h)
  have hOutside : s'.worker = s.worker → s'.queue = s.queue → pending s' = pending s →
      s'.available + bonus s = s.available + bonus s' → Balanced s' := balanced.outside
  have hSame : s'.client = s.client → s'.lifecycleMutex = s.lifecycleMutex → s'.queue = s.queue →
      pending s' = pending s :=
    fun hClient hMutex hQueue => pending_congr hClient hMutex (fun _ _ _ => by rw [hQueue])
  cases h with
  | submitEmpty | takeErrors => exact balanced
  | submit hMay =>
    refine hOutside rfl rfl ?_ rfl
    have hIdle := (mayCall_iff hMay).1
    cases hMutex : s.lifecycleMutex <;>
      grind -ring -linarith [pending, unpaid, Function.update_apply]
  | lock hClient hFree => exact hOutside rfl rfl (by simp [pending, hFree, unpaid]) rfl
  | unlock hClient =>
    have hMutex := gate.client t (by rw [hClient]; rfl)
    exact hOutside rfl rfl (by simp [pending, hMutex, unpaid, hClient]) rfl
  | refuse hClient =>
    exact hHolder (by rw [hClient]; rfl) rfl rfl (by simp [unpaid, hClient, bonus])
  | callPush hClient =>
    exact hHolder (by rw [hClient]; rfl) rfl rfl (by simp [unpaid, hClient, bonus, Mpmc.Pc.outside])
  | release hClient =>
    refine hHolder (by rw [hClient]; rfl) rfl rfl ?_
    simp only [unpaid, hClient, Function.update_self, bonus]
    omega
  | pushClaimed hClient hPc hStep =>
    refine hHolder (by rw [hClient]; rfl) rfl rfl ?_
    cases hStep with
    | pushClaim _ hPos =>
      simp [unpaid, hClient, hPc, bonus, Mpmc.Pc.outside, Mpmc.SizeT.unbounded, hPos]
      omega
  | pushReturned hClient hPc hStep | pushFull hClient hPc hStep =>
    refine hHolder (by rw [hClient]; rfl) rfl rfl ?_
    cases hStep
    simp [unpaid, hClient, hPc, bonus, Mpmc.Pc.outside, Mpmc.MPMCQueue.setSequence]
  | popClaimed hWorker hPc hStep =>
    refine hWorking _ rfl (by simp [hWorker]) rfl rfl ?_
    cases hStep with
    | popClaim _ hPos =>
      simp [held, hWorker, hPc, bonus, Mpmc.Pc.outside, Mpmc.SizeT.unbounded, hPos]
      omega
  | popReturned hWorker hPc hStep | popEmpty hWorker hPc hStep =>
    refine hWorking _ rfl (by simp [hWorker]) rfl rfl ?_
    cases hStep
    simp [held, hWorker, hPc, bonus, Mpmc.Pc.outside, Mpmc.MPMCQueue.setSequence]
  | acquire hWorker =>
    refine hWorking _ rfl (by simp [hWorker]) rfl rfl ?_
    simp [held, hWorker, bonus, Mpmc.Pc.outside]
    omega
  | handle hWorker | stop hWorker =>
    exact hWorking _ rfl (by simp [hWorker]) rfl rfl (by simp [held, hWorker, bonus])
  | @again i hWorker hStop =>
    -- an empty pop means that the stop token has been set
    obtain ⟨⟨hClosed, hReleased⟩, -⟩ := permits.drained (.inl hWorker)
    have hSet := gate.stops hClosed i
      (by rw [Closer.flagged_of_not_stopping hReleased]; exact i.isLt)
    simp [hStop] at hSet
  | throw hWorker | complete hWorker =>
    refine balanced.of_changes (hChanged rfl) (congrArg (· + 0) (hSame rfl rfl rfl)) ?_
    simp [held, hWorker, bonus]
  | @queueSilent _ queue hStep =>
    obtain ⟨hEnqueue, hDequeue, hOwns, -⟩ := hStep.silent
    have hAll : ∀ u, (queue.pc u).outside = (s.queue.pc u).outside := by
      intro u
      by_cases hu : u = t
      · rw [hu, hOwns]
      · rw [hStep.pc_of_ne hu]
    simpa only [Balanced, held, pending, unpaid, bonus, hAll, hEnqueue, hDequeue] using balanced
  | closerLock hCloser hFree =>
    exact hOutside rfl rfl (by simp [pending, hFree, unpaid, gate.idle])
      (by simp [bonus, hCloser, Closer.stopping])
  | closerUnlock hCloser =>
    have hMutex := gate.closer (by rw [hCloser]; rfl)
    exact hOutside rfl rfl (by simp [pending, hMutex, unpaid, gate.idle])
      (by simp [bonus, hCloser, Closer.stopping])
  | releaseAll hCloser =>
    have hClosed := gate.closing (by rw [hCloser]; rfl)
    exact hOutside rfl rfl (hSame rfl rfl rfl) (by simp [bonus, hCloser, hClosed, Closer.stopping])
  | callShutdown hCloser | requestStop hCloser | stopRequested hCloser | join hCloser
  | joined hCloser =>
    exact hOutside rfl rfl (hSame rfl rfl rfl) (by simp [bonus, hCloser, Closer.stopping])
  | close hCloser hAccepting | closedBefore hCloser hAccepting =>
    exact hOutside rfl rfl (hSame rfl rfl rfl)
      (by simp [bonus, hCloser, hAccepting, Closer.stopping])

/-- A pool whose permits are out stays so. -/
theorem Released.step (released : Released s) (h : Step s t s' events) : Released s' := by
  obtain ⟨hClosed, hStopping⟩ := released
  cases h <;> simp_all [Released, Closer.stopping]

omit [DecidableEq τ] in
theorem released_of_bonus (h : 1 ≤ bonus s) : Released s := by
  unfold bonus at h
  split_ifs at h with hNot
  · omega
  · simpa [Released] using hNot

omit [DecidableEq τ] in
/-- A push between claiming and publishing is what its caller has not paid for. -/
theorem Gate.pending_of_pushing (gate : Gate s) (linked : Linked s trace)
    (h : Mpmc.Pushing (s.queue.pc t) p) : pending s = 1 := by
  obtain ⟨task, hClient⟩ := linked.client_of_pushing h
  have hMutex := gate.client t (by rw [hClient]; rfl)
  rcases h with ⟨val, hPc⟩ | hPc <;> simp [pending, hMutex, unpaid, hClient, hPc, Mpmc.Pc.outside]

omit [DecidableEq τ] in
/-- A pop comes back empty only on a permit of `shutdown`, with every task claimed:
the permit it holds is matched by no position. -/
theorem Permits.empty (permits : Permits s) (linked : Linked s trace) (gate : Gate s) {pos : Nat}
    (hWorker : s.worker i = .pop) (hPc : s.queue.pc (.worker i) = .popSequence pos)
    (hSeq : s.queue.sequenceAt pos ≤ pos) : Drained s := by
  have balanced := permits.balanced
  unfold Balanced at balanced
  have hHeld : 1 ≤ ∑ j, held s j := by
    have hOne : held s i = 1 := by simp [held, hWorker, hPc, Mpmc.Pc.outside]
    rw [← hOne]
    exact Finset.single_le_sum (fun _ _ => Nat.zero_le _) (Finset.mem_univ i)
  rcases linked.queue.empty hPc hSeq with hEq | ⟨u, hPushing⟩
  · exact ⟨released_of_bonus (by omega), hEq⟩
  · -- the push has no permit out yet, so the one in hand comes from shutdown, which waits for it
    have hLatest := permits.latest hPushing
    have hPending := gate.pending_of_pushing linked hPushing
    have hReleased := released_of_bonus (show 1 ≤ bonus s by omega)
    obtain ⟨task, hClient⟩ := linked.client_of_pushing hPushing
    exact absurd hClient (gate.refused hReleased.1 u task).1

/-- A drained pool stays drained: no submission gets in, and there is nothing to
claim. -/
theorem Drained.step (drained : Drained s) (linked : Linked s trace) (gate : Gate s)
    (h : Step s t s' events) : Drained s' := by
  obtain ⟨hReleased, hEq⟩ := drained
  refine ⟨hReleased.step h, ?_⟩
  cases h with
  | pushClaimed hClient => exact absurd hClient (gate.refused hReleased.1 _ _).1
  | @popClaimed i _ _ _ hPc hStep =>
    have hKnown := linked.queue.thread (.worker i)
    rw [hPc] at hKnown
    cases hStep with
    | popClaim _ hPos =>
      subst hPos
      have hBehind := (linked.queue.full_of_exchange hKnown.2).2.1
      omega
  | queueSilent hStep => rw [hStep.silent.1, hStep.silent.2.1, hEq]
  | pushReturned _ _ hStep | pushFull _ _ hStep | popReturned _ _ hStep | popEmpty _ _ hStep =>
    cases hStep
    exact hEq
  | _ => exact hEq

/-- A worker arrives at its stop token from an empty pop. -/
theorem Step.checkStop_of_step (h : Step s t s' events)
    (hi : s'.worker i = .checkStop ∨ s'.worker i = .returned) :
    s.worker i = .checkStop ∨ s.worker i = .returned ∨
      ∃ pos, s.worker i = .pop ∧ s.queue.pc (.worker i) = .popSequence pos ∧
      s.queue.sequenceAt pos ≤ pos := by
  cases h with
  | @popEmpty j pos _ hWorker hPc hStep =>
    by_cases hj : i = j
    · subst hj
      refine .inr (.inr ⟨pos, hWorker, hPc, ?_⟩)
      cases hStep with
      | popEmpty hPos hDiff =>
        cases hPos.symm.trans hPc
        have hBehind : ((s.queue.sequenceAt pos : Nat) : Int) - ((pos + 1 : Nat) : Int) < 0 := hDiff
        omega
    · grind -ring -linarith [Function.update_apply]
  | _ => grind -ring -linarith [Function.update_apply]

theorem Permits.step (permits : Permits s) (linked : Linked s trace) (gate : Gate s)
    (h : Step s t s' events) : Permits s' where
  latest := permits.latest_step linked gate h
  balanced := permits.balanced_step linked gate h
  drained := by
    intro i hi
    apply Drained.step _ linked gate h
    rcases h.checkStop_of_step hi with hOld | hOld | ⟨pos, hWorker, hPc, hSeq⟩
    · exact permits.drained (.inl hOld)
    · exact permits.drained (.inr hOld)
    · exact permits.empty linked gate hWorker hPc hSeq

end Permits

end Tinycoro.ThreadPool
