import Tinycoro.Library.History
import Tinycoro.Pool.Construction
import Tinycoro.Queue.MpmcWord
import Mathlib.Tactic.IntervalCases

/-! What the workers use while a failed construction unwinds. Nobody passes the semaphore
before the catch block releases it, and then every stop is requested and the queue is
empty: a worker that passes it returns. So everything but the semaphore itself is safe. -/
namespace Tinycoro.ThreadPool

open Transition History
open Mpmc (SizeT word_index word_diff word_add)

variable {n : Nat} {τ κ : Type} {C : Ring.Size} [DecidableEq τ] [DecidableEq κ]

/-- The events that keep to the order: a member other than the semaphore is not used once it
is destroyed, and the queue is destroyed after all workers have returned. -/
def InOrder (past : List (BuildEvent n)) : BuildEvent n → Prop
  | .used _ m => m ≠ .available → .destroyed m ∉ past
  | .destroyed .queue => ∀ i, .started i ∈ past → .returned i ∈ past
  | _ => True

/-- A member that workers use is destroyed after every worker that was started has
returned. -/
def ReturnedFirst (past : List (BuildEvent n)) : BuildEvent n → Prop
  | .destroyed .workers | .destroyed .lifecycleMutex => True
  | .destroyed _ => ∀ i, .started i ∈ past → .returned i ∈ past
  | _ => True

/-- No member is used once it is destroyed. -/
def NeverLate (past : List (BuildEvent n)) : BuildEvent n → Prop
  | .used _ m => .destroyed m ∉ past
  | _ => True

section Untouched

variable {K : SizeT κ C} {q q' : Mpmc.State (Thread n τ) κ Nat C} {t : Thread n τ}
  {events : List (Mpmc.Event (Thread n τ) κ Nat)}

/-- The first position of a new queue reads as empty. -/
def StartsEmpty (K : SizeT κ C) : Prop :=
  K.diff ((Mpmc.MPMCQueue.create K : Mpmc.MPMCQueue κ Nat C).slots (K.index (K.ofNat 0))).sequence
    (K.add (K.ofNat 0) 1) < 0

/-- Nothing has been pushed, and whoever pops is about to be told so. -/
structure Untouched (K : SizeT κ C) (q : Mpmc.State (Thread n τ) κ Nat C) : Prop where
  queue : q.queue = .create K
  pc : ∀ t, q.pc t = .idle ∨ q.pc t = .popLoad ∨ q.pc t = .popSequence (K.ofNat 0)

omit [DecidableEq κ] in
theorem Untouched.goto (h : Untouched K q) {pc : Mpmc.Pc κ Nat}
    (hPc : pc = .idle ∨ pc = .popLoad ∨ pc = .popSequence (K.ofNat 0)) :
    Untouched K (q.goto t pc q.queue) where
  queue := h.queue
  pc := by
    intro u
    by_cases hu : u = t
    · rw [hu, q.goto_pc_self]
      exact hPc
    · rw [q.goto_pc_of_ne hu]
      exact h.pc u

theorem goto_of_pop (hNext : Mpmc.next K q (t, .pop) = some (q', events)) :
    q' = q.goto t .popLoad q.queue := by
  simp only [Mpmc.next] at hNext
  split at hNext <;> cases hNext
  rfl

/-- A pop of an untouched queue goes on or finds it empty. -/
theorem Untouched.step (h : Untouched K q) (hEmpty : StartsEmpty K) {spurious : Bool}
    (hNext : Mpmc.next K q (t, .step spurious) = some (q', events)) :
    q' = q.goto t (.popSequence (K.ofNat 0)) q.queue ∧ events = [] ∨
      q' = q.goto t .idle q.queue ∧ events = [.popEmpty t] := by
  have hIdle := Mpmc.pc_ne_idle_of_next hNext
  have hQueue := h.queue
  rcases h.pc t with hPc | hPc | hPc
  · exact absurd hPc hIdle
  · left
    rw [Mpmc.next, hPc] at hNext
    cases hNext
    rw [hQueue]
    exact ⟨rfl, rfl⟩
  · right
    rw [StartsEmpty, ← hQueue] at hEmpty
    have hStep : Mpmc.popStep K q t spurious (.popSequence (K.ofNat 0)) =
        some (q.goto t .idle q.queue, [.popEmpty t]) := (if_neg hEmpty.ne).trans (if_pos hEmpty)
    rw [Mpmc.next, hPc, hStep] at hNext
    cases hNext
    exact ⟨rfl, rfl⟩

end Untouched

section Invariant

variable {K : SizeT κ C} {s : Building n τ κ C} {pool : State n τ κ C} {size : Nat}
  {trace events : List (BuildEvent n)}

/-- The event neither starts a worker, is one of its steps, nor destroys a member. -/
def BuildEvent.plain : BuildEvent n → Bool
  | .failed _ | .constructed | .threw => true
  | _ => false

/-- No worker has failed to start. -/
def Constructor.creating : Constructor → Bool
  | .check | .reserve | .create _ => true
  | _ => false

/-- The members that are still to be destroyed. -/
def Constructor.remaining : Constructor → List Member
  | .unwind rest => rest
  | .stop _ rest | .join _ rest => .workers :: rest
  | .thrown => []
  | _ => members.reverse

/-- No worker has passed the semaphore. -/
def Dormant (K : SizeT κ C) (pool : State n τ κ C) : Prop :=
  ∃ accepting stopRequested, pool = { (machine n τ K).start with accepting, stopRequested }

/-- The semaphore has been released, and whoever passes it will return. -/
structure Draining (K : SizeT κ C) (pool : State n τ κ C) (size : Nat) : Prop where
  queue : Untouched K pool.queue
  worker : ∀ i, pool.worker i = .acquire ∨ pool.worker i = .pop ∨ pool.worker i = .checkStop ∨
    pool.worker i = .returned
  popping : ∀ i, pool.queue.pc (.worker i) ≠ .idle → pool.worker i = .pop
  stop : ∀ i : Fin n, i.val < size → pool.stopRequested i = true

/-- The first `k` of the started workers have returned. -/
def AllReturned (pool : State n τ κ C) (size k : Nat) : Prop :=
  ∀ i : Fin n, i.val < size → i.val < k → pool.worker i = .returned

/-- What holds where the constructing thread stands. -/
def StageOk (K : SizeT κ C) (pool : State n τ κ C) (size : Nat) : Constructor → Prop
  | .check | .reserve => pool = (machine n τ K).start ∧ size = 0
  | .create index => pool = (machine n τ K).start ∧ size = index
  | .constructed | .storeAccepting => pool = (machine n τ K).start
  | .requestStop k =>
      Dormant K pool ∧ ∀ i : Fin n, i.val < size → i.val < k → pool.stopRequested i = true
  | .release => Dormant K pool ∧ ∀ i : Fin n, i.val < size → pool.stopRequested i = true
  | .unwind rest => Draining K pool size ∧ (.workers ∈ rest ∨ AllReturned pool size size)
  | .stop k _ => Draining K pool size ∧ AllReturned pool size k
  | .join k _ => Draining K pool size ∧ AllReturned pool size k ∧ k < size
  | .thrown => Draining K pool size ∧ AllReturned pool size size

/-- The invariant of the construction. -/
structure Built (K : SizeT κ C) (s : Building n τ κ C) (trace : List (BuildEvent n)) : Prop where
  stage : StageOk K s.pool s.size s.stage
  gone : ∃ k, s.stage.remaining = members.reverse.drop k ∧
    ∀ m, .destroyed m ∈ trace → m ∈ members.reverse.take k
  started : ∀ i : Fin n, .started i ∈ trace ↔ i.val < s.size
  used : ∀ {i m}, .used i m ∈ trace → i.val < s.size
  failed : ∀ {k}, .failed k ∈ trace → s.size = k ∧ s.stage.creating = false
  returned : ∀ i, s.pool.worker i = .returned → .returned i ∈ trace
  inOrder : Each InOrder trace

theorem Dormant.of_start (h : pool = (machine n τ K).start) : Dormant K pool := ⟨_, _, h⟩

theorem Dormant.worker_eq (h : Dormant K pool) (i : Fin n) : pool.worker i = .acquire := by
  obtain ⟨accepting, stopRequested, rfl⟩ := h
  rfl

/-- What is dormant can be woken once all stops are requested. -/
theorem Dormant.draining (h : Dormant K pool)
    (hStop : ∀ i : Fin n, i.val < size → pool.stopRequested i = true) (available : Nat) :
    Draining K { pool with available } size := by
  obtain ⟨accepting, stopRequested, rfl⟩ := h
  exact ⟨⟨rfl, fun _ => .inl rfl⟩, fun _ => .inl rfl, fun _ hPc => absurd rfl hPc, hStop⟩

theorem StageOk.cases {stage : Constructor} (h : StageOk K pool size stage) :
    Dormant K pool ∨ Draining K pool size := by
  cases stage with
  | check | reserve | create => exact .inl (.of_start h.1)
  | constructed | storeAccepting => exact .inl (.of_start h)
  | requestStop | release => exact .inl h.1
  | unwind | stop | join | thrown => exact .inr h.1

/-- The queue is the last member to go. -/
theorem drop_eq_nil_of_queue {k : Nat} (h : .queue ∈ members.reverse.take k) :
    members.reverse.drop k = [] := by
  by_cases hk : k < 7
  · interval_cases k <;> simp [members] at h
  · exact List.drop_eq_nil_of_le (by simpa [members] using hk)

theorem eq_nil_of_drop {k : Nat} {rest : List Member}
    (h : .queue :: rest = members.reverse.drop k) : rest = [] := by
  by_cases hk : k < 7
  · interval_cases k <;> simp [members] at h
    exact h
  · rw [List.drop_eq_nil_of_le (by simpa [members] using hk)] at h
    cases h

/-- When the queue is gone all workers have returned. -/
theorem Built.joined (h : Built K s trace) (hGone : .destroyed .queue ∈ trace) :
    AllReturned s.pool s.size s.size := by
  obtain ⟨k, hRemaining, hDone⟩ := h.gone
  rw [drop_eq_nil_of_queue (hDone _ hGone)] at hRemaining
  have hStage := h.stage
  cases hCase : s.stage <;> rw [hCase] at hRemaining hStage
    <;> simp [Constructor.remaining, members] at hRemaining
  case unwind rest =>
    subst hRemaining
    exact hStage.2.resolve_left List.not_mem_nil
  case thrown => exact hStage.2

/-- A step of the constructor that destroys nothing and starts nobody. If a worker has
failed to start, the catch block comes next. -/
theorem Built.advance (h : Built K s trace) {stage : Constructor}
    (hWorker : ∀ i, pool.worker i = s.pool.worker i) (hPlain : ∀ e ∈ events, e.plain = true)
    (hFailed : ∀ {k}, .failed k ∈ events → s.size = k ∧ stage.creating = false)
    (hStage : StageOk K pool s.size stage) (hRemaining : stage.remaining = s.stage.remaining)
    (hCreating : s.stage.creating = false → stage.creating = false) :
    Built K { s with pool, stage } (trace ++ events) := by
  have hMem {e : BuildEvent n} (hNot : e.plain = false) : e ∈ trace ++ events ↔ e ∈ trace := by
    rw [List.mem_append, or_iff_left]
    intro hNew
    exact absurd ((hPlain e hNew).symm.trans hNot) nofun
  refine ⟨hStage, ?_, ?_, ?_, ?_, ?_, ?_⟩
  · obtain ⟨k, hEq, hDone⟩ := h.gone
    exact ⟨k, hRemaining.trans hEq, fun m hGone => hDone m ((hMem rfl).mp hGone)⟩
  · intro i
    rw [hMem rfl]
    exact h.started i
  · exact fun hUsed => h.used ((hMem rfl).mp hUsed)
  · intro k hMem
    rcases List.mem_append.mp hMem with hOld | hNew
    · exact ⟨(h.failed hOld).1, hCreating (h.failed hOld).2⟩
    · exact hFailed hNew
  · intro i hReturned
    rw [hWorker] at hReturned
    exact List.mem_append_left _ (h.returned i hReturned)
  · refine each_append.mpr ⟨h.inOrder, ?_⟩
    rintro before e after rfl
    have hE := hPlain e (by simp)
    cases e with
    | failed | constructed | threw => trivial
    | _ => cases hE

/-- Nothing is destroyed before the unwinding. -/
theorem Built.not_destroyed (h : Built K s trace) (hRemaining : s.stage.remaining = members.reverse)
    (m : Member) : .destroyed m ∉ trace := by
  obtain ⟨k, hEq, hDone⟩ := h.gone
  rw [hRemaining] at hEq
  have hLength := congrArg List.length hEq
  rw [List.length_drop] at hLength
  have hFirst : k = 0 := by
    simp only [members, List.length_reverse, List.length_cons, List.length_nil] at hLength
    omega
  intro hMem
  have hTake := hDone m hMem
  rw [hFirst, List.take_zero] at hTake
  cases hTake

/-- A worker starts. -/
theorem Built.start (h : Built K s trace) {index : Nat} (hCreate : s.stage = .create index)
    (hLt : index < n) :
    Built K { s with size := s.size + 1, stage := .create (index + 1) }
      (trace ++ [.started ⟨index, hLt⟩]) := by
  have hStage := h.stage
  rw [hCreate] at hStage
  obtain ⟨hPool, rfl⟩ := hStage
  have hGone := h.not_destroyed (by rw [hCreate]; rfl)
  refine ⟨⟨hPool, rfl⟩, ⟨0, rfl, ?_⟩, ?_, ?_, ?_, ?_, ?_⟩
  · intro m hMem
    exact absurd hMem (by simp [hGone])
  · intro i
    rw [List.mem_append, h.started, List.mem_singleton, BuildEvent.started.injEq, Fin.ext_iff]
    exact Nat.lt_succ_iff_lt_or_eq.symm
  · intro i m hUsed
    exact Nat.lt_succ_of_lt (h.used (m := m) (by simpa using hUsed))
  · intro k hFailed
    have hNot := (h.failed (k := k) (by simpa using hFailed)).2
    rw [hCreate] at hNot
    cases hNot
  · intro i hReturned
    exact List.mem_append_left _ (h.returned i hReturned)
  · exact each_append.mpr ⟨h.inOrder, by simp [InOrder]⟩

/-- The next member is destroyed, `workers_` after its threads have been joined. -/
theorem Built.destroy (h : Built K s trace) {m : Member} {rest : List Member}
    (hRemaining : s.stage.remaining = m :: rest) (hStage : StageOk K s.pool s.size (.unwind rest))
    (hQueue : m = .queue → AllReturned s.pool s.size s.size) :
    Built K { s with stage := .unwind rest } (trace ++ [.destroyed m]) := by
  refine ⟨hStage, ?_, ?_, ?_, ?_, ?_, ?_⟩
  · obtain ⟨k, hEq, hDone⟩ := h.gone
    rw [hRemaining] at hEq
    refine ⟨k + 1, ?_, ?_⟩
    · rw [← List.tail_drop, ← hEq]
      rfl
    · intro other hMem
      rw [List.mem_append, List.mem_singleton, BuildEvent.destroyed.injEq] at hMem
      rw [List.take_add_one, ← List.head?_drop, ← hEq]
      rcases hMem with hMem | rfl
      · exact List.mem_append_left _ (hDone other hMem)
      · exact List.mem_append_right _ (by simp)
  · intro i
    rw [List.mem_append, or_iff_left (by simp)]
    exact h.started i
  · intro i m hUsed
    exact h.used (m := m) (by simpa using hUsed)
  · intro k hFailed
    exact ⟨(h.failed (by simpa using hFailed)).1, rfl⟩
  · intro i hReturned
    exact List.mem_append_left _ (h.returned i hReturned)
  · refine each_append.mpr ⟨h.inOrder, ?_⟩
    rw [each_cons, List.append_nil]
    refine ⟨?_, each_nil⟩
    cases m with
    | queue =>
      intro i hStarted
      have hLt := (h.started i).mp hStarted
      exact h.returned i (hQueue rfl i hLt hLt)
    | _ => trivial

/-- What the constructing thread knows is kept by workers that drain. -/
theorem StageOk.mono {pool' : State n τ κ C} {stage : Constructor} (h : StageOk K pool size stage)
    (hNot : ¬Dormant K pool) (hDraining : Draining K pool' size)
    (hReturned : ∀ i, pool.worker i = .returned → pool'.worker i = .returned) :
    StageOk K pool' size stage := by
  have hJoined {k : Nat} (hJoin : AllReturned pool size k) : AllReturned pool' size k :=
    fun i hi hk => hReturned i (hJoin i hi hk)
  cases stage with
  | check | reserve | create => exact absurd (.of_start h.1) hNot
  | constructed | storeAccepting => exact absurd (.of_start h) hNot
  | requestStop | release => exact absurd h.1 hNot
  | unwind => exact ⟨hDraining, h.2.imp_right hJoined⟩
  | stop | thrown => exact ⟨hDraining, hJoined h.2⟩
  | join => exact ⟨hDraining, hJoined h.2.1, h.2.2⟩

/-- One worker that has passed the semaphore, or passes it now, moves on. -/
theorem Built.work {pool' : State n τ κ C} {i : Fin n} {e : BuildEvent n} (h : Built K s trace)
    (hNot : ¬Dormant K s.pool) (hDraining : Draining K pool' s.size) (hi : i.val < s.size)
    (hOther : ∀ j ≠ i, pool'.worker j = s.pool.worker j) (hOld : s.pool.worker i ≠ .returned)
    (hEvent : (∃ m, e = .used i m) ∨ e = .returned i)
    (hReturned : pool'.worker i = .returned → e = .returned i) (hOrder : InOrder trace e) :
    Built K { s with pool := pool' } (trace ++ [e]) := by
  have hKept (j : Fin n) (hEq : s.pool.worker j = .returned) : pool'.worker j = .returned := by
    rwa [hOther j (fun hj => hOld (hj ▸ hEq))]
  refine ⟨h.stage.mono hNot hDraining hKept, ?_, ?_, ?_, ?_, ?_, ?_⟩
  · obtain ⟨k, hEq, hDone⟩ := h.gone
    refine ⟨k, hEq, fun m hMem => hDone m ?_⟩
    rcases hEvent with ⟨m, rfl⟩ | rfl <;> simpa using hMem
  · intro j
    rw [List.mem_append, or_iff_left]
    · exact h.started j
    · rcases hEvent with ⟨m, rfl⟩ | rfl <;> simp
  · intro j m hUsed
    rcases List.mem_append.mp hUsed with hBefore | hNow
    · exact h.used hBefore
    · rcases hEvent with ⟨m, rfl⟩ | rfl
      · cases List.mem_singleton.mp hNow
        exact hi
      · cases List.mem_singleton.mp hNow
  · intro k hFailed
    refine h.failed ?_
    rcases hEvent with ⟨m, rfl⟩ | rfl <;> simpa using hFailed
  · intro j hEq
    by_cases hj : j = i
    · subst hj
      exact List.mem_append_right _ (List.mem_singleton.mpr (hReturned hEq).symm)
    · rw [hOther j hj] at hEq
      exact List.mem_append_left _ (h.returned j hEq)
  · exact each_append.mpr ⟨h.inOrder, by simpa using hOrder⟩

omit [DecidableEq τ] [DecidableEq κ] in
theorem Draining.turn (h : Draining K pool size) {i : Fin n} {pc : Worker} {available : Nat}
    {queue : Mpmc.State (Thread n τ) κ Nat C} (hQueue : Untouched K queue)
    (hOther : ∀ t ≠ .worker i, queue.pc t = pool.queue.pc t)
    (hPc : pc = .pop ∨ pc = .checkStop ∨ pc = .returned)
    (hPopping : queue.pc (.worker i) ≠ .idle → pc = .pop) :
    Draining K { pool with queue, available, worker := Function.update pool.worker i pc } size where
  queue := hQueue
  worker := by
    intro j
    by_cases hj : j = i
    · simp only [hj, Function.update_self]
      exact .inr hPc
    · simp only [Function.update_of_ne hj]
      exact h.worker j
  popping := by
    intro j hActive
    by_cases hj : j = i
    · subst hj
      simp only [Function.update_self]
      exact hPopping hActive
    · simp only [Function.update_of_ne hj]
      rw [hOther _ (fun hEq => hj (Thread.worker.inj hEq))] at hActive
      exact h.popping j hActive
  stop := h.stop

variable {s' : Building n τ κ C}

/-- A step of `worker_loop` outside `pop`: past the semaphore, or out of the loop. -/
theorem Built.worker (h : Built K s trace) {i : Fin n} (hi : i.val < s.size)
    (hWork : s.work K i = some (s', events)) : Built K s' (trace ++ events) := by
  unfold Building.work at hWork
  obtain ⟨⟨pool, emitted⟩, hStep, hEq⟩ := Option.bind_eq_some_iff.mp hWork
  unfold workerStep at hStep
  rcases h.stage.cases with ⟨accepting, stopRequested, hPool⟩ | hDraining
  · rw [hPool] at hStep
    cases hStep
  have hNot (hMoved : s.pool.worker i ≠ .acquire ∨ 0 < s.pool.available) : ¬Dormant K s.pool := by
    rintro ⟨accepting, stopRequested, hPool⟩
    rw [hPool] at hMoved
    exact hMoved.elim (fun hNe => hNe rfl) (fun hLt => absurd hLt (Nat.lt_irrefl 0))
  rcases hDraining.worker i with hPc | hPc | hPc | hPc
  · simp only [hPc] at hStep
    split at hStep
    case isFalse => cases hStep
    case isTrue hAvailable =>
      obtain ⟨⟨queue, popEvents⟩, hPop, hPool⟩ := Option.bind_eq_some_iff.mp hStep
      cases hPool
      obtain rfl := goto_of_pop hPop
      simp only [hPc, Worker.uses, Function.update_self, reduceCtorEq, if_false] at hEq
      cases hEq
      refine h.work (hNot (.inr hAvailable)) (hDraining.turn
        (hDraining.queue.goto (.inr (.inl rfl))) (fun t ht => s.pool.queue.goto_pc_of_ne ht ..)
        (.inl rfl) (fun _ => rfl)) hi
        (fun j hj => Function.update_of_ne hj ..) ?_ (.inl ⟨_, rfl⟩) ?_ (fun hNe => absurd rfl hNe)
      · simp [hPc]
      · simp
  · simp only [hPc] at hStep
    cases hStep
  · have hIdle : s.pool.queue.pc (.worker i) = .idle := by
      by_contra hActive
      rw [hDraining.popping i hActive] at hPc
      cases hPc
    simp only [hPc, hDraining.stop i hi, if_true] at hStep
    cases hStep
    simp only [hPc, Worker.uses, Function.update_self, if_true] at hEq
    cases hEq
    refine h.work (hNot (.inl (by simp [hPc]))) (hDraining.turn hDraining.queue (fun _ _ => rfl)
      (.inr (.inr rfl)) (fun hActive => absurd hIdle hActive)) hi
      (fun j hj => Function.update_of_ne hj ..) ?_ (.inr rfl)
      (fun _ => rfl) trivial
    simp [hPc]
  · simp only [hPc] at hStep
    cases hStep

/-- A step inside `pop`, which goes on or finds the queue empty. -/
theorem Built.queue (h : Built K s trace) (hEmpty : StartsEmpty K) {i : Fin n} {spurious : Bool}
    {emitted : List (Event n τ κ)} (hi : i.val < s.size)
    (hStep : queueStep K s.pool (.worker i) spurious = some (pool, emitted)) :
    Built K { s with pool } (trace ++ [.used i .queue]) := by
  unfold queueStep at hStep
  obtain ⟨⟨queue, popEvents⟩, hNext, hPool⟩ := Option.bind_eq_some_iff.mp hStep
  have hActive := Mpmc.pc_ne_idle_of_next hNext
  have hNot : ¬Dormant K s.pool := by
    rintro ⟨accepting, stopRequested, hEq⟩
    rw [hEq] at hActive
    exact hActive rfl
  have hDraining := h.stage.cases.resolve_left hNot
  have hPc := hDraining.popping i hActive
  have hOrder : .destroyed .queue ∉ trace := by
    intro hGone
    rw [h.joined hGone i hi hi] at hPc
    cases hPc
  rcases hDraining.queue.step hEmpty hNext with ⟨rfl, rfl⟩ | ⟨rfl, rfl⟩
  · cases hPool
    have hMoved (j : Fin n) (hj : (s.pool.queue.goto (.worker i) (.popSequence (K.ofNat 0))
        s.pool.queue.queue).pc (.worker j) ≠ .idle) : s.pool.worker j = .pop := by
      by_cases hSame : j = i
      · rwa [hSame]
      · rw [s.pool.queue.goto_pc_of_ne (fun hEq => hSame (Thread.worker.inj hEq))] at hj
        exact hDraining.popping j hj
    refine h.work hNot ⟨hDraining.queue.goto (.inr (.inr rfl)), hDraining.worker, hMoved,
      hDraining.stop⟩ hi (fun _ _ => rfl) ?_ (.inl ⟨_, rfl⟩) ?_ (fun _ => hOrder)
    · simp [hPc]
    · simp [hPc]
  · cases hPool
    refine h.work hNot (hDraining.turn (hDraining.queue.goto (.inl rfl))
        (fun t ht => s.pool.queue.goto_pc_of_ne ht ..) (.inr (.inl rfl)) ?_) hi
        (fun j hj => Function.update_of_ne hj ..) ?_ (.inl ⟨_, rfl⟩) ?_ (fun _ => hOrder)
    · simp
    · simp [hPc]
    · simp

/-- No task runs: the pool has not been handed out, and its queue is empty. -/
theorem Built.not_running (h : Built K s trace) (i : Fin n) (task : Task) :
    s.pool.worker i ≠ .run task := by
  rcases h.stage.cases with hDormant | hDraining
  · simp [hDormant.worker_eq i]
  · rcases hDraining.worker i with hPc | hPc | hPc | hPc <;> simp [hPc]

/-- Requesting a stop wakes nobody. -/
theorem Dormant.requestStop (h : Dormant K pool) (stopRequested : Fin n → Bool) :
    Dormant K { pool with stopRequested } := by
  obtain ⟨accepting, before, rfl⟩ := h
  exact ⟨_, _, rfl⟩

omit [DecidableEq τ] [DecidableEq κ] in
theorem Draining.requestStop (h : Draining K pool size) (i : Fin n) :
    Draining K { pool with stopRequested := Function.update pool.stopRequested i true } size :=
  { h with
    stop := by
      intro j hj
      by_cases hSame : j = i
      · simp [hSame]
      · simpa [Function.update_of_ne hSame] using h.stop j hj }

/-- The catch block and the throw of the argument check lead to the same unwinding. -/
theorem StageOk.unwind (h : Dormant K pool)
    (hStop : ∀ i : Fin n, i.val < size → pool.stopRequested i = true) (available : Nat) :
    StageOk K { pool with available } size (.unwind members.reverse) :=
  ⟨h.draining hStop available, .inl (by decide)⟩

theorem Built.unwinding (h : Built K s trace) {m : Member} {rest : List Member}
    (hCase : s.stage = .unwind (m :: rest)) (hWorkers : m ≠ .workers) :
    Built K { s with stage := .unwind rest } (trace ++ [.destroyed m]) := by
  have hStage := h.stage
  rw [hCase] at hStage
  obtain ⟨hDraining, hRest⟩ := hStage
  refine h.destroy (by rw [hCase]; rfl) ⟨hDraining, ?_⟩ ?_
  · rw [List.mem_cons, or_iff_right (Ne.symm hWorkers)] at hRest
    exact hRest
  · rintro rfl
    obtain ⟨k, hEq, -⟩ := h.gone
    rw [hCase] at hEq
    obtain rfl := eq_nil_of_drop hEq
    exact hRest.resolve_left (by decide)

/-- A step of the constructing thread. -/
theorem Built.construct (h : Built K s trace) {fails : Bool}
    (hStep : s.construct fails = some (s', events)) : Built K s' (trace ++ events) := by
  have hStage := h.stage
  unfold Building.construct at hStep
  cases hCase : s.stage with
  | check | reserve =>
    simp only [hCase] at hStep hStage
    obtain ⟨hPool, hSize⟩ := hStage
    split at hStep <;> cases hStep
    · exact h.advance (fun _ => rfl) nofun nofun
        (StageOk.unwind (.of_start hPool) (by simp [hSize]) s.pool.available) (by rw [hCase]; rfl)
        (fun _ => rfl)
    · exact h.advance (fun _ => rfl) nofun nofun ⟨hPool, hSize⟩ (by rw [hCase]; rfl)
        (by rw [hCase]; nofun)
  | create =>
    simp only [hCase] at hStep hStage
    split at hStep
    · split at hStep <;> cases hStep
      · refine h.advance (fun _ => rfl) (by simp [BuildEvent.plain]) ?_ hStage.1
          (by rw [hCase]; rfl) (fun _ => rfl)
        intro k hFailed
        cases List.mem_singleton.mp hFailed
        exact ⟨hStage.2, rfl⟩
      · exact h.start hCase _
    · cases hStep
      exact h.advance (fun _ => rfl) (by simp [BuildEvent.plain]) (by simp) hStage.1
        (by rw [hCase]; rfl) (fun _ => rfl)
  | constructed | thrown =>
    simp only [hCase] at hStep
    cases hStep
  | storeAccepting =>
    simp only [hCase] at hStep hStage
    cases hStep
    have hDormant : Dormant K { s.pool with accepting := false } := by
      rw [show s.pool = _ from hStage]
      exact ⟨_, _, rfl⟩
    exact h.advance (fun _ => rfl) nofun nofun ⟨hDormant, fun i _ hLt =>
      absurd hLt (Nat.not_lt_zero _)⟩ (by rw [hCase]; rfl) (fun _ => rfl)
  | requestStop k =>
    simp only [hCase] at hStep hStage
    obtain ⟨hDormant, hStop⟩ := hStage
    split at hStep <;> cases hStep
    · refine h.advance (fun _ => rfl) nofun nofun ⟨hDormant.requestStop _, ?_⟩ (by rw [hCase]; rfl)
        (fun _ => rfl)
      intro i hi hLt
      rcases Nat.lt_succ_iff_lt_or_eq.mp hLt with hOld | rfl
      · have hNe : i ≠ ⟨k, ‹k < n ∧ k < s.size›.1⟩ := fun hEq => by simp [hEq] at hOld
        simpa [Function.update_of_ne hNe] using hStop i hi hOld
      · simp
    · refine h.advance (fun _ => rfl) nofun nofun ⟨hDormant, ?_⟩ (by rw [hCase]; rfl) (fun _ => rfl)
      intro i hi
      exact hStop i hi (by have hn := i.isLt; omega)
  | release =>
    simp only [hCase] at hStep hStage
    cases hStep
    exact h.advance (fun _ => rfl) nofun nofun (StageOk.unwind hStage.1 hStage.2 _)
      (by rw [hCase]; rfl) (fun _ => rfl)
  | unwind rest =>
    cases rest with
    | nil =>
      simp only [hCase] at hStep hStage
      cases hStep
      exact h.advance (fun _ => rfl) (by simp [BuildEvent.plain]) (by simp)
        ⟨hStage.1, hStage.2.resolve_left List.not_mem_nil⟩ (by rw [hCase]; rfl) (fun _ => rfl)
    | cons m =>
      cases m with
      | workers =>
        simp only [hCase] at hStep hStage
        cases hStep
        exact h.advance (fun _ => rfl) nofun nofun
          ⟨hStage.1, fun i _ hLt => absurd hLt (Nat.not_lt_zero _)⟩ (by rw [hCase]; rfl)
          (fun _ => rfl)
      | _ =>
        simp only [hCase] at hStep
        cases hStep
        exact h.unwinding hCase (by decide)
  | stop k rest =>
    simp only [hCase] at hStep hStage
    obtain ⟨hDraining, hJoined⟩ := hStage
    split at hStep <;> cases hStep
    · rename_i hLt
      exact h.advance (fun _ => rfl) nofun nofun ⟨hDraining.requestStop _, hJoined, hLt.2⟩
        (by rw [hCase]; rfl) (fun _ => rfl)
    · refine h.destroy (by rw [hCase]; rfl) ⟨hDraining, .inr ?_⟩ nofun
      intro i hi _
      exact hJoined i hi (by have hn := i.isLt; omega)
  | join =>
    simp only [hCase] at hStep hStage
    obtain ⟨hDraining, hJoined, hSize⟩ := hStage
    split at hStep
    · split at hStep <;> cases hStep
      refine h.advance (fun _ => rfl) nofun nofun ⟨hDraining, ?_⟩ (by rw [hCase]; rfl)
        (fun _ => rfl)
      intro i hi hLt
      rcases Nat.lt_succ_iff_lt_or_eq.mp hLt with hOld | rfl
      · exact hJoined i hi hOld
      · assumption
    · cases hStep

theorem built_start : Built K (buildMachine n τ K).start [] where
  stage := ⟨rfl, rfl⟩
  gone := ⟨0, rfl, nofun⟩
  started := by simp [buildMachine]
  used := nofun
  failed := nofun
  returned := nofun
  inOrder := each_nil

/-- The invariant along a construction. -/
theorem built_of_reaches (hEmpty : StartsEmpty K) (h : (buildMachine n τ K).Reaches s trace) :
    Built K s trace := by
  refine h.invariant (P := Built K) built_start ?_
  intro s s' trace events label _ hBuilt hNext
  cases label with
  | construct => exact hBuilt.construct hNext
  | worker =>
    simp only [buildMachine, Building.next] at hNext
    split_ifs at hNext with hi
    exact hBuilt.worker hi hNext
  | queue =>
    simp only [buildMachine, Building.next] at hNext
    split_ifs at hNext with hi
    obtain ⟨⟨pool, emitted⟩, hStep, hEq⟩ := Option.map_eq_some_iff.mp hNext
    cases hEq
    exact hBuilt.queue hEmpty hi hStep
  | finish i =>
    simp only [buildMachine, Building.next] at hNext
    split_ifs at hNext with hi
    obtain ⟨⟨pool, emitted⟩, hStep, -⟩ := Option.map_eq_some_iff.mp hNext
    unfold finish at hStep
    split at hStep
    · exact absurd ‹_› (hBuilt.not_running i _)
    · cases hStep

end Invariant

omit [DecidableEq κ] in
theorem startsEmpty_word {w : Nat} (hw : 1 < w) : StartsEmpty (.word C w) := by
  have hHalf : 1 < 2 ^ (w - 1) := Nat.one_lt_two_pow (by omega)
  have hIndex : (SizeT.word C w).index ((SizeT.word C w).ofNat 0) = C.index 0 :=
    word_index (by omega)
  have hZero : (C.index 0).val = 0 := Nat.zero_and _
  have hDiff := word_diff (C := C) (w := w) (m := 0) (n := 1) (by omega) hHalf
  rw [StartsEmpty, hIndex]
  change (SizeT.word C w).diff (BitVec.ofNat w (C.index 0).val)
    ((SizeT.word C w).add (BitVec.ofNat w 0) 1) < 0
  rw [hZero, word_add, hDiff]
  decide

section Late

variable {K : SizeT κ C} {k : Nat}

/-- Nobody runs but the constructor: the workers below `k` have been started. -/
theorem reaches_create (hk : k < n) : ∃ trace : List (BuildEvent n),
    (buildMachine n τ K).Reaches ⟨(machine n τ K).start, k, .create k⟩ trace ∧
      (∀ i : Fin n, i.val < k → .started i ∈ trace) ∧ ∀ i, .returned i ∉ trace := by
  induction k with
  | zero =>
    refine ⟨[], ?_, nofun, nofun⟩
    have hCheck : (buildMachine n τ K).next (buildMachine n τ K).start (.construct false) =
        some (⟨(machine n τ K).start, 0, .reserve⟩, []) := if_neg (Nat.ne_of_gt hk)
    exact (Machine.Reaches.start.step hCheck).step (a := .construct false) rfl
  | succ k ih =>
    obtain ⟨trace, hReaches, hStarted, hReturned⟩ := ih (Nat.lt_of_succ_lt hk)
    have hNext : (buildMachine n τ K).next ⟨(machine n τ K).start, k, .create k⟩ (.construct false)
        = some (⟨(machine n τ K).start, k + 1, .create (k + 1)⟩,
        [.started ⟨k, Nat.lt_of_succ_lt hk⟩]) :=
      dif_pos (Nat.lt_of_succ_lt hk)
    refine ⟨_, hReaches.step hNext, fun i hi => ?_, by simpa using hReturned⟩
    rcases Nat.lt_succ_iff_lt_or_eq.mp hi with hOld | rfl
    · exact List.mem_append_left _ (hStarted i hOld)
    · exact List.mem_append_right _ (List.mem_singleton_self _)

/-- The catch block has requested the stop of `j` workers. -/
theorem reaches_requestStop {trace : List (BuildEvent n)} (hk : k < n) {j : Nat} (hj : j ≤ k)
    (h : (buildMachine n τ K).Reaches ⟨(machine n τ K).start, k, .create k⟩ trace) :
    ∃ pool : State n τ κ C, Dormant K pool ∧
      (buildMachine n τ K).Reaches ⟨pool, k, .requestStop j⟩ (trace ++ [.failed k]) := by
  induction j with
  | zero =>
    have hFail : (buildMachine n τ K).next ⟨(machine n τ K).start, k, .create k⟩ (.construct true) =
        some (⟨(machine n τ K).start, k, .storeAccepting⟩, [.failed k]) := dif_pos hk
    have hStore := (h.step hFail).step (a := .construct false) rfl
    rw [List.append_nil] at hStore
    exact ⟨_, ⟨_, _, rfl⟩, hStore⟩
  | succ j ih =>
    obtain ⟨pool, hDormant, hReaches⟩ := ih (Nat.le_of_succ_le hj)
    have hLt : j < n ∧ j < k := ⟨by omega, hj⟩
    have hNext : (buildMachine n τ K).next ⟨pool, k, .requestStop j⟩ (.construct false) =
        some (⟨{ pool with stopRequested := Function.update pool.stopRequested ⟨j, hLt.1⟩ true }, k,
          .requestStop (j + 1)⟩, []) := dif_pos hLt
    have hStep := hReaches.step hNext
    rw [List.append_nil] at hStep
    exact ⟨_, hDormant.requestStop _, hStep⟩

/-- The members that are destroyed up to the semaphore. -/
def untilAvailable : List (BuildEvent n) :=
  [.destroyed .errors, .destroyed .errorsMutex, .destroyed .lifecycleMutex, .destroyed .accepting,
    .destroyed .available]

/-- A worker in front of a semaphore that was released goes on, also if it is destroyed. -/
theorem next_acquire (pool : State n τ κ C) {i : Fin n} (hi : i.val < k)
    (hWorker : pool.worker i = .acquire) (hAvailable : 0 < pool.available)
    (hIdle : pool.queue.pc (.worker i) = .idle) :
    ∃ s, (buildMachine n τ K).next ⟨pool, k, .unwind [.workers, .queue]⟩ (.worker i) =
      some (s, [.used i .available]) := by
  refine ⟨⟨{ pool with
    queue := pool.queue.goto (.worker i) .popLoad pool.queue.queue
    available := pool.available - 1
    worker := Function.update pool.worker i .pop }, k, .unwind [.workers, .queue]⟩, ?_⟩
  simp [buildMachine, Building.next, Building.work, workerStep, hWorker, hAvailable, hi,
    Worker.uses, Mpmc.next, hIdle]

/-- Whenever a worker but the first fails to start, the first need not be scheduled before
the catch block has released the semaphore and the unwinding has destroyed it. -/
theorem reaches_late (hk : k < n) (hPos : 0 < k) :
    ∃ (s : Building n τ κ C) (trace : List (BuildEvent n)) (i : Fin n),
      (buildMachine n τ K).Reaches s (trace ++ [.failed k] ++ untilAvailable ++
        [.used i .available]) ∧ .started i ∈ trace ∧ .returned i ∉ trace := by
  obtain ⟨trace, hReaches, hStarted, hReturned⟩ := reaches_create (τ := τ) (K := K) hk
  obtain ⟨pool, hDormant, hRequested⟩ := reaches_requestStop hk (Nat.le_refl k) hReaches
  have hStop : (buildMachine n τ K).next ⟨pool, k, .requestStop k⟩ (.construct false) =
      some (⟨pool, k, .release⟩, []) := dif_neg fun hLt => Nat.lt_irrefl k hLt.2
  have hDestroy : (buildMachine n τ K).run ⟨pool, k, .release⟩ (List.replicate 6 (.construct false))
      = some (⟨{ pool with available := pool.available + k }, k, .unwind [.workers, .queue]⟩,
      untilAvailable) := rfl
  have hGone := (hRequested.step hStop).run hDestroy
  rw [List.append_nil] at hGone
  obtain ⟨accepting, stopRequested, rfl⟩ := hDormant
  obtain ⟨s, hLate⟩ := next_acquire (K := K) { (machine n τ K).start with
      accepting := accepting
      stopRequested := stopRequested
      available := (machine n τ K).start.available + k } (i := ⟨0, Nat.lt_trans hPos hk⟩) hPos rfl
    (Nat.lt_of_lt_of_le hPos (Nat.le_add_left ..)) rfl
  exact ⟨s, trace, _, hGone.step hLate, hStarted _ hPos, hReturned _⟩

end Late

/-- The members are destroyed in time, for every interleaving, exactly if no worker was
started: if the first fails. Whichever worker fails, no member but the semaphore is used
after its destruction, and the queue is destroyed after all workers have returned. -/
theorem unwinds_in_order {w : Nat} (hw : 1 < w) {k : Nat} (hk : k < n) :
    ((∀ (s : Building n τ (BitVec w) C) trace, (buildMachine n τ (.word C w)).Reaches s trace →
      .failed k ∈ trace → Each ReturnedFirst trace) ↔ k = 0) ∧
    ((∀ (s : Building n τ (BitVec w) C) trace, (buildMachine n τ (.word C w)).Reaches s trace →
      .failed k ∈ trace → Each NeverLate trace) ↔ k = 0) ∧
    ∀ (s : Building n τ (BitVec w) C) trace, (buildMachine n τ (.word C w)).Reaches s trace →
      Each InOrder trace := by
  have hBuilt {s : Building n τ (BitVec w) C} {trace : List (BuildEvent n)}
      (h : (buildMachine n τ (.word C w)).Reaches s trace) : Built (.word C w) s trace :=
    built_of_reaches (startsEmpty_word hw) h
  refine ⟨⟨fun hAll => ?_, ?_⟩, ⟨fun hAll => ?_, ?_⟩, fun s trace h => (hBuilt h).inOrder⟩
  · by_contra hNe
    obtain ⟨s, trace, i, hReaches, hStarted, hReturned⟩ :=
      reaches_late (τ := τ) (K := .word C w) hk (Nat.pos_of_ne_zero hNe)
    have hGone := hAll s _ hReaches (by simp) _ (.destroyed .errors) _ (List.append_assoc ..) i
      (List.mem_append_left _ hStarted)
    exact hReturned (by simpa using hGone)
  · rintro rfl s trace h hFailed before e after rfl
    have hNone (i : Fin n) (hStarted : .started i ∈ before) : .returned i ∈ before := by
      have hSize := ((hBuilt h).failed hFailed).1
      have hLt := ((hBuilt h).started i).mp (List.mem_append_left _ hStarted)
      omega
    cases e with
    | destroyed m => cases m <;> first | exact hNone | trivial
    | _ => trivial
  · by_contra hNe
    obtain ⟨s, trace, i, hReaches, -, -⟩ := reaches_late (τ := τ) (K := .word C w) hk
      (Nat.pos_of_ne_zero hNe)
    exact hAll s _ hReaches (by simp) _ (.used i .available) [] rfl (by simp [untilAvailable])
  · rintro rfl s trace h hFailed before e after rfl
    have hSize := ((hBuilt h).failed hFailed).1
    cases e with
    | used i m =>
      have hLt := (hBuilt h).used (i := i) (m := m) (by simp)
      omega
    | _ => trivial

/-- With two workers it depends on which of them fails to start. -/
theorem unwinds_in_order_two :
    (∀ (s : Building 2 Empty (BitVec 64) ⟨4096, by decide, by decide⟩) trace,
      (buildMachine 2 Empty (.word ⟨4096, by decide, by decide⟩ 64)).Reaches s trace →
        .failed 0 ∈ trace → Each ReturnedFirst trace ∧ Each NeverLate trace) ∧
    ¬∀ (s : Building 2 Empty (BitVec 64) ⟨4096, by decide, by decide⟩) trace,
      (buildMachine 2 Empty (.word ⟨4096, by decide, by decide⟩ 64)).Reaches s trace →
        .failed 1 ∈ trace → Each NeverLate trace := by
  refine ⟨fun s trace h hFailed => ?_, fun hAll => ?_⟩
  · have hFirst := unwinds_in_order (n := 2) (τ := Empty) (C := ⟨4096, by decide, by decide⟩)
      (w := 64) (k := 0) (by decide) (by decide)
    exact ⟨hFirst.1.mpr rfl s trace h hFailed, hFirst.2.1.mpr rfl s trace h hFailed⟩
  · exact absurd ((unwinds_in_order (by decide) (by decide)).2.1.mp hAll) (by decide)

/-- The second of two workers fails to start, and the first comes to the semaphore when the
unwinding has destroyed it. -/
theorem semaphore_used_late :
    ∃ (s : Building 2 Empty (BitVec 64) ⟨4096, by decide, by decide⟩) (trace : List (BuildEvent 2)),
      (buildMachine 2 Empty (.word ⟨4096, by decide, by decide⟩ 64)).Reaches s trace ∧
      trace = [.started 0, .failed 1, .destroyed .errors, .destroyed .errorsMutex,
        .destroyed .lifecycleMutex, .destroyed .accepting, .destroyed .available,
        .used 0 .available] ∧ ¬Each NeverLate trace := by
  have hRun : ((buildMachine 2 Empty (.word ⟨4096, by decide, by decide⟩ 64)).run
      (buildMachine 2 Empty (.word ⟨4096, by decide, by decide⟩ 64)).start
      ([.construct false, .construct false, .construct false, .construct true, .construct false,
        .construct false, .construct false, .construct false] ++ List.replicate 5
        (.construct false) ++ [.worker 0])).map Prod.snd =
      some [.started 0, .failed 1, .destroyed .errors, .destroyed .errorsMutex,
        .destroyed .lifecycleMutex, .destroyed .accepting, .destroyed .available,
        .used 0 .available] := by decide +kernel
  obtain ⟨⟨s, trace⟩, hRun, rfl⟩ := Option.map_eq_some_iff.mp hRun
  refine ⟨s, _, Machine.Reaches.start.run hRun, rfl, ?_⟩
  intro hEach
  simp [NeverLate] at hEach

end Tinycoro.ThreadPool
