import Tinycoro.Queue.MpmcInvariant

/-! The thread pool over the ring queue. Callers of `submit`, the workers and the
thread that calls `shutdown` move one operation at a time: taking or giving back
the lifecycle mutex, one step inside the queue, one semaphore operation, one
flag. A task is named by the call that submits it, and whether it throws is left
to the label. -/
namespace Tinycoro.ThreadPool

open Transition

/-- A worker, a caller of `submit`, or the thread that calls `shutdown`. -/
inductive Thread (n : Nat) (τ : Type) where
  | worker (i : Fin n)
  | client (t : τ)
  | closer
  deriving DecidableEq

/-- A `std::function`, empty or made by the numbered call of `submit`. -/
abbrev Task := Option Nat

/-- Where a thread stands in `submit`. A worker gets there from inside a task. -/
inductive Client where
  | idle
  | lock (task : Nat)
  | check (task : Nat)
  | push (task : Nat)
  | release (task : Nat)
  | unlock (task : Nat) (result : Bool)
  deriving DecidableEq

/-- Where a worker stands in `worker_loop`. -/
inductive Worker where
  | acquire
  | pop
  | run (task : Task)
  | handle (error : Task)
  | checkStop
  | returned
  deriving DecidableEq

/-- Where the closing thread stands in `shutdown`. -/
inductive Closer where
  | idle
  | lock
  | exchange
  | requestStop (i : Nat)
  | release
  | unlock
  | join (i : Nat)
  deriving DecidableEq

/-- What an observer sees besides the queue: calls that return, tasks that start
and end, and exceptions handed out. An exception is named by its task. -/
inductive Event (n : Nat) (τ κ : Type) where
  | queue (event : Mpmc.Event (Thread n τ) κ Nat)
  | submitted (t : Thread n τ) (task : Nat) (result : Bool)
  | started (i : Fin n) (task : Task)
  | finished (i : Fin n) (task : Task) (thrown : Bool)
  | tookErrors (errors : List Task)
  | shutdownReturned
  deriving DecidableEq

structure State (n : Nat) (τ κ : Type) (C : Ring.Size) where
  queue : Mpmc.State (Thread n τ) κ Nat C
  available : Nat
  accepting : Bool
  lifecycleMutex : Option (Thread n τ)
  stopRequested : Fin n → Bool
  errors : List Task
  /-- calls of `submit` so far -/
  calls : Nat
  client : Thread n τ → Client
  worker : Fin n → Worker
  closer : Closer
  /-- `workers_` has been joined and cleared -/
  cleared : Bool

/-- Who moves, and what the program under the pool decides: an empty task, a
spurious failure inside the queue, a task that throws. -/
inductive Label (n : Nat) (τ : Type) where
  | submit (t : Thread n τ) (empty : Bool)
  | client (t : Thread n τ)
  | queue (t : Thread n τ) (spurious : Bool)
  | worker (i : Fin n)
  | finish (i : Fin n) (throws : Bool)
  | takeErrors
  | shutdown
  | closer

variable {n : Nat} {τ κ : Type} {C : Ring.Size} [DecidableEq τ] [DecidableEq κ]

/-- A thread calls `submit` from outside the pool or from inside a task. -/
def mayCall (s : State n τ κ C) : Thread n τ → Bool
  | .worker i => match s.worker i with
      | .run _ => s.client (.worker i) = .idle
      | _ => false
  | .client t => s.client (.client t) = .idle
  | .closer => false

/-- The call of `submit`. An empty function is refused before anything else. -/
def submit (s : State n τ κ C) (t : Thread n τ) (empty : Bool) :
    Option (State n τ κ C × List (Event n τ κ)) :=
  if mayCall s t then
    if empty then some ({ s with calls := s.calls + 1 }, [.submitted t s.calls false])
    else some ({ s with
      calls := s.calls + 1
      client := Function.update s.client t (.lock s.calls) }, [])
  else none

/-- The steps of `submit` outside the queue. -/
def clientStep (K : Mpmc.SizeT κ C) (s : State n τ κ C) (t : Thread n τ) :
    Option (State n τ κ C × List (Event n τ κ)) :=
  match s.client t with
  | .lock task =>
    if s.lifecycleMutex = none then
      some ({ s with
        lifecycleMutex := some t
        client := Function.update s.client t (.check task) }, [])
    else none
  | .check task =>
    if s.accepting then do
      let (queue, _) ← Mpmc.next K s.queue (t, .push task)
      return ({ s with queue, client := Function.update s.client t (.push task) }, [])
    else some ({ s with client := Function.update s.client t (.unlock task false) }, [])
  | .release task =>
    some ({ s with
      available := s.available + 1
      client := Function.update s.client t (.unlock task true) }, [])
  | .unlock task result =>
    some ({ s with
      lifecycleMutex := none
      client := Function.update s.client t .idle }, [.submitted t task result])
  | _ => none

/-- What a call of `push` or `pop` that has returned means to its caller. -/
def react (s : State n τ κ C) (t : Thread n τ) (event : Mpmc.Event (Thread n τ) κ Nat) :
    State n τ κ C × List (Event n τ κ) :=
  match event, s.client t, t with
  | .pushReturned .., .push task, _ =>
    ({ s with client := Function.update s.client t (.release task) }, [.queue event])
  | .pushFull _, .push task, _ =>
    ({ s with client := Function.update s.client t (.unlock task false) }, [.queue event])
  | .popReturned _ _ task, _, .worker i =>
    ({ s with worker := Function.update s.worker i (.run task) }, [.queue event, .started i task])
  | .popEmpty _, _, .worker i =>
    ({ s with worker := Function.update s.worker i .checkStop }, [.queue event])
  | _, _, _ => (s, [.queue event])

/-- A step inside the queue, which emits at most one event. -/
def queueStep (K : Mpmc.SizeT κ C) (s : State n τ κ C) (t : Thread n τ) (spurious : Bool) :
    Option (State n τ κ C × List (Event n τ κ)) := do
  let (queue, events) ← Mpmc.next K s.queue (t, .step spurious)
  match events with
  | [] => return ({ s with queue }, [])
  | event :: _ => return react { s with queue } t event

/-- The steps of `worker_loop` outside the queue and outside the task. -/
def workerStep (K : Mpmc.SizeT κ C) (s : State n τ κ C) (i : Fin n) :
    Option (State n τ κ C × List (Event n τ κ)) :=
  match s.worker i with
  | .acquire =>
    if 0 < s.available then do
      let (queue, _) ← Mpmc.next K s.queue (.worker i, .pop)
      return ({ s with
        queue
        available := s.available - 1
        worker := Function.update s.worker i .pop }, [])
    else none
  | .handle error =>
    some ({ s with
      errors := s.errors ++ [error]
      worker := Function.update s.worker i .acquire }, [])
  | .checkStop =>
    if s.stopRequested i then
      some ({ s with worker := Function.update s.worker i .returned }, [])
    else some ({ s with worker := Function.update s.worker i .acquire }, [])
  | _ => none

/-- The task a worker runs ends. Calling an empty function throws. -/
def finish (s : State n τ κ C) (i : Fin n) (throws : Bool) :
    Option (State n τ κ C × List (Event n τ κ)) :=
  match s.worker i, s.client (.worker i) with
  | .run task, .idle =>
    if throws ∨ task = none then
      some ({ s with worker := Function.update s.worker i (.handle task) }, [.finished i task true])
    else some ({ s with worker := Function.update s.worker i .acquire }, [.finished i task false])
  | _, _ => none

/-- The steps of `shutdown`. Joining waits for the worker to return; once
`workers_` is cleared there is nothing left to join. -/
def closerStep (s : State n τ κ C) : Option (State n τ κ C × List (Event n τ κ)) :=
  match s.closer with
  | .idle => none
  | .lock =>
    if s.lifecycleMutex = none then
      some ({ s with lifecycleMutex := some .closer, closer := .exchange }, [])
    else none
  | .exchange =>
    if s.accepting then some ({ s with accepting := false, closer := .requestStop 0 }, [])
    else some ({ s with closer := .unlock }, [])
  | .requestStop i =>
    if h : i < n then
      some ({ s with
        stopRequested := Function.update s.stopRequested ⟨i, h⟩ true
        closer := .requestStop (i + 1) }, [])
    else some ({ s with closer := .release }, [])
  | .release => some ({ s with available := s.available + n, closer := .unlock }, [])
  | .unlock => some ({ s with lifecycleMutex := none, closer := .join 0 }, [])
  | .join i =>
    if h : i < n ∧ s.cleared = false then
      if s.worker ⟨i, h.1⟩ = .returned then some ({ s with closer := .join (i + 1) }, [])
      else none
    else some ({ s with cleared := true, closer := .idle }, [.shutdownReturned])

def next (K : Mpmc.SizeT κ C) (s : State n τ κ C) :
    Label n τ → Option (State n τ κ C × List (Event n τ κ))
  | .submit t empty => submit s t empty
  | .client t => clientStep K s t
  | .queue t spurious => queueStep K s t spurious
  | .worker i => workerStep K s i
  | .finish i throws => finish s i throws
  | .takeErrors => some ({ s with errors := [] }, [.tookErrors s.errors])
  | .shutdown => if s.closer = .idle then some ({ s with closer := .lock }, []) else none
  | .closer => closerStep s

/-- A constructed pool: all workers are in front of the semaphore. -/
def machine (n : Nat) (τ : Type) [DecidableEq τ] (K : Mpmc.SizeT κ C) :
    Machine (State n τ κ C) (Label n τ) (Event n τ κ) where
  start := {
    queue := ⟨.create K, fun _ => .idle⟩
    available := 0
    accepting := true
    lifecycleMutex := none
    stopRequested := fun _ => false
    errors := []
    calls := 0
    client := fun _ => .idle
    worker := fun _ => .acquire
    closer := .idle
    cleared := false }
  next := next K

end Tinycoro.ThreadPool
