import Tinycoro.Pool.ThreadPool

/-! The constructor of the pool, up to its return or to the end of its unwinding. It starts
one worker after the other, and a worker may fail to start. The catch block then stops the
workers that run and wakes them, and rethrows. What follows is not written in the source:
the members are destroyed in the reverse order of their declaration, and only the
destructor of `workers_` waits for the workers. -/
namespace Tinycoro.ThreadPool

open Transition
open Mpmc (SizeT)

inductive Member where
  | queue
  | workers
  | available
  | accepting
  | lifecycleMutex
  | errorsMutex
  | errors
  deriving DecidableEq

/-- The members in the order of their declaration. -/
def members : List Member :=
  [.queue, .workers, .available, .accepting, .lifecycleMutex, .errorsMutex, .errors]

/-- Where the constructing thread stands: in front of the named operation. While it
unwinds it knows the members that are still to be destroyed; within `workers_` it stops
and joins one `jthread` after the other. -/
inductive Constructor where
  | check
  | reserve
  | create (index : Nat)
  | constructed
  | storeAccepting
  | requestStop (i : Nat)
  | release
  | unwind (rest : List Member)
  | stop (i : Nat) (rest : List Member)
  | join (i : Nat) (rest : List Member)
  | thrown
  deriving DecidableEq

/-- The pool under construction. -/
structure Building (n : Nat) (τ κ : Type) (C : Ring.Size) where
  pool : State n τ κ C
  /-- `workers_.size()` -/
  size : Nat
  stage : Constructor

inductive BuildLabel (n : Nat) where
  | construct (fails : Bool)
  | worker (i : Fin n)
  | queue (i : Fin n) (spurious : Bool)
  | finish (i : Fin n) (throws : Bool)

/-- Workers that start and return, the one that cannot be started, the members that the
steps of workers use, and the members that are destroyed. -/
inductive BuildEvent (n : Nat) where
  | started (i : Fin n)
  | failed (index : Nat)
  | used (i : Fin n) (m : Member)
  | returned (i : Fin n)
  | destroyed (m : Member)
  | constructed
  | threw
  deriving DecidableEq

/-- The members that the next step of `worker_loop` uses. The steps of `pop` are apart. -/
def Worker.uses : Worker → List Member
  | .acquire => [.available]
  | .handle _ => [.errorsMutex, .errors]
  | _ => []

variable {n : Nat} {τ κ : Type} {C : Ring.Size} [DecidableEq τ] [DecidableEq κ]

namespace Building

/-- One operation of the constructor, of its catch block or of the unwinding. -/
def construct (s : Building n τ κ C) (fails : Bool) :
    Option (Building n τ κ C × List (BuildEvent n)) :=
  match s.stage with
  | .check =>
    if n = 0 then some ({ s with stage := .unwind members.reverse }, [])
    else some ({ s with stage := .reserve }, [])
  | .reserve =>
    if fails then some ({ s with stage := .unwind members.reverse }, [])
    else some ({ s with stage := .create 0 }, [])
  | .create index =>
    if h : index < n then
      if fails then some ({ s with stage := .storeAccepting }, [.failed index])
      else some ({ s with size := s.size + 1, stage := .create (index + 1) }, [.started ⟨index, h⟩])
    else some ({ s with stage := .constructed }, [.constructed])
  | .constructed => none
  | .storeAccepting => some ({ s with pool.accepting := false, stage := .requestStop 0 }, [])
  | .requestStop i =>
    if h : i < n ∧ i < s.size then
      some ({ s with
        pool.stopRequested := Function.update s.pool.stopRequested ⟨i, h.1⟩ true
        stage := .requestStop (i + 1) }, [])
    else some ({ s with stage := .release }, [])
  | .release =>
    some ({ s with pool.available := s.pool.available + s.size, stage := .unwind members.reverse },
      [])
  | .unwind [] => some ({ s with stage := .thrown }, [.threw])
  | .unwind (.workers :: rest) => some ({ s with stage := .stop 0 rest }, [])
  | .unwind (m :: rest) => some ({ s with stage := .unwind rest }, [.destroyed m])
  | .stop i rest =>
    if h : i < n ∧ i < s.size then
      some ({ s with
        pool.stopRequested := Function.update s.pool.stopRequested ⟨i, h.1⟩ true
        stage := .join i rest }, [])
    else some ({ s with stage := .unwind rest }, [.destroyed .workers])
  | .join i rest =>
    if h : i < n then
      if s.pool.worker ⟨i, h⟩ = .returned then some ({ s with stage := .stop (i + 1) rest }, [])
      else none
    else none
  | .thrown => none

/-- A step of `worker_loop` outside `pop`. -/
def work (K : SizeT κ C) (s : Building n τ κ C) (i : Fin n) :
    Option (Building n τ κ C × List (BuildEvent n)) := do
  let (pool, _) ← workerStep K s.pool i
  let used := (s.pool.worker i).uses.map (BuildEvent.used i)
  return ({ s with pool }, used ++ if pool.worker i = .returned then [.returned i] else [])

/-- The workers that have been started run while the constructor goes on. -/
def next (K : SizeT κ C) (s : Building n τ κ C) :
    BuildLabel n → Option (Building n τ κ C × List (BuildEvent n))
  | .construct fails => s.construct fails
  | .worker i => if i.val < s.size then s.work K i else none
  | .queue i spurious =>
    if i.val < s.size then
      (queueStep K s.pool (.worker i) spurious).map
      (fun r => ({ s with pool := r.1 }, [.used i .queue]))
    else none
  | .finish i throws =>
    if i.val < s.size then (finish s.pool i throws).map (fun r => ({ s with pool := r.1 }, []))
      else none

end Building

/-- The construction of a pool of `n` workers. -/
def buildMachine (n : Nat) (τ : Type) [DecidableEq τ] (K : SizeT κ C) :
    Machine (Building n τ κ C) (BuildLabel n) (BuildEvent n) where
  start := ⟨(machine n τ K).start, 0, .check⟩
  next := Building.next K

end Tinycoro.ThreadPool
