import Tinycoro.Basic
import Tinycoro.Library.Ring
import Tinycoro.Library.Transition

/-! The bounded multi-producer multi-consumer ring queue, at the grain of its
atomic operations. Each load, compare-exchange, data move and sequence store of
`push` and `pop` is one transition of one thread, so a run is a sequentially
consistent interleaving. The counter arithmetic is a parameter: with `SizeT.word`
it is the `size_t` and `ptrdiff_t` arithmetic of the source, with
`SizeT.unbounded` the positions never wrap. -/
namespace Tinycoro.Mpmc

open Transition

/-- What the queue does with its counters. -/
structure SizeT (κ : Type) (C : Ring.Size) where
  ofNat : Nat → κ
  /-- `pos + n` -/
  add : κ → Nat → κ
  /-- `pos & mask_` -/
  index : κ → Fin C.val
  /-- the subtraction `ptrdiff_t(a) - ptrdiff_t(b)`, as an integer -/
  diff : κ → κ → Int

namespace SizeT

variable (C : Ring.Size)

/-- Counters of `w` bits, compared through their signed reading. -/
def word (w : Nat) : SizeT (BitVec w) C where
  ofNat := BitVec.ofNat w
  add := fun pos n => pos + BitVec.ofNat w n
  index := fun pos => C.index pos.toNat
  diff := fun a b => a.toInt - b.toInt

/-- Counters that never wrap. -/
def unbounded : SizeT Nat C where
  ofNat := id
  add := fun pos n => pos + n
  index := C.index
  diff := fun a b => a - b

end SizeT

/-- A slot. Its data is `none` while default-constructed or moved from. -/
structure Slot (κ α : Type) where
  sequence : κ
  data : Option α

structure MPMCQueue (κ α : Type) (C : Ring.Size) where
  enqueuePos : κ
  dequeuePos : κ
  slots : Fin C.val → Slot κ α

/-- Where a thread stands in a call of `push` or `pop`: in front of the named
operation, with the local variables that are still needed. -/
inductive Pc (κ α : Type) where
  | idle
  | pushLoad (val : α)
  | pushSequence (val : α) (pos : κ)
  | pushExchange (val : α) (pos : κ)
  | pushMove (val : α) (pos : κ)
  | pushStore (pos : κ)
  | popLoad
  | popSequence (pos : κ)
  | popExchange (pos : κ)
  | popMove (pos : κ)
  | popStore (pos : κ) (data : Option α)

/-- What an observer sees: positions claimed by a compare-exchange, and calls
that return. -/
inductive Event (τ κ α : Type) where
  | pushClaimed (t : τ) (pos : κ) (val : α)
  | pushReturned (t : τ) (pos : κ)
  | pushFull (t : τ)
  | popClaimed (t : τ) (pos : κ)
  | popReturned (t : τ) (pos : κ) (data : Option α)
  | popEmpty (t : τ)
  deriving DecidableEq

/-- A thread calls `push` or `pop`, or takes its next step. The flag of a step
makes a weak compare-exchange fail spuriously and is ignored elsewhere. -/
inductive Action (α : Type) where
  | push (val : α)
  | pop
  | step (spurious : Bool)

structure State (τ κ α : Type) (C : Ring.Size) where
  queue : MPMCQueue κ α C
  pc : τ → Pc κ α

variable {τ κ α : Type} {C : Ring.Size}

namespace MPMCQueue

/-- The constructor: slot `i` waits for position `i`. -/
def create (K : SizeT κ C) : MPMCQueue κ α C where
  enqueuePos := K.ofNat 0
  dequeuePos := K.ofNat 0
  slots := fun i => ⟨K.ofNat i.val, none⟩

def setData (q : MPMCQueue κ α C) (i : Fin C.val) (data : Option α) : MPMCQueue κ α C :=
  { q with slots := Function.update q.slots i { q.slots i with data } }

def setSequence (q : MPMCQueue κ α C) (i : Fin C.val) (sequence : κ) : MPMCQueue κ α C :=
  { q with slots := Function.update q.slots i { q.slots i with sequence } }

theorem setData_slots_of_ne (q : MPMCQueue κ α C) {i j : Fin C.val} (h : j ≠ i) (data : Option α) :
    (q.setData i data).slots j = q.slots j := Function.update_of_ne h ..

@[simp] theorem setData_sequence (q : MPMCQueue κ α C) (i j : Fin C.val) (data : Option α) :
    ((q.setData i data).slots j).sequence = (q.slots j).sequence := by
  by_cases h : j = i
  · simp [h, setData]
  · rw [setData_slots_of_ne q h]

@[simp] theorem setData_data_self (q : MPMCQueue κ α C) (i : Fin C.val) (data : Option α) :
    ((q.setData i data).slots i).data = data := by
  simp [setData]

theorem setSequence_slots_of_ne (q : MPMCQueue κ α C) {i j : Fin C.val} (h : j ≠ i) (sequence : κ) :
    (q.setSequence i sequence).slots j = q.slots j := Function.update_of_ne h ..

@[simp] theorem setSequence_sequence_self (q : MPMCQueue κ α C) (i : Fin C.val) (sequence : κ) :
    ((q.setSequence i sequence).slots i).sequence = sequence := by
  simp [setSequence]

@[simp] theorem setSequence_data (q : MPMCQueue κ α C) (i j : Fin C.val) (sequence : κ) :
    ((q.setSequence i sequence).slots j).data = (q.slots j).data := by
  by_cases h : j = i
  · simp [h, setSequence]
  · rw [setSequence_slots_of_ne q h]

end MPMCQueue

namespace State

variable [DecidableEq τ]

/-- Thread `t` continues at `pc` with the queue as given. -/
def goto (s : State τ κ α C) (t : τ) (pc : Pc κ α) (queue : MPMCQueue κ α C) : State τ κ α C where
  queue := queue
  pc := Function.update s.pc t pc

@[simp] theorem goto_queue (s : State τ κ α C) (t : τ) (pc : Pc κ α) (queue : MPMCQueue κ α C) :
    (s.goto t pc queue).queue = queue := rfl

@[simp] theorem goto_pc_self (s : State τ κ α C) (t : τ) (pc : Pc κ α) (queue : MPMCQueue κ α C) :
    (s.goto t pc queue).pc t = pc := Function.update_self ..

theorem goto_pc_of_ne (s : State τ κ α C) {t u : τ} (h : u ≠ t) (pc : Pc κ α)
    (queue : MPMCQueue κ α C) : (s.goto t pc queue).pc u = s.pc u := Function.update_of_ne h ..

end State

variable [DecidableEq τ] [DecidableEq κ]

/-- One step of `push`. Falling through both tests of `diff` reloads the position,
which is where the call began. -/
def pushStep (K : SizeT κ C) (s : State τ κ α C) (t : τ) (spurious : Bool) :
    Pc κ α → Option (State τ κ α C × List (Event τ κ α))
  | .pushLoad val => some (s.goto t (.pushSequence val s.queue.enqueuePos) s.queue, [])
  | .pushSequence val pos =>
    let diff := K.diff (s.queue.slots (K.index pos)).sequence pos
    if diff = 0 then some (s.goto t (.pushExchange val pos) s.queue, [])
    else if diff < 0 then some (s.goto t .idle s.queue, [.pushFull t])
    else some (s.goto t (.pushLoad val) s.queue, [])
  | .pushExchange val pos =>
    if s.queue.enqueuePos = pos ∧ spurious = false then
      some (s.goto t (.pushMove val pos) { s.queue with enqueuePos := K.add pos 1 },
        [.pushClaimed t pos val])
    else some (s.goto t (.pushSequence val s.queue.enqueuePos) s.queue, [])
  | .pushMove val pos =>
      some (s.goto t (.pushStore pos) (s.queue.setData (K.index pos) (some val)), [])
  | .pushStore pos =>
    some (s.goto t .idle (s.queue.setSequence (K.index pos) (K.add pos 1)), [.pushReturned t pos])
  | _ => none

/-- One step of `pop`. -/
def popStep (K : SizeT κ C) (s : State τ κ α C) (t : τ) (spurious : Bool) :
    Pc κ α → Option (State τ κ α C × List (Event τ κ α))
  | .popLoad => some (s.goto t (.popSequence s.queue.dequeuePos) s.queue, [])
  | .popSequence pos =>
    let diff := K.diff (s.queue.slots (K.index pos)).sequence (K.add pos 1)
    if diff = 0 then some (s.goto t (.popExchange pos) s.queue, [])
    else if diff < 0 then some (s.goto t .idle s.queue, [.popEmpty t])
    else some (s.goto t .popLoad s.queue, [])
  | .popExchange pos =>
    if s.queue.dequeuePos = pos ∧ spurious = false then
      some (s.goto t (.popMove pos) { s.queue with dequeuePos := K.add pos 1 }, [.popClaimed t pos])
    else some (s.goto t (.popSequence s.queue.dequeuePos) s.queue, [])
  | .popMove pos =>
    some (s.goto t (.popStore pos (s.queue.slots (K.index pos)).data)
      (s.queue.setData (K.index pos) none), [])
  | .popStore pos data =>
    some (s.goto t .idle (s.queue.setSequence (K.index pos) (K.add pos C.val)),
      [.popReturned t pos data])
  | _ => none

/-- A thread outside the queue may call; a thread inside takes its next step. -/
def next (K : SizeT κ C) (s : State τ κ α C) :
    τ × Action α → Option (State τ κ α C × List (Event τ κ α))
  | (t, .push val) =>
    match s.pc t with
    | .idle => some (s.goto t (.pushLoad val) s.queue, [])
    | _ => none
  | (t, .pop) =>
    match s.pc t with
    | .idle => some (s.goto t .popLoad s.queue, [])
    | _ => none
  | (t, .step spurious) =>
    (pushStep K s t spurious (s.pc t)).or (popStep K s t spurious (s.pc t))

/-- Any number of threads on one queue. -/
def machine (τ α : Type) [DecidableEq τ] (K : SizeT κ C) :
    Machine (State τ κ α C) (τ × Action α) (Event τ κ α) where
  start := ⟨.create K, fun _ => .idle⟩
  next := next K

/-- Everything a thread can do next, with the test each branch has passed. -/
inductive Step (K : SizeT κ C) (s : State τ κ α C) (t : τ) :
    State τ κ α C → List (Event τ κ α) → Prop where
  | callPush (val : α) (hPc : s.pc t = .idle) : Step K s t (s.goto t (.pushLoad val) s.queue) []
  | callPop (hPc : s.pc t = .idle) : Step K s t (s.goto t .popLoad s.queue) []
  | pushLoad {val : α} (hPc : s.pc t = .pushLoad val) :
      Step K s t (s.goto t (.pushSequence val s.queue.enqueuePos) s.queue) []
  | pushFree {val : α} {pos : κ} (hPc : s.pc t = .pushSequence val pos)
      (hDiff : K.diff (s.queue.slots (K.index pos)).sequence pos = 0) :
      Step K s t (s.goto t (.pushExchange val pos) s.queue) []
  | pushFull {val : α} {pos : κ} (hPc : s.pc t = .pushSequence val pos)
      (hDiff : K.diff (s.queue.slots (K.index pos)).sequence pos < 0) :
      Step K s t (s.goto t .idle s.queue) [.pushFull t]
  | pushReload {val : α} {pos : κ} (hPc : s.pc t = .pushSequence val pos)
      (hDiff : 0 < K.diff (s.queue.slots (K.index pos)).sequence pos) :
      Step K s t (s.goto t (.pushLoad val) s.queue) []
  | pushClaim {val : α} {pos : κ} (hPc : s.pc t = .pushExchange val pos)
      (hPos : s.queue.enqueuePos = pos) :
      Step K s t (s.goto t (.pushMove val pos) { s.queue with enqueuePos := K.add pos 1 })
        [.pushClaimed t pos val]
  | pushRetry {val : α} {pos : κ} (hPc : s.pc t = .pushExchange val pos) :
      Step K s t (s.goto t (.pushSequence val s.queue.enqueuePos) s.queue) []
  | pushMove {val : α} {pos : κ} (hPc : s.pc t = .pushMove val pos) :
      Step K s t (s.goto t (.pushStore pos) (s.queue.setData (K.index pos) (some val))) []
  | pushStore {pos : κ} (hPc : s.pc t = .pushStore pos) :
      Step K s t (s.goto t .idle (s.queue.setSequence (K.index pos) (K.add pos 1)))
        [.pushReturned t pos]
  | popLoad (hPc : s.pc t = .popLoad) :
      Step K s t (s.goto t (.popSequence s.queue.dequeuePos) s.queue) []
  | popReady {pos : κ} (hPc : s.pc t = .popSequence pos)
      (hDiff : K.diff (s.queue.slots (K.index pos)).sequence (K.add pos 1) = 0) :
      Step K s t (s.goto t (.popExchange pos) s.queue) []
  | popEmpty {pos : κ} (hPc : s.pc t = .popSequence pos)
      (hDiff : K.diff (s.queue.slots (K.index pos)).sequence (K.add pos 1) < 0) :
      Step K s t (s.goto t .idle s.queue) [.popEmpty t]
  | popReload {pos : κ} (hPc : s.pc t = .popSequence pos)
      (hDiff : 0 < K.diff (s.queue.slots (K.index pos)).sequence (K.add pos 1)) :
      Step K s t (s.goto t .popLoad s.queue) []
  | popClaim {pos : κ} (hPc : s.pc t = .popExchange pos) (hPos : s.queue.dequeuePos = pos) :
      Step K s t (s.goto t (.popMove pos) { s.queue with dequeuePos := K.add pos 1 })
        [.popClaimed t pos]
  | popRetry {pos : κ} (hPc : s.pc t = .popExchange pos) :
      Step K s t (s.goto t (.popSequence s.queue.dequeuePos) s.queue) []
  | popMove {pos : κ} (hPc : s.pc t = .popMove pos) :
      Step K s t (s.goto t (.popStore pos (s.queue.slots (K.index pos)).data)
        (s.queue.setData (K.index pos) none)) []
  | popStore {pos : κ} {data : Option α} (hPc : s.pc t = .popStore pos data) :
      Step K s t (s.goto t .idle (s.queue.setSequence (K.index pos) (K.add pos C.val)))
        [.popReturned t pos data]

variable {K : SizeT κ C} {s s' : State τ κ α C} {events : List (Event τ κ α)}

theorem step_of_pushStep {t : τ} {spurious : Bool}
    (h : pushStep K s t spurious (s.pc t) = some (s', events)) : Step K s t s' events := by
  cases hPc : s.pc t <;> simp only [hPc, pushStep, reduceCtorEq, Option.some.injEq,
    Prod.mk.injEq] at h
  case pushLoad val =>
    obtain ⟨rfl, rfl⟩ := h
    exact .pushLoad hPc
  case pushSequence val pos =>
    split_ifs at h with hZero hNeg <;> cases h
    · exact .pushFree hPc hZero
    · exact .pushFull hPc hNeg
    · exact .pushReload hPc (by omega)
  case pushExchange val pos =>
    split_ifs at h with hPos <;> cases h
    · exact .pushClaim hPc hPos.1
    · exact .pushRetry hPc
  case pushMove val pos =>
    obtain ⟨rfl, rfl⟩ := h
    exact .pushMove hPc
  case pushStore pos =>
    obtain ⟨rfl, rfl⟩ := h
    exact .pushStore hPc

theorem step_of_popStep {t : τ} {spurious : Bool}
    (h : popStep K s t spurious (s.pc t) = some (s', events)) : Step K s t s' events := by
  cases hPc : s.pc t <;> simp only [hPc, popStep, reduceCtorEq, Option.some.injEq,
    Prod.mk.injEq] at h
  case popLoad =>
    obtain ⟨rfl, rfl⟩ := h
    exact .popLoad hPc
  case popSequence pos =>
    split_ifs at h with hZero hNeg <;> cases h
    · exact .popReady hPc hZero
    · exact .popEmpty hPc hNeg
    · exact .popReload hPc (by omega)
  case popExchange pos =>
    split_ifs at h with hPos <;> cases h
    · exact .popClaim hPc hPos.1
    · exact .popRetry hPc
  case popMove pos =>
    obtain ⟨rfl, rfl⟩ := h
    exact .popMove hPc
  case popStore pos data =>
    obtain ⟨rfl, rfl⟩ := h
    exact .popStore hPc

theorem step_of_next {t : τ} {action : Action α} (h : next K s (t, action) = some (s', events)) :
    Step K s t s' events := by
  cases action with
  | push val =>
    simp only [next] at h
    split at h
    · cases h
      exact .callPush val ‹_›
    · cases h
  | pop =>
    simp only [next] at h
    split at h
    · cases h
      exact .callPop ‹_›
    · cases h
  | step =>
    rcases Option.or_eq_some_iff.mp h with hPush | ⟨-, hPop⟩
    · exact step_of_pushStep hPush
    · exact step_of_popStep hPop

/-- A step of a call is taken by a thread that is in one. -/
theorem pc_ne_idle_of_next {t : τ} {spurious : Bool}
    (h : next K s (t, .step spurious) = some (s', events)) : s.pc t ≠ .idle := by
  intro hIdle
  rw [next, hIdle] at h
  cases h

omit [DecidableEq κ] in
theorem Step.pc_of_ne {t u : τ} (h : Step K s t s' events) (hu : u ≠ t) : s'.pc u = s.pc u := by
  cases h <;> exact s.goto_pc_of_ne hu _ _

end Tinycoro.Mpmc
