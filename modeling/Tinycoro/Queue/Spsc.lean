import Tinycoro.Library.Ring
import Tinycoro.Library.Transition

/-! The single-producer single-consumer ring queue, at the grain of its atomic
operations: each load, each access to a slot and each store of `push` and `pop` is one
transition, so a run is a sequentially consistent interleaving of the two threads. The
indices wrap, and each thread works from a copy of the other's index that may be stale.
The invariant relates the indices to the numbers of values pushed and popped so far. -/
namespace Tinycoro.Spsc

open Transition

variable {α : Type} {C : Ring.Size}

structure SPSCQueue (α : Type) (C : Ring.Size) where
  buffer : Fin C.val → α
  head : Fin C.val
  tail : Fin C.val

/-- Where the producer stands in `push`: in front of the named operation. -/
inductive Producer (α : Type) (C : Ring.Size) where
  | idle
  | loadTail (val : α)
  | loadHead (val : α) (tail : Fin C.val)
  | write (val : α) (tail : Fin C.val)
  | store (val : α) (tail : Fin C.val)

/-- Where the consumer stands in `pop`. -/
inductive Consumer (α : Type) (C : Ring.Size) where
  | idle
  | loadHead
  | loadTail (head : Fin C.val)
  | read (head : Fin C.val)
  | store (head : Fin C.val) (val : α)

structure State (α : Type) (C : Ring.Size) where
  queue : SPSCQueue α C
  producer : Producer α C
  consumer : Consumer α C

/-- The calls that return. `pushThrew` is a `push` whose assignment to the slot threw. -/
inductive Event (α : Type) where
  | pushed (val : α)
  | pushFull
  | pushThrew
  | popped (val : α)
  | popEmpty
  deriving DecidableEq

/-- The producer calls `push`, the consumer calls `pop`, or one of them takes its next
step. A step that assigns to a slot may throw, with `torn` left in the slot; both
overloads of `push` are such steps. A step that moves out of a slot leaves `husk`
there. The arguments are ignored by the other steps. -/
inductive Action (α : Type) where
  | push (val : α)
  | produce (torn : Option α)
  | pop
  | consume (husk : α)

namespace SPSCQueue

/-- The constructor, with default-constructed slots. -/
def create (blank : α) : SPSCQueue α C where
  buffer := fun _ => blank
  head := C.index 0
  tail := C.index 0

def put (q : SPSCQueue α C) (i : Fin C.val) (val : α) : SPSCQueue α C :=
  { q with buffer := Function.update q.buffer i val }

theorem put_buffer_self (q : SPSCQueue α C) (i : Fin C.val) (val : α) :
    (q.put i val).buffer i = val :=
  Function.update_self ..

theorem put_buffer_of_ne (q : SPSCQueue α C) {i j : Fin C.val} (val : α) (h : j ≠ i) :
    (q.put i val).buffer j = q.buffer j := Function.update_of_ne h ..

end SPSCQueue

namespace State

def start (blank : α) : State α C := ⟨.create blank, .idle, .idle⟩

/-- One step of `push(const T&)` or `push(T&&)`. -/
def produce (s : State α C) (torn : Option α) : Option (State α C × List (Event α)) :=
  match s.producer with
  | .idle => none
  | .loadTail val => some ({ s with producer := .loadHead val s.queue.tail }, [])
  | .loadHead val tail =>
    if C.index (tail.val + 1) = s.queue.head then some ({ s with producer := .idle }, [.pushFull])
    else some ({ s with producer := .write val tail }, [])
  | .write val tail =>
    match torn with
    | none => some ({ s with queue := s.queue.put tail val, producer := .store val tail }, [])
    | some rest => some ({ s with queue := s.queue.put tail rest, producer := .idle }, [.pushThrew])
  | .store val tail =>
    some ({ s with queue.tail := C.index (tail.val + 1), producer := .idle }, [.pushed val])

/-- One step of `pop`. -/
def consume (s : State α C) (husk : α) : Option (State α C × List (Event α)) :=
  match s.consumer with
  | .idle => none
  | .loadHead => some ({ s with consumer := .loadTail s.queue.head }, [])
  | .loadTail head =>
    if head = s.queue.tail then some ({ s with consumer := .idle }, [.popEmpty])
    else some ({ s with consumer := .read head }, [])
  | .read head =>
    some ({ s with queue := s.queue.put head husk, consumer := .store head (s.queue.buffer head) },
      [])
  | .store head val =>
    some ({ s with queue.head := C.index (head.val + 1), consumer := .idle }, [.popped val])

def next (s : State α C) : Action α → Option (State α C × List (Event α))
  | .push val =>
    match s.producer with
    | .idle => some ({ s with producer := .loadTail val }, [])
    | _ => none
  | .pop =>
    match s.consumer with
    | .idle => some ({ s with consumer := .loadHead }, [])
    | _ => none
  | .produce torn => s.produce torn
  | .consume husk => s.consume husk

end State

/-- A queue with one producer and one consumer. -/
def machine (C : Ring.Size) (blank : α) : Machine (State α C) (Action α) (Event α) where
  start := .start blank
  next := State.next

/-- What a step of a thread can do. -/
inductive Step (s : State α C) : State α C → List (Event α) → Prop where
  | pushCalled {val} : s.producer = .idle → Step s { s with producer := .loadTail val } []
  | tailLoaded {val} : s.producer = .loadTail val →
      Step s { s with producer := .loadHead val s.queue.tail } []
  | full {val tail} : s.producer = .loadHead val tail → C.index (tail.val + 1) = s.queue.head →
      Step s { s with producer := .idle } [.pushFull]
  | notFull {val tail} : s.producer = .loadHead val tail → C.index (tail.val + 1) ≠ s.queue.head →
      Step s { s with producer := .write val tail } []
  | assigned {val tail} : s.producer = .write val tail →
      Step s { s with queue := s.queue.put tail val, producer := .store val tail } []
  | threw {val tail rest} : s.producer = .write val tail →
      Step s { s with queue := s.queue.put tail rest, producer := .idle } [.pushThrew]
  | tailStored {val tail} : s.producer = .store val tail →
      Step s { s with queue.tail := C.index (tail.val + 1), producer := .idle } [.pushed val]
  | popCalled : s.consumer = .idle → Step s { s with consumer := .loadHead } []
  | headLoaded : s.consumer = .loadHead → Step s { s with consumer := .loadTail s.queue.head } []
  | empty {head} : s.consumer = .loadTail head → head = s.queue.tail →
      Step s { s with consumer := .idle } [.popEmpty]
  | notEmpty {head} : s.consumer = .loadTail head → head ≠ s.queue.tail →
      Step s { s with consumer := .read head } []
  | moved {head husk} :
      s.consumer = .read head →
      Step s { s with queue := s.queue.put head husk, consumer := .store head (s.queue.buffer head)
        } []
  | headStored {head val} : s.consumer = .store head val →
      Step s { s with queue.head := C.index (head.val + 1), consumer := .idle } [.popped val]

namespace Step

variable {s s' : State α C} {events : List (Event α)}

theorem of_produce {torn : Option α} (h : s.produce torn = some (s', events)) :
    Step s s' events := by
  unfold State.produce at h
  cases hPc : s.producer with
  | idle =>
    simp only [hPc] at h
    cases h
  | loadTail =>
    simp only [hPc] at h
    cases h
    exact .tailLoaded hPc
  | loadHead =>
    simp only [hPc] at h
    split at h
    · cases h
      exact .full hPc ‹_›
    · cases h
      exact .notFull hPc ‹_›
  | write =>
    simp only [hPc] at h
    cases torn with
    | none =>
      cases h
      exact .assigned hPc
    | some =>
      cases h
      exact .threw hPc
  | store =>
    simp only [hPc] at h
    cases h
    exact .tailStored hPc

theorem of_consume {husk : α} (h : s.consume husk = some (s', events)) : Step s s' events := by
  unfold State.consume at h
  cases hPc : s.consumer with
  | idle =>
    simp only [hPc] at h
    cases h
  | loadHead =>
    simp only [hPc] at h
    cases h
    exact .headLoaded hPc
  | loadTail =>
    simp only [hPc] at h
    split at h
    · cases h
      exact .empty hPc ‹_›
    · cases h
      exact .notEmpty hPc ‹_›
  | read =>
    simp only [hPc] at h
    cases h
    exact .moved hPc
  | store =>
    simp only [hPc] at h
    cases h
    exact .headStored hPc

theorem of_next {a : Action α} (h : s.next a = some (s', events)) : Step s s' events := by
  cases a with
  | push =>
    cases hPc : s.producer with
    | idle =>
      simp only [State.next, hPc] at h
      cases h
      exact .pushCalled hPc
    | _ => simp [State.next, hPc] at h
  | pop =>
    cases hPc : s.consumer with
    | idle =>
      simp only [State.next, hPc] at h
      cases h
      exact .popCalled hPc
    | _ => simp [State.next, hPc] at h
  | produce => exact of_produce h
  | consume => exact of_consume h

theorem full_of_mem (h : Step s s' events) (hMem : .pushFull ∈ events) :
    ∃ val tail, s.producer = .loadHead val tail ∧ C.index (tail.val + 1) = s.queue.head := by
  cases h with
  | full hPc hFull => exact ⟨_, _, hPc, hFull⟩
  | _ => simp at hMem

theorem empty_of_mem (h : Step s s' events) (hMem : .popEmpty ∈ events) :
    ∃ head, s.consumer = .loadTail head ∧ head = s.queue.tail := by
  cases h with
  | empty hPc hEmpty => exact ⟨_, hPc, hEmpty⟩
  | _ => simp at hMem

end Step

section History

/-- The values pushed successfully, in order. -/
def pushed (trace : List (Event α)) : List α :=
  trace.filterMap fun
    | .pushed val => some val
    | _ => none

/-- The values popped, in order. -/
def popped (trace : List (Event α)) : List α :=
  trace.filterMap fun
    | .popped val => some val
    | _ => none

theorem pushed_append (trace events : List (Event α)) :
    pushed (trace ++ events) = pushed trace ++ pushed events := List.filterMap_append ..

theorem popped_append (trace events : List (Event α)) :
    popped (trace ++ events) = popped trace ++ popped events := List.filterMap_append ..

end History

/-- What the producer knows at each point of a call, with `back` values pushed and
`front` of them popped. -/
def Producer.Ok (buffer : Fin C.val → α) (back front : Nat) : Producer α C → Prop
  | .idle => True
  | .loadTail _ => True
  | .loadHead _ tail => tail = C.index back
  | .write _ tail => tail = C.index back ∧ back + 1 < front + C.val
  | .store val tail => tail = C.index back ∧ back + 1 < front + C.val ∧ buffer (C.index back) = val

/-- What the consumer knows at each point of a call, with `front` of the values
popped. -/
def Consumer.Ok (values : List α) (front : Nat) : Consumer α C → Prop
  | .idle => True
  | .loadHead => True
  | .loadTail head => head = C.index front
  | .read head => head = C.index front ∧ front < values.length
  | .store head val => head = C.index front ∧ values[front]? = some val

/-- The first position whose slot the consumer has not moved out of. -/
def Consumer.kept (front : Nat) : Consumer α C → Nat
  | .store _ _ => front + 1
  | _ => front

/-- The consumer's progress only makes room. -/
theorem Producer.Ok.mono {pc : Producer α C} {buffer buffer' : Fin C.val → α}
    {back front front' : Nat} (h : pc.Ok buffer back front)
    (hSlot : buffer' (C.index back) = buffer (C.index back)) (hLe : front ≤ front') :
    pc.Ok buffer' back front' := by
  have hRoom := Nat.add_le_add_right hLe C.val
  cases pc with
  | idle => trivial
  | loadTail => trivial
  | loadHead => exact h
  | write => exact ⟨h.1, Nat.lt_of_lt_of_le h.2 hRoom⟩
  | store => exact ⟨h.1, Nat.lt_of_lt_of_le h.2.1 hRoom, hSlot.trans h.2.2⟩

/-- The producer's progress only adds values. -/
theorem Consumer.Ok.append {pc : Consumer α C} {values : List α} {front : Nat}
    (h : pc.Ok values front) (val : α) : pc.Ok (values ++ [val]) front := by
  cases pc with
  | idle => trivial
  | loadHead => trivial
  | loadTail => exact h
  | read =>
    refine ⟨h.1, ?_⟩
    rw [List.length_append]
    exact Nat.lt_add_right _ h.2
  | store =>
    obtain ⟨hLt, _⟩ := List.getElem?_eq_some_iff.mp h.2
    exact ⟨h.1, by rw [List.getElem?_append_left hLt, h.2]⟩

theorem Consumer.front_le_kept (pc : Consumer α C) (front : Nat) : front ≤ pc.kept front := by
  unfold kept
  split
  · exact Nat.le_succ _
  · exact Nat.le_refl _

/-- `values` were pushed so far and `taken` were popped. -/
structure Inv (s : State α C) (values taken : List α) : Prop where
  head : s.queue.head = C.index taken.length
  tail : s.queue.tail = C.index values.length
  fifo : taken <+: values
  bounded : values.length < taken.length + C.val
  slots : ∀ i, s.consumer.kept taken.length ≤ i → i < values.length →
    values[i]? = some (s.queue.buffer (C.index i))
  producer : s.producer.Ok s.queue.buffer values.length taken.length
  consumer : s.consumer.Ok values taken.length

namespace Inv

variable {s s' : State α C} {values taken : List α} {events : List (Event α)}

theorem start (blank : α) : Inv (State.start blank : State α C) [] [] where
  head := rfl
  tail := rfl
  fifo := List.prefix_rfl
  bounded := Nat.lt_of_lt_of_le Nat.zero_lt_two (Nat.le_add_left_of_le C.two_le)
  slots := fun i _ hLt => absurd hLt (Nat.not_lt_zero i)
  producer := trivial
  consumer := trivial

/-- The producer sees a full ring exactly when one slot is left. -/
theorem full_iff (h : Inv s values taken) {tail : Fin C.val}
    (hTail : tail = C.index values.length) :
    C.index (tail.val + 1) = s.queue.head ↔ values.length + 1 = taken.length + C.val := by
  have hLe := h.fifo.length_le
  have hLt := h.bounded
  rw [hTail, Ring.Size.index_succ, h.head]
  refine ⟨fun hEq => ?_, fun hEq => ?_⟩
  · have hLap := Ring.Size.lap_le_of_index_eq hEq.symm (by omega)
    omega
  · rw [hEq, Ring.Size.index_add_lap]

/-- The consumer sees an empty ring exactly when every value was popped. -/
theorem empty_iff (h : Inv s values taken) {head : Fin C.val}
    (hHead : head = C.index taken.length) : head = s.queue.tail ↔ taken.length = values.length := by
  rw [hHead, h.tail]
  refine ⟨fun hEq => ?_, fun hEq => by rw [hEq]⟩
  by_contra hNe
  exact Ring.Size.index_ne_of_lt (Nat.lt_of_le_of_ne h.fifo.length_le hNe) h.bounded hEq

/-- The slot the producer works on holds no value that is still to be popped. -/
theorem slot_free (h : Inv s values taken) {i : Nat} (hFront : taken.length ≤ i)
    (hBack : i < values.length) : C.index i ≠ C.index values.length :=
  Ring.Size.index_ne_of_lt hBack (Nat.lt_of_lt_of_le h.bounded (Nat.add_le_add_right hFront _))

/-- Events that are neither a value pushed nor a value popped. -/
theorem quiet (h : Inv s values taken) (hPush : pushed events = []) (hPop : popped events = []) :
    Inv s (values ++ pushed events) (taken ++ popped events) := by
  rwa [hPush, hPop, List.append_nil, List.append_nil]

/-- Only the producer's own position changes. -/
theorem turnProducer (h : Inv s values taken) (pc : Producer α C)
    (hPc : pc.Ok s.queue.buffer values.length taken.length) :
    Inv { s with producer := pc } values taken :=
  { h with producer := hPc }

/-- Only the consumer's own position changes. -/
theorem turnConsumer (h : Inv s values taken) (pc : Consumer α C) (hPc : pc.Ok values taken.length)
    (hKept : s.consumer.kept taken.length ≤ pc.kept taken.length) :
    Inv { s with consumer := pc } values taken :=
  { h with
    consumer := hPc
    slots := fun i hi => h.slots i (hKept.trans hi) }

/-- The producer assigns to the slot behind the last value. -/
theorem assign (h : Inv s values taken) (val : α) (pc : Producer α C)
    (hPc : pc.Ok (s.queue.put (C.index values.length) val).buffer values.length taken.length) :
    Inv { s with queue := s.queue.put (C.index values.length) val, producer := pc } values taken
      where
  head := h.head
  tail := h.tail
  fifo := h.fifo
  bounded := h.bounded
  slots := by
    intro i hi hLt
    rw [s.queue.put_buffer_of_ne val (h.slot_free ((s.consumer.front_le_kept _).trans hi) hLt)]
    exact h.slots i hi hLt
  producer := hPc
  consumer := h.consumer

/-- The new tail makes the assigned value the last one. -/
theorem push (h : Inv s values taken) {val : α} {tail : Fin C.val}
    (hPc : s.producer = .store val tail) :
    Inv { s with queue.tail := C.index (tail.val + 1), producer := .idle }
      (values ++ [val]) taken := by
  have hStore := h.producer
  rw [hPc] at hStore
  obtain ⟨rfl, hRoom, hSlot⟩ := hStore
  have hLength : (values ++ [val]).length = values.length + 1 := List.length_append
  refine ⟨h.head, ?_, h.fifo.trans (List.prefix_append ..), ?_, ?_, trivial, h.consumer.append val⟩
  · rw [hLength, Ring.Size.index_succ]
  · rw [hLength]
    exact hRoom
  · intro i hKept hLt
    rw [hLength] at hLt
    rcases Nat.lt_succ_iff_lt_or_eq.mp hLt with hOld | rfl
    · rw [List.getElem?_append_left hOld]
      exact h.slots i hKept hOld
    · rw [← hSlot]
      exact List.getElem?_concat_length

/-- The consumer moves the first value out of its slot. -/
theorem take (h : Inv s values taken) {head : Fin C.val} (hPc : s.consumer = .read head)
    (husk : α) :
    Inv { s with queue := s.queue.put head husk, consumer := .store head (s.queue.buffer head) }
      values taken := by
  have hRead := h.consumer
  have hLap := h.bounded
  have hSlots := h.slots
  rw [hPc] at hRead hSlots
  obtain ⟨rfl, hLt⟩ := hRead
  refine ⟨h.head, h.tail, h.fifo, hLap, ?_, ?_, rfl, hSlots _ (Nat.le_refl _) hLt⟩
  · intro i hAfter hBack
    have hNe : C.index i ≠ C.index taken.length :=
      (Ring.Size.index_ne_of_lt hAfter (by omega)).symm
    rw [s.queue.put_buffer_of_ne husk hNe]
    exact hSlots i (Nat.le_of_succ_le hAfter) hBack
  · apply h.producer.mono _ (Nat.le_refl _)
    exact s.queue.put_buffer_of_ne husk (h.slot_free (Nat.le_refl _) hLt).symm

/-- The new head gives the slot of the first value back to the producer. -/
theorem pop (h : Inv s values taken) {val : α} {head : Fin C.val}
    (hPc : s.consumer = .store head val) :
    Inv { s with queue.head := C.index (head.val + 1), consumer := .idle } values
      (taken ++ [val]) := by
  have hStore := h.consumer
  have hLap := h.bounded
  have hSlots := h.slots
  rw [hPc] at hStore hSlots
  obtain ⟨rfl, hVal⟩ := hStore
  have hLength : (taken ++ [val]).length = taken.length + 1 := List.length_append
  refine ⟨?_, h.tail, ?_, ?_, ?_, ?_, trivial⟩
  · rw [hLength, Ring.Size.index_succ]
  · rw [List.prefix_iff_eq_take, hLength, List.take_add_one, hVal, ← List.prefix_iff_eq_take.mp
      h.fifo]
    rfl
  · rw [hLength]
    omega
  · rw [hLength]
    exact hSlots
  · rw [hLength]
    exact h.producer.mono rfl (Nat.le_succ _)

/-- Every step of either side keeps the queue between what was pushed and what was popped. -/
theorem step (h : Inv s values taken) (hStep : Step s s' events) :
    Inv s' (values ++ pushed events) (taken ++ popped events) := by
  have hProducer := h.producer
  have hConsumer := h.consumer
  have hBounded := h.bounded
  have hKept : ∀ {pc : Consumer α C}, s.consumer = pc → pc.kept taken.length = taken.length →
      s.consumer.kept taken.length ≤ taken.length := by
    rintro _ rfl hEq
    exact Nat.le_of_eq hEq
  cases hStep with
  | pushCalled => exact (h.turnProducer (.loadTail _) trivial).quiet rfl rfl
  | tailLoaded => exact (h.turnProducer (.loadHead _ _) h.tail).quiet rfl rfl
  | full => exact (h.turnProducer .idle trivial).quiet rfl rfl
  | notFull hPc hRoom =>
    rw [hPc] at hProducer
    rw [Ne, h.full_iff hProducer] at hRoom
    exact (h.turnProducer (.write _ _) ⟨hProducer, by omega⟩).quiet rfl rfl
  | assigned hPc =>
    rw [hPc] at hProducer
    obtain ⟨rfl, hRoom⟩ := hProducer
    exact (h.assign _ (.store _ _) ⟨rfl, hRoom, s.queue.put_buffer_self ..⟩).quiet rfl rfl
  | threw hPc =>
    rw [hPc] at hProducer
    obtain ⟨rfl, _⟩ := hProducer
    exact (h.assign _ .idle trivial).quiet rfl rfl
  | tailStored hPc =>
    rw [show popped [Event.pushed _] = [] from rfl, List.append_nil]
    exact h.push hPc
  | popCalled hPc => exact (h.turnConsumer .loadHead trivial (hKept hPc rfl)).quiet rfl rfl
  | headLoaded hPc => exact (h.turnConsumer (.loadTail _) h.head (hKept hPc rfl)).quiet rfl rfl
  | empty hPc => exact (h.turnConsumer .idle trivial (hKept hPc rfl)).quiet rfl rfl
  | notEmpty hPc hSome =>
    have hFront := hKept hPc rfl
    rw [hPc] at hConsumer
    rw [Ne, h.empty_iff hConsumer] at hSome
    have hLt := Nat.lt_of_le_of_ne h.fifo.length_le hSome
    exact (h.turnConsumer (.read _) ⟨hConsumer, hLt⟩ hFront).quiet rfl rfl
  | moved hPc => exact (h.take hPc _).quiet rfl rfl
  | headStored hPc =>
    rw [show pushed [Event.popped _] = [] from rfl, List.append_nil]
    exact h.pop hPc

/-- The invariant along a run. -/
theorem of_reaches {blank : α} {trace : List (Event α)} (h : (machine C blank).Reaches s trace) :
    Inv s (pushed trace) (popped trace) := by
  refine h.invariant (P := fun s trace => Inv s (pushed trace) (popped trace)) (start blank) ?_
  intro _ _ _ _ _ _ hInv hNext
  rw [pushed_append, popped_append]
  exact hInv.step (.of_next hNext)

end Inv

/-- How many values are in the queue. -/
def held (trace : List (Event α)) : Nat := (pushed trace).length - (popped trace).length

/-- What the queue guarantees at every point of a run. Value number `i` is the one
that was pushed after `i` others; it is unpopped while it was pushed and not popped. -/
structure BoundedFifo (s : State α C) (trace : List (Event α)) : Prop where
  fifo : popped trace <+: pushed trace
  bounded : held trace ≤ C.val - 1
  /-- An unpopped value lies in its slot, unless `pop` is just moving it out. -/
  stored : ∀ i, (popped trace).length ≤ i → i < (pushed trace).length →
    (∀ head val, s.consumer = .store head val → head ≠ C.index i) →
      (pushed trace)[i]? = some (s.queue.buffer (C.index i))
  /-- The slot the producer assigns to holds no unpopped value and is not read. -/
  exclusive : ∀ val slot, s.producer = .write val slot →
    (∀ i, (popped trace).length ≤ i → i < (pushed trace).length → C.index i ≠ slot) ∧
      (∀ head, s.consumer = .read head → head ≠ slot) ∧ ∀ head val, s.consumer = .store head val →
      head ≠ slot
  full : ∀ a s' events, s.next a = some (s', events) → .pushFull ∈ events →
    (∃ val tail, s.producer = .loadHead val tail) ∧ held trace = C.val - 1
  empty : ∀ a s' events, s.next a = some (s', events) → .popEmpty ∈ events →
    (∃ head, s.consumer = .loadTail head) ∧ held trace = 0

section Conclusions

variable {s : State α C} {values taken : List α}

/-- The slot the consumer is moving out of is not the one the producer works on. -/
theorem Inv.slot_ne (h : Inv s values taken) {head : Fin C.val}
    (hHead : head = C.index taken.length) (hLt : taken.length < values.length) :
    head ≠ C.index values.length := by
  rw [hHead]
  exact h.slot_free (Nat.le_refl _) hLt

/-- Any interleaving of one producer with one consumer, over any number of laps, is a
bounded first-in first-out queue. -/
theorem boundedFifo_of_reaches {blank : α} {trace : List (Event α)}
    (h : (machine C blank).Reaches s trace) : BoundedFifo s trace := by
  have hInv := Inv.of_reaches h
  have hBounded := hInv.bounded
  have hLe := hInv.fifo.length_le
  have hTwo := C.two_le
  refine ⟨hInv.fifo, ?_, ?_, ?_, ?_, ?_⟩
  · rw [held]
    omega
  · intro i hFront hBack hMoving
    apply hInv.slots i _ hBack
    cases hPc : s.consumer with
    | store head val =>
      have hConsumer := hInv.consumer
      rw [hPc] at hConsumer
      have hNe : (popped trace).length ≠ i := by
        rintro rfl
        exact hMoving head val hPc hConsumer.1
      exact Nat.lt_of_le_of_ne hFront hNe
    | _ => exact hFront
  · intro val slot hPc
    have hProducer := hInv.producer
    have hConsumer := hInv.consumer
    rw [hPc] at hProducer
    obtain ⟨rfl, _⟩ := hProducer
    refine ⟨fun i hFront hBack => hInv.slot_free hFront hBack, ?_, ?_⟩
    · intro head hReader
      rw [hReader] at hConsumer
      exact hInv.slot_ne hConsumer.1 hConsumer.2
    · intro head first hReader
      rw [hReader] at hConsumer
      obtain ⟨hLt, _⟩ := List.getElem?_eq_some_iff.mp hConsumer.2
      exact hInv.slot_ne hConsumer.1 hLt
  · intro a s' events hNext hMem
    obtain ⟨val, tail, hPc, hFull⟩ := (Step.of_next hNext).full_of_mem hMem
    have hProducer := hInv.producer
    rw [hPc] at hProducer
    have hCount := (hInv.full_iff hProducer).mp hFull
    refine ⟨⟨val, tail, hPc⟩, ?_⟩
    rw [held]
    omega
  · intro a s' events hNext hMem
    obtain ⟨head, hPc, hEmpty⟩ := (Step.of_next hNext).empty_of_mem hMem
    have hConsumer := hInv.consumer
    rw [hPc] at hConsumer
    have hCount := (hInv.empty_iff hConsumer).mp hEmpty
    refine ⟨⟨head, hPc⟩, ?_⟩
    rw [held]
    omega

/-- In a ring of two slots: the second value finds the queue full, the first is popped,
the third wraps around and finds the consumer in front of it. -/
theorem boundedFifo_of_reaches_lap :
    ∃ (s : State Nat ⟨2, by decide, by decide⟩) (trace : List (Event Nat)),
      trace = [.pushed 5, .pushFull, .popped 5, .popEmpty, .pushed 7] ∧ BoundedFifo s trace := by
  have hRun : ((machine ⟨2, by decide, by decide⟩ 0).run (.start 0)
      [.push 5, .produce none, .produce none, .produce none, .produce none, .push 6, .pop,
        .consume 0, .produce none, .produce none, .consume 0, .consume 0, .consume 0, .push 7,
        .produce none,
        .produce none, .produce none, .pop, .consume 0, .consume 0, .produce none]).map
        (fun r => r.2) =
      some [.pushed 5, .pushFull, .popped 5, .popEmpty, .pushed 7] := by decide +kernel
  obtain ⟨⟨s, trace⟩, hRun, hTrace⟩ := Option.map_eq_some_iff.mp hRun
  exact ⟨s, trace, hTrace, boundedFifo_of_reaches (Machine.Reaches.start.run hRun)⟩

end Conclusions

end Tinycoro.Spsc
