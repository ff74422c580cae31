import Tinycoro.Library.History
import Tinycoro.Queue.Spsc
import Mathlib.Data.BitVec

/-! `size()` and `empty()` of the single-producer single-consumer queue. Either thread may
call them between its own operations, while the other thread goes on. Two loads are
combined, and the other index may move between them. The caller's own index does not, so
the answer is the number of values at the moment the other index is loaded. -/
namespace Tinycoro.Spsc

open Transition History

variable {α : Type} {C : Ring.Size} {w : Nat}

inductive Side where
  | producer
  | consumer
  deriving DecidableEq

def Side.other : Side → Side
  | .producer => .consumer
  | .consumer => .producer

inductive Query where
  | size
  | empty
  deriving DecidableEq

/-- The index a side stores: `tail_` or `head_`. -/
def SPSCQueue.indexOf (q : SPSCQueue α C) : Side → Fin C.val
  | .producer => q.tail
  | .consumer => q.head

/-- The threads of the actions of the queue. -/
def Action.side : Action α → Side
  | .push _ | .produce _ => .producer
  | .pop | .consume _ => .consumer

/-- The side is outside `push` and `pop`. -/
def State.between (s : State α C) : Side → Bool
  | .producer =>
    match s.producer with
    | .idle => true
    | _ => false
  | .consumer =>
    match s.consumer with
    | .idle => true
    | _ => false

/-- Where a side stands in `size()` or `empty()`: outside, in front of its first load, or
with one index loaded. `first` and `owner` say whose index it is. -/
inductive Probe (C : Ring.Size) where
  | outside
  | called (query : Query) (first : Side)
  | loaded (query : Query) (owner : Side) (index : Fin C.val)
  deriving DecidableEq

/-- The queue with a probe of each side. -/
structure Probed (α : Type) (C : Ring.Size) where
  inner : State α C
  probe : Side → Probe C

/-- The calls of the queue that return, the calls of `size()` and `empty()`, and their
answers. -/
inductive Observation (α : Type) (w : Nat) where
  | queue (event : Event α)
  | called (side : Side) (query : Query)
  | sized (side : Side) (n : BitVec w)
  | tested (side : Side) (answer : Bool)
  deriving DecidableEq

/-- A side takes an action of the queue, calls one of the two functions, or makes its
next load. `size()` loads `head_` first; the order of the two loads of `empty()` is left
open by the language. -/
inductive Turn (α : Type) where
  | act (a : Action α)
  | call (side : Side) (query : Query) (first : Side)
  | load (side : Side)

/-- `(t - h + Capacity) & mask_` -/
def sizeOf (w : Nat) (h t : Fin C.val) : BitVec w :=
  (BitVec.ofNat w t.val - BitVec.ofNat w h.val + BitVec.ofNat w C.val) &&& BitVec.ofNat w C.mask

/-- The answer from `head_` and `tail_`. -/
def Query.answer (query : Query) (side : Side) (h t : Fin C.val) : Observation α w :=
  match query with
  | .size => .sized side (sizeOf w h t)
  | .empty => .tested side (decide (h = t))

namespace Probed

def start (blank : α) : Probed α C := ⟨.start blank, fun _ => .outside⟩

def goto (s : Probed α C) (side : Side) (probe : Probe C) : Probed α C :=
  { s with probe := Function.update s.probe side probe }

theorem goto_probe_self (s : Probed α C) (side : Side) (probe : Probe C) :
    (s.goto side probe).probe side = probe :=
  Function.update_self ..

theorem goto_probe_of_ne (s : Probed α C) {side other : Side} (h : other ≠ side) (probe : Probe C) :
    (s.goto side probe).probe other = s.probe other := Function.update_of_ne h ..

/-- One load of `size()` or `empty()`; the second one answers. -/
def load (s : Probed α C) (side : Side) : Option (Probed α C × List (Observation α w)) :=
  match s.probe side with
  | .outside => none
  | .called query first =>
      some (s.goto side (.loaded query first (s.inner.queue.indexOf first)), [])
  | .loaded query .consumer h =>
      some (s.goto side .outside, [query.answer side h s.inner.queue.tail])
  | .loaded query .producer t =>
      some (s.goto side .outside, [query.answer side s.inner.queue.head t])

def next (s : Probed α C) : Turn α → Option (Probed α C × List (Observation α w))
  | .act a =>
    if s.probe a.side = .outside then
      (s.inner.next a).map (fun r => ({ s with inner := r.1 }, r.2.map .queue))
    else none
  | .call side query first =>
    if s.probe side = .outside ∧ s.inner.between side ∧ (query = .size → first = .consumer) then
      some (s.goto side (.called query first), [.called side query])
    else none
  | .load side => s.load side

end Probed

/-- The queue with callers of `size()` and `empty()` on both sides. -/
def probedMachine (C : Ring.Size) (blank : α) (w : Nat) :
    Machine (Probed α C) (Turn α) (Observation α w) where
  start := .start blank
  next := Probed.next

section History

/-- The events of the queue itself. -/
def acts (trace : List (Observation α w)) : List (Event α) :=
  trace.filterMap fun
    | .queue event => some event
    | _ => none

/-- How often a side has stored its index. -/
def count (side : Side) (trace : List (Observation α w)) : Nat :=
  match side with
  | .producer => (pushed (acts trace)).length
  | .consumer => (popped (acts trace)).length

theorem acts_append (trace events : List (Observation α w)) :
    acts (trace ++ events) = acts trace ++ acts events :=
  List.filterMap_append ..

theorem acts_map (events : List (Event α)) :
    acts (events.map (.queue : Event α → Observation α w)) = events := by
  induction events with
  | nil => rfl
  | cons e events ih => exact congrArg (e :: ·) ih

theorem count_append (side : Side) (trace events : List (Observation α w)) :
    count side (trace ++ events) = count side trace + count side events := by
  cases side with
  | producer => rw [count, count, count, acts_append, pushed_append, List.length_append]
  | consumer => rw [count, count, count, acts_append, popped_append, List.length_append]

variable {s s' : State α C} {events : List (Event α)}

theorem popped_of_produce {torn : Option α} (h : s.produce torn = some (s', events)) :
    popped events = [] := by
  unfold State.produce at h
  split at h
  · cases h
  · cases h
    rfl
  · split at h <;> cases h <;> rfl
  · split at h <;> cases h <;> rfl
  · cases h
    rfl

theorem pushed_of_consume {husk : α} (h : s.consume husk = some (s', events)) :
    pushed events = [] := by
  unfold State.consume at h
  split at h
  · cases h
  · cases h
    rfl
  · split at h <;> cases h <;> rfl
  · cases h
    rfl
  · cases h
    rfl

/-- An action stores the index of its own side only. -/
theorem count_of_next {a : Action α} {side : Side} (h : s.next a = some (s', events))
    (hSide : side ≠ a.side) : count side (events.map (.queue : Event α → Observation α w)) = 0 := by
  have hEmpty : side = .producer ∧ pushed events = [] ∨ side = .consumer ∧ popped events = [] := by
    cases a with
    | push =>
      cases side <;> simp only [Action.side, ne_eq, not_true, reduceCtorEq] at hSide
      simp only [State.next] at h
      split at h <;> cases h
      exact .inr ⟨rfl, rfl⟩
    | pop =>
      cases side <;> simp only [Action.side, ne_eq, not_true, reduceCtorEq] at hSide
      simp only [State.next] at h
      split at h <;> cases h
      exact .inl ⟨rfl, rfl⟩
    | produce =>
      cases side <;> simp only [Action.side, ne_eq, not_true, reduceCtorEq] at hSide
      exact .inr ⟨rfl, popped_of_produce h⟩
    | consume =>
      cases side <;> simp only [Action.side, ne_eq, not_true, reduceCtorEq] at hSide
      exact .inl ⟨rfl, pushed_of_consume h⟩
  rcases hEmpty with ⟨rfl, hPushed⟩ | ⟨rfl, hPopped⟩
  · rw [count, acts_map, hPushed, List.length_nil]
  · rw [count, acts_map, hPopped, List.length_nil]

end History

/-- The words of the two indices give the distance between the counts. -/
theorem toNat_sizeOf {front back : Nat} (hWord : C.val < 2 ^ w) (hLe : front ≤ back)
    (hLt : back < front + C.val) :
    (sizeOf w (C.index front) (C.index back)).toNat = back - front := by
  have hPos := C.two_le
  obtain ⟨k, hk⟩ := Ring.exists_two_pow (Nat.lt_of_lt_of_le (by decide) hPos) C.power
  have hDvd : C.val ∣ 2 ^ w := by
    rw [hk] at hWord ⊢
    exact Nat.pow_dvd_pow 2 (Nat.le_of_lt ((Nat.pow_lt_pow_iff_right (by decide)).mp hWord))
  have hHead := (C.index front).isLt
  have hMask : C.mask % 2 ^ w = C.mask := Nat.mod_eq_of_lt (by rw [Ring.Size.mask]; omega)
  have hFront : (C.index front).val = front % C.val := C.and_mask front
  have hBack : (C.index back).val = back % C.val := C.and_mask back
  -- the word sum is the distance up to laps, and adding the head back shows it
  have hSum : (C.index back).val + (2 ^ w - (C.index front).val) + C.val ≡ back -
      front [MOD C.val] := by
    apply Nat.ModEq.add_right_cancel' (C.index front).val
    have hTotal : (C.index back).val + (2 ^ w - (C.index front).val) + C.val + (C.index front).val =
        (C.index back).val + 2 ^ w + C.val := by omega
    rw [hTotal]
    calc (C.index back).val + 2 ^ w + C.val ≡ back + 0 + 0 [MOD C.val] := by
          refine Nat.ModEq.add (Nat.ModEq.add ?_ ?_) ?_
          · rw [hBack]
            exact Nat.mod_modEq _ _
          · exact (Nat.modEq_zero_iff_dvd).mpr hDvd
          · exact (Nat.modEq_zero_iff_dvd).mpr (Nat.dvd_refl _)
      _ = back - front + front := by omega
      _ ≡ back - front + (C.index front).val [MOD C.val] := by
          rw [hFront]
          exact Nat.ModEq.add_left _ (Nat.mod_modEq _ _).symm
  have hSmall {n : Nat} (hn : n ≤ C.val) : n % 2 ^ w = n := Nat.mod_eq_of_lt (by omega)
  rw [sizeOf, BitVec.toNat_and, BitVec.toNat_ofNat, hMask, C.and_mask, BitVec.toNat_add,
    BitVec.toNat_sub, BitVec.toNat_ofNat, BitVec.toNat_ofNat, BitVec.toNat_ofNat,
    hSmall (C.index front).isLt.le,
    hSmall (C.index back).isLt.le, hSmall le_rfl, Nat.mod_add_mod, Nat.mod_mod_of_dvd _ hDvd,
    Nat.add_comm (2 ^ w - _)]
  exact Eq.trans hSum (Nat.mod_eq_of_lt (by omega))

/-- `instant` is a point of the call of `query` that `side` is in after `past`. -/
def Instant (side : Side) (query : Query) (past instant : List (Observation α w)) : Prop :=
  ∃ before during later, past = before ++ .called side query :: (during ++ later) ∧
    (∀ q, .called side q ∉ during ++ later) ∧ instant = before ++ .called side query :: during

/-- Each answer is right at some point of its own call. -/
def Linearized (C : Ring.Size) (past : List (Observation α w)) : Observation α w → Prop
  | .sized side n => ∃ instant, Instant side .size past instant ∧ n.toNat = held (acts instant) ∧
      n.toNat ≤ C.val - 1
  | .tested side answer =>
      ∃ instant, Instant side .empty past instant ∧ (answer = true ↔ held (acts instant) = 0)
  | _ => True

/-- The call a side is in began after `before`; since then it has only waited for
itself. -/
structure InCall (side : Side) (query : Query) (before during trace : List (Observation α w)) :
  Prop where
  eq : trace = before ++ .called side query :: during
  fresh : ∀ q, .called side q ∉ during
  still : count side during = 0

/-- The counts fit the ring. -/
structure Fits (C : Ring.Size) (trace : List (Observation α w)) : Prop where
  le : count .consumer trace ≤ count .producer trace
  lt : count .producer trace < count .consumer trace + C.val

/-- What a probe knows: the loaded index is that of an earlier point of the call. -/
def Probe.Ok (side : Side) (trace : List (Observation α w)) : Probe C → Prop
  | .outside => True
  | .called query _ => ∃ before during, InCall side query before during trace
  | .loaded query owner index =>
      ∃ before during later, InCall side query before (during ++ later) trace ∧
      index = C.index (count owner (before ++ .called side query :: during)) ∧
      Fits C (before ++ .called side query :: during)

structure Tracked (blank : α) (s : Probed α C) (trace : List (Observation α w)) : Prop where
  inner : (machine C blank).Reaches s.inner (acts trace)
  probe : ∀ side, (s.probe side).Ok side trace
  answers : Each (Linearized C) trace

section Run

variable {blank : α} {s s' : Probed α C} {trace events : List (Observation α w)} {side : Side}

theorem Tracked.fits (h : Tracked blank s trace) : Fits C trace :=
  ⟨(Inv.of_reaches h.inner).fifo.length_le, (Inv.of_reaches h.inner).bounded⟩

theorem Tracked.indexOf (h : Tracked blank s trace) (owner : Side) :
    s.inner.queue.indexOf owner = C.index (count owner trace) := by
  cases owner with
  | producer => exact (Inv.of_reaches h.inner).tail
  | consumer => exact (Inv.of_reaches h.inner).head

variable {query : Query}

theorem InCall.append {before during : List (Observation α w)}
    (h : InCall side query before during trace) (hFresh : ∀ q, .called side q ∉ events)
    (hStill : count side events = 0) :
    InCall side query before (during ++ events) (trace ++ events) where
  eq := by rw [h.eq, List.append_assoc, List.cons_append]
  fresh := by
    intro q hMem
    rcases List.mem_append.mp hMem with hMem | hMem
    · exact h.fresh q hMem
    · exact hFresh q hMem
  still := by rw [count_append, h.still, hStill]

/-- What a side knows is kept while it does nothing itself. -/
theorem Probe.Ok.append {probe : Probe C} (h : probe.Ok side trace)
    (hFresh : ∀ q, .called side q ∉ events) (hStill : count side events = 0) :
    probe.Ok side (trace ++ events) := by
  cases probe with
  | outside => trivial
  | called =>
    obtain ⟨before, during, hCall⟩ := h
    exact ⟨before, during ++ events, hCall.append hFresh hStill⟩
  | loaded =>
    obtain ⟨before, during, later, hCall, hIndex, hFits⟩ := h
    refine ⟨before, during, later ++ events, ?_, hIndex, hFits⟩
    rw [← List.append_assoc]
    exact hCall.append hFresh hStill

/-- The caller's own index is the same at every point of its call. -/
theorem InCall.count_eq {before during later : List (Observation α w)}
    (h : InCall side query before (during ++ later) trace) :
    count side (before ++ .called side query :: during) = count side trace := by
  have hStill := h.still
  rw [count_append] at hStill
  have hEq : trace = (before ++ .called side query :: during) ++ later := by
    rw [h.eq, List.append_assoc, List.cons_append]
  rw [hEq, count_append side (before ++ _ :: during) later]
  omega

/-- With the second index loaded, both are those of one point of the call. -/
theorem Tracked.instant (h : Tracked blank s trace) {owner : Side} {index : Fin C.val}
    (hProbe : s.probe side = .loaded query owner index) :
    ∃ instant, Instant side query trace instant ∧
      Fits C instant ∧ index = C.index (count owner instant) ∧
      s.inner.queue.indexOf owner.other = C.index (count owner.other instant) := by
  have hOk := h.probe side
  rw [hProbe] at hOk
  obtain ⟨before, during, later, hCall, hIndex, hFits⟩ := hOk
  by_cases hOwner : owner = side
  · -- the caller's own index was loaded first, so this very load is the moment
    subst hOwner
    refine ⟨trace, ⟨before, during ++ later, [], ?_, ?_, hCall.eq⟩, h.fits, ?_, h.indexOf _⟩
    · rw [List.append_nil]
      exact hCall.eq
    · rw [List.append_nil]
      exact hCall.fresh
    · rw [hIndex, hCall.count_eq]
  · have hOther : owner.other = side := by
      cases owner <;> cases side <;> first | rfl | exact absurd rfl hOwner
    refine ⟨_, ⟨before, during, later, hCall.eq, hCall.fresh, rfl⟩, hFits, hIndex, ?_⟩
    rw [h.indexOf, hOther, hCall.count_eq]

/-- The answer from the two indices of one moment. -/
theorem linearized_answer {instant : List (Observation α w)} (hWord : C.val < 2 ^ w)
    (hInstant : Instant side query trace instant) (hFits : Fits C instant) :
    Linearized C trace (query.answer side (C.index (count .consumer instant))
      (C.index (count .producer instant))) := by
  have hHeld : held (acts instant) = count .producer instant - count .consumer instant := rfl
  have hLe := hFits.le
  have hLt := hFits.lt
  cases query with
  | size =>
    refine ⟨instant, hInstant, ?_, ?_⟩
    · rw [toNat_sizeOf hWord hLe hLt, hHeld]
    · rw [toNat_sizeOf hWord hLe hLt]
      omega
  | empty =>
    refine ⟨instant, hInstant, ?_⟩
    rw [decide_eq_true_iff, hHeld]
    constructor
    · intro hEq
      rcases Nat.eq_or_lt_of_le hLe with hSame | hBehind
      · omega
      · exact absurd hEq (Ring.Size.index_ne_of_lt hBehind hLt)
    · intro hZero
      rw [show count .consumer instant = count .producer instant by omega]

/-- A side that is probing does not act on the queue. -/
theorem Tracked.act (h : Tracked blank s trace) {a : Action α} {inner : State α C}
    {emitted : List (Event α)} (hOutside : s.probe a.side = .outside)
    (hNext : s.inner.next a = some (inner, emitted)) :
    Tracked blank { s with inner } (trace ++ emitted.map .queue) where
  inner := by
    rw [acts_append, acts_map]
    exact h.inner.step hNext
  probe := by
    intro side
    by_cases hSide : side = a.side
    · rw [hSide]
      change (s.probe a.side).Ok _ _
      rw [hOutside]
      trivial
    · exact (h.probe side).append (by simp) (count_of_next hNext hSide)
  answers := by
    rw [each_append]
    refine ⟨h.answers, ?_⟩
    intro before e after hEq
    obtain ⟨event, -, rfl⟩ := List.mem_map.mp (hEq ▸ List.mem_append_right before
      List.mem_cons_self)
    trivial

/-- A turn of one probe leaves the queue and the other probe alone. -/
theorem Tracked.turn (h : Tracked blank s trace) {probe : Probe C} (hActs : acts events = [])
    (hCalled : ∀ other ≠ side, ∀ q, .called other q ∉ events)
    (hProbe : probe.Ok side (trace ++ events))
    (hAnswers : Each (fun past => Linearized C (trace ++ past)) events) :
    Tracked blank (s.goto side probe) (trace ++ events) where
  inner := by
    rw [acts_append, hActs, List.append_nil]
    exact h.inner
  probe := by
    intro other
    by_cases hOther : other = side
    · rw [hOther, s.goto_probe_self]
      exact hProbe
    · have hStill : count other events = 0 := by cases other <;> rw [count, hActs] <;> rfl
      rw [s.goto_probe_of_ne hOther]
      exact (h.probe other).append (hCalled other hOther) hStill
  answers := each_append.mpr ⟨h.answers, hAnswers⟩

theorem acts_answer (query : Query) (head tail : Fin C.val) :
    acts [(query.answer side head tail : Observation α w)] = [] := by
  cases query <;> rfl

theorem called_ne_answer (query q : Query) (head tail : Fin C.val) (other : Side) :
    .called other q ∉ [(query.answer side head tail : Observation α w)] := by
  cases query <;> simp [Query.answer]

/-- A load of a query reads the index of a position that was reached since the call. -/
theorem Tracked.load (h : Tracked blank s trace) (hWord : C.val < 2 ^ w)
    (hLoad : s.load side = some (s', events)) : Tracked blank s' (trace ++ events) := by
  unfold Probed.load at hLoad
  cases hProbe : s.probe side with
  | outside =>
    simp only [hProbe] at hLoad
    cases hLoad
  | called =>
    simp only [hProbe] at hLoad
    cases hLoad
    have hOk := h.probe side
    rw [hProbe] at hOk
    obtain ⟨before, during, hCall⟩ := hOk
    refine h.turn rfl (by simp) ?_ (by simp)
    rw [List.append_nil]
    refine ⟨before, during, [], ?_, ?_, ?_⟩
    · rwa [List.append_nil]
    · rw [h.indexOf, hCall.eq]
    · rw [← hCall.eq]
      exact h.fits
  | loaded query owner index =>
    obtain ⟨instant, hInstant, hFits, hIndex, hOther⟩ := h.instant hProbe
    have hAnswer := linearized_answer hWord hInstant hFits
    cases owner with
    | consumer =>
      simp only [hProbe] at hLoad
      cases hLoad
      refine h.turn (acts_answer ..) (fun other _ q => called_ne_answer query q _ _ other) trivial
        ?_
      rw [hIndex, show s.inner.queue.tail = C.index (count .producer instant) from hOther]
      simpa using hAnswer
    | producer =>
      simp only [hProbe] at hLoad
      cases hLoad
      refine h.turn (acts_answer ..) (fun other _ q => called_ne_answer query q _ _ other) trivial
        ?_
      rw [hIndex, show s.inner.queue.head = C.index (count .consumer instant) from hOther]
      simpa using hAnswer

theorem Tracked.next (h : Tracked blank s trace) (hWord : C.val < 2 ^ w) {turn : Turn α}
    (hNext : s.next turn = some (s', events)) : Tracked blank s' (trace ++ events) := by
  cases turn with
  | act =>
    simp only [Probed.next] at hNext
    split_ifs at hNext with hOutside
    obtain ⟨⟨inner, emitted⟩, hInner, hEq⟩ := Option.map_eq_some_iff.mp hNext
    cases hEq
    exact h.act hOutside hInner
  | call side =>
    simp only [Probed.next] at hNext
    split_ifs at hNext with hOutside
    cases hNext
    refine h.turn rfl ?_ ⟨trace, [], rfl, by simp, by cases side <;> rfl⟩ (by simp [Linearized])
    intro other hOther q hMem
    cases List.mem_singleton.mp hMem
    exact hOther rfl
  | load => exact h.load hWord hNext

/-- `size()` and `empty()` answer for a moment of their own call, whatever the other
thread does meanwhile and wherever the indices are in the ring. -/
theorem linearized_of_reaches (h : (probedMachine C blank w).Reaches s trace)
    (hWord : C.val < 2 ^ w) : Each (Linearized C) trace := by
  have hTracked : Tracked blank s trace := by
    refine h.invariant (P := Tracked blank) ⟨.start, fun side => ?_, each_nil⟩ ?_
    · change Probe.Ok side [] Probe.outside
      trivial
    intro _ _ _ _ _ _ hTracked hNext
    exact hTracked.next hWord hNext
  exact hTracked.answers

end Run

/-- In a ring of two slots, with the tail wrapped around below the head: the producer asks
for the size, the consumer pops the only value between its two loads, and the answer is
one. -/
theorem linearized_of_reaches_wrapped :
    ∃ (s : Probed Nat ⟨2, by decide, by decide⟩) (trace : List (Observation Nat 64)),
      (probedMachine ⟨2, by decide, by decide⟩ 0 64).Reaches s trace ∧
      trace = [.queue (.pushed 5), .queue (.popped 5), .queue (.pushed 6), .called .producer .size,
        .queue (.popped 6), .sized .producer 1] ∧
      Each (Linearized ⟨2, by decide, by decide⟩) trace := by
  let push (val : Nat) : List (Turn Nat) := .act (.push val) :: List.replicate 4
    (.act (.produce none))
  let pop : List (Turn Nat) := .act .pop :: List.replicate 4 (.act (.consume 0))
  have hRun : ((probedMachine ⟨2, by decide, by decide⟩ 0 64).run (.start 0)
      (push 5 ++ pop ++ push 6 ++ [.call .producer .size .consumer, .load .producer] ++ pop ++
        [.load .producer])).map (fun r => r.2) =
      some [.queue (.pushed 5), .queue (.popped 5), .queue (.pushed 6), .called .producer .size,
        .queue (.popped 6), .sized .producer 1] := by decide +kernel
  obtain ⟨⟨s, trace⟩, hRun, hTrace⟩ := Option.map_eq_some_iff.mp hRun
  have hReaches := Machine.Reaches.start.run hRun
  exact ⟨s, trace, hReaches, hTrace, linearized_of_reaches hReaches (by decide)⟩

end Tinycoro.Spsc
