import Tinycoro.Queue.MpmcInvariant
import Mathlib.Data.BitVec

/-! The queue with the counters of the source. As long as the positions claimed
leave a lap of room below the sign bit, the signed differences are exact and the
word machine does step for step what the unbounded machine does. Its safety is
read off the unbounded invariant. -/
namespace Tinycoro.Mpmc

open Transition

variable {τ κ μ α : Type} {C : Ring.Size}

def Pc.map (f : κ → μ) : Pc κ α → Pc μ α
  | .idle => .idle
  | .pushLoad val => .pushLoad val
  | .pushSequence val pos => .pushSequence val (f pos)
  | .pushExchange val pos => .pushExchange val (f pos)
  | .pushMove val pos => .pushMove val (f pos)
  | .pushStore pos => .pushStore (f pos)
  | .popLoad => .popLoad
  | .popSequence pos => .popSequence (f pos)
  | .popExchange pos => .popExchange (f pos)
  | .popMove pos => .popMove (f pos)
  | .popStore pos data => .popStore (f pos) data

def Event.map (f : κ → μ) : Event τ κ α → Event τ μ α
  | .pushClaimed t pos val => .pushClaimed t (f pos) val
  | .pushReturned t pos => .pushReturned t (f pos)
  | .pushFull t => .pushFull t
  | .popClaimed t pos => .popClaimed t (f pos)
  | .popReturned t pos data => .popReturned t (f pos) data
  | .popEmpty t => .popEmpty t

def MPMCQueue.map (f : κ → μ) (q : MPMCQueue κ α C) : MPMCQueue μ α C where
  enqueuePos := f q.enqueuePos
  dequeuePos := f q.dequeuePos
  slots := fun i => ⟨f (q.slots i).sequence, (q.slots i).data⟩

def State.map (f : κ → μ) (s : State τ κ α C) : State τ μ α C where
  queue := s.queue.map f
  pc := fun t => (s.pc t).map f

section Map

variable (f : κ → μ)

theorem MPMCQueue.map_setData (q : MPMCQueue κ α C) (i : Fin C.val) (data : Option α) :
    (q.setData i data).map f = (q.map f).setData i data := by
  simp only [map, setData, MPMCQueue.mk.injEq, true_and]
  funext j
  by_cases h : j = i
  · rw [h, Function.update_self, Function.update_self]
  · rw [Function.update_of_ne h, Function.update_of_ne h]

theorem MPMCQueue.map_setSequence (q : MPMCQueue κ α C) (i : Fin C.val) (sequence : κ) :
    (q.setSequence i sequence).map f = (q.map f).setSequence i (f sequence) := by
  simp only [map, setSequence, MPMCQueue.mk.injEq, true_and]
  funext j
  by_cases h : j = i
  · rw [h, Function.update_self, Function.update_self]
  · rw [Function.update_of_ne h, Function.update_of_ne h]

theorem State.map_goto [DecidableEq τ] (s : State τ κ α C) (t : τ) (pc : Pc κ α)
    (queue : MPMCQueue κ α C) :
    (s.goto t pc queue).map f = (s.map f).goto t (pc.map f) (queue.map f) := by
  simp only [map, goto, State.mk.injEq, true_and]
  funext u
  by_cases h : u = t
  · rw [h, Function.update_self, Function.update_self]
  · rw [Function.update_of_ne h, Function.update_of_ne h]

theorem pushes_map (trace : List (Event τ κ α)) :
    pushes (trace.map (Event.map f)) =
      (pushes trace).map (fun claim => (claim.1, f claim.2.1, claim.2.2)) := by
  rw [pushes, pushes, List.filterMap_map, List.map_filterMap]
  congr 1
  funext event
  cases event <;> rfl

theorem pops_map (trace : List (Event τ κ α)) :
    pops (trace.map (Event.map f)) = (pops trace).map (fun claim => (claim.1, f claim.2)) := by
  rw [pops, pops, List.filterMap_map, List.map_filterMap]
  congr 1
  funext event
  cases event <;> rfl

theorem accepted_map (trace : List (Event τ κ α)) :
    accepted (trace.map (Event.map f)) = (accepted trace).map (fun call => (call.1, f call.2)) := by
  rw [accepted, accepted, List.filterMap_map, List.map_filterMap]
  congr 1
  funext event
  cases event <;> rfl

theorem delivered_map (trace : List (Event τ κ α)) :
    delivered (trace.map (Event.map f)) =
      (delivered trace).map (fun call => (call.1, f call.2.1, call.2.2)) := by
  rw [delivered, delivered, List.filterMap_map, List.map_filterMap]
  congr 1
  funext event
  cases event <;> rfl

end Map

/-- The position a thread works with. -/
def Pc.position? : Pc κ α → Option κ
  | .idle | .pushLoad _ | .popLoad => none
  | .pushSequence _ pos | .pushExchange _ pos | .pushMove _ pos | .pushStore pos
  | .popSequence pos | .popExchange pos | .popMove pos | .popStore pos _ => some pos

/-- All counters are so small that a word holds them and reads them as signed
without change. -/
structure Bounded (w : Nat) (s : State τ Nat α C) : Prop where
  enqueue_lt : s.queue.enqueuePos < 2 ^ (w - 1)
  dequeue_lt : s.queue.dequeuePos < 2 ^ (w - 1)
  sequence_lt : ∀ i, (s.queue.slots i).sequence < 2 ^ (w - 1)
  position_lt : ∀ t pos, (s.pc t).position? = some pos → pos + 1 < 2 ^ (w - 1)

variable {w n : Nat}

theorem two_mul_lt (h : n < 2 ^ (w - 1)) : 2 * n < 2 ^ w := by
  cases w with
  | zero =>
    simp only [Nat.zero_sub, Nat.pow_zero] at h ⊢
    omega
  | succ =>
    rw [Nat.add_sub_cancel] at h
    rw [Nat.pow_succ]
    omega

theorem toNat_ofNat (h : n < 2 ^ (w - 1)) : (BitVec.ofNat w n).toNat = n := by
  have hTwo := two_mul_lt h
  rw [BitVec.toNat_ofNat, Nat.mod_eq_of_lt (by omega)]

theorem toInt_ofNat (h : n < 2 ^ (w - 1)) : (BitVec.ofNat w n).toInt = n := by
  have hTwo := two_mul_lt h
  rw [BitVec.toInt_eq_toNat_of_lt (by rw [toNat_ofNat h]; exact hTwo), toNat_ofNat h]

theorem ofNat_inj {m : Nat} (hm : m < 2 ^ (w - 1)) (hn : n < 2 ^ (w - 1)) :
    BitVec.ofNat w m = BitVec.ofNat w n ↔ m = n := by
  constructor
  · intro h
    rw [← toNat_ofNat hm, h, toNat_ofNat hn]
  · intro h
    rw [h]

theorem word_index (h : n < 2 ^ (w - 1)) :
    (SizeT.word C w).index (BitVec.ofNat w n) = C.index n := by
  change C.index (BitVec.ofNat w n).toNat = _
  rw [toNat_ofNat h]

theorem word_add (m n : Nat) : (SizeT.word C w).add (BitVec.ofNat w m) n = BitVec.ofNat w (m + n) :=
  (BitVec.ofNat_add m n).symm

theorem word_diff {m : Nat} (hm : m < 2 ^ (w - 1)) (hn : n < 2 ^ (w - 1)) :
    (SizeT.word C w).diff (BitVec.ofNat w m) (BitVec.ofNat w n) = (m : Int) - n := by
  change (BitVec.ofNat w m).toInt - (BitVec.ofNat w n).toInt = _
  rw [toInt_ofNat hm, toInt_ofNat hn]

/-- Positions claimed so far, with a lap of room, bound every counter. -/
theorem Inv.bounded {s : State τ Nat α C} {trace : List (Event τ Nat α)} (inv : Inv s trace)
    (h : (pushes trace).length + C.val < 2 ^ (w - 1)) : Bounded w s := by
  have hLength := congrArg List.length inv.push_positions
  rw [List.length_map, List.length_range] at hLength
  have hOrder := inv.dequeue_le
  have hTwo := C.two_le
  refine ⟨by omega, by omega, ?_, ?_⟩
  · intro i
    have hLe := inv.sequence_le i
    omega
  · intro t pos hPos
    have hLe : pos ≤ s.queue.enqueuePos := by
      have hKnown := inv.thread t
      cases hPc : s.pc t <;> rw [hPc] at hPos hKnown <;> cases hPos
      case pushSequence => exact hKnown
      case pushExchange => exact hKnown.1
      case pushMove => exact Nat.le_of_lt (inv.lt_enqueue_of_pushes hKnown.2)
      case pushStore =>
        obtain ⟨-, val, hClaim, -⟩ := hKnown
        exact Nat.le_of_lt (inv.lt_enqueue_of_pushes hClaim)
      case popSequence => exact Nat.le_trans hKnown hOrder
      case popExchange => exact Nat.le_trans hKnown.1 hOrder
      case popMove => exact Nat.le_trans (Nat.le_of_lt (inv.lt_dequeue_of_pops hKnown.2.1)) hOrder
      case popStore => exact Nat.le_trans (Nat.le_of_lt (inv.lt_dequeue_of_pops hKnown.2.1)) hOrder
    omega

/-- The words of the counters decide the next test of thread `t` as the counters do. -/
structure Agrees (w : Nat) (s : State τ Nat α C) (t : τ) : Prop where
  index : ∀ {pos}, (s.pc t).position? = some pos → (SizeT.word C w).index (BitVec.ofNat w pos) =
    C.index pos
  push_zero : ∀ {val pos}, s.pc t = .pushSequence val pos →
    ((SizeT.word C w).diff (BitVec.ofNat w (s.sequenceAt pos)) (BitVec.ofNat w pos) = 0 ↔
      (SizeT.unbounded C).diff (s.sequenceAt pos) pos = 0)
  push_neg : ∀ {val pos}, s.pc t = .pushSequence val pos →
    ((SizeT.word C w).diff (BitVec.ofNat w (s.sequenceAt pos)) (BitVec.ofNat w pos) < 0 ↔
      (SizeT.unbounded C).diff (s.sequenceAt pos) pos < 0)
  push_current : ∀ {val pos}, s.pc t = .pushExchange val pos →
    (BitVec.ofNat w s.queue.enqueuePos = BitVec.ofNat w pos ↔ s.queue.enqueuePos = pos)
  pop_zero : ∀ {pos}, s.pc t = .popSequence pos →
    ((SizeT.word C w).diff (BitVec.ofNat w (s.sequenceAt pos)) (BitVec.ofNat w (pos + 1)) = 0 ↔
      (SizeT.unbounded C).diff (s.sequenceAt pos) (pos + 1) = 0)
  pop_neg : ∀ {pos}, s.pc t = .popSequence pos →
    ((SizeT.word C w).diff (BitVec.ofNat w (s.sequenceAt pos)) (BitVec.ofNat w (pos + 1)) < 0 ↔
      (SizeT.unbounded C).diff (s.sequenceAt pos) (pos + 1) < 0)
  pop_current : ∀ {pos}, s.pc t = .popExchange pos →
    (BitVec.ofNat w s.queue.dequeuePos = BitVec.ofNat w pos ↔ s.queue.dequeuePos = pos)

/-- Small counters are compared alike. -/
theorem Bounded.agrees {s : State τ Nat α C} (h : Bounded w s) (t : τ) : Agrees w s t := by
  have hNext {pc : Pc Nat α} {pos : Nat} (hPc : s.pc t = pc) (hPos : pc.position? = some pos) :
      pos + 1 < 2 ^ (w - 1) := h.position_lt t pos (by rw [hPc]; exact hPos)
  have hPush {val : α} {pos : Nat} (hPc : s.pc t = .pushSequence val pos) :
      (SizeT.word C w).diff (BitVec.ofNat w (s.sequenceAt pos)) (BitVec.ofNat w pos) =
        (SizeT.unbounded C).diff (s.sequenceAt pos) pos :=
    word_diff (h.sequence_lt _) (Nat.lt_of_succ_lt (hNext hPc rfl))
  have hPop {pos : Nat} (hPc : s.pc t = .popSequence pos) :
      (SizeT.word C w).diff (BitVec.ofNat w (s.sequenceAt pos)) (BitVec.ofNat w (pos + 1)) =
        (SizeT.unbounded C).diff (s.sequenceAt pos) (pos + 1) :=
    word_diff (h.sequence_lt _) (hNext hPc rfl)
  constructor
  · intro pos hPos
    exact word_index (Nat.lt_of_succ_lt (h.position_lt t pos hPos))
  · intro val pos hPc
    rw [hPush hPc]
  · intro val pos hPc
    rw [hPush hPc]
  · intro val pos hPc
    exact ofNat_inj h.enqueue_lt (Nat.lt_of_succ_lt (hNext hPc rfl))
  · intro pos hPc
    rw [hPop hPc]
  · intro pos hPc
    rw [hPop hPc]
  · intro pos hPc
    exact ofNat_inj h.dequeue_lt (Nat.lt_of_succ_lt (hNext hPc rfl))

section Simulation

variable [DecidableEq τ] {w : Nat} {s : State τ Nat α C}

/-- The state of the word machine that stands for an unbounded state. -/
def toWord (w : Nat) (r : State τ Nat α C × List (Event τ Nat α)) :
    State τ (BitVec w) α C × List (Event τ (BitVec w) α) :=
  (r.1.map (BitVec.ofNat w), r.2.map (Event.map (BitVec.ofNat w)))

variable {t : τ}

/-- A push over words takes the step of the push over numbers, where the distances are small. -/
theorem pushStep_word (h : Agrees w s t) (spurious : Bool) :
    pushStep (.word C w) (s.map (BitVec.ofNat w)) t spurious ((s.map (BitVec.ofNat w)).pc t) =
      (pushStep (.unbounded C) s t spurious (s.pc t)).map (toWord w) := by
  change pushStep _ _ _ _ ((s.pc t).map _) = _
  have hIndex := @h.index
  cases hPc : s.pc t with
  | idle => rfl
  | popLoad => rfl
  | popSequence => rfl
  | popExchange => rfl
  | popMove => rfl
  | popStore => rfl
  | pushLoad =>
    simp only [Pc.map, pushStep, Option.map_some, toWord, State.map_goto, List.map_nil]
    rfl
  | pushSequence val pos =>
    have hPos := hIndex (by rw [hPc]; rfl)
    have hSequence : ((s.map (BitVec.ofNat w)).queue.slots (C.index pos)).sequence =
        BitVec.ofNat w (s.sequenceAt pos) := rfl
    have hIdeal : (s.queue.slots ((SizeT.unbounded C).index pos)).sequence = s.sequenceAt pos := rfl
    simp only [Pc.map, pushStep, hPos, hSequence, hIdeal, h.push_zero hPc, h.push_neg hPc]
    split_ifs <;> simp only [Option.map_some, toWord, State.map_goto] <;> rfl
  | pushExchange val pos =>
    have hEq : ((s.map (BitVec.ofNat w)).queue.enqueuePos = BitVec.ofNat w pos) ↔
        s.queue.enqueuePos = pos := h.push_current hPc
    simp only [Pc.map, pushStep, hEq, SizeT.unbounded, word_add]
    split_ifs <;> simp only [Option.map_some, toWord, State.map_goto] <;> rfl
  | pushMove =>
    have hPos := hIndex (by rw [hPc]; rfl)
    simp only [Pc.map, pushStep, hPos, SizeT.unbounded, Option.map_some, toWord,
      State.map_goto, MPMCQueue.map_setData, List.map_nil]
    rfl
  | pushStore =>
    have hPos := hIndex (by rw [hPc]; rfl)
    simp only [Pc.map, pushStep, hPos, word_add, SizeT.unbounded, Option.map_some, toWord,
      State.map_goto, MPMCQueue.map_setSequence]
    rfl

/-- So does a pop. -/
theorem popStep_word (h : Agrees w s t) (spurious : Bool) :
    popStep (.word C w) (s.map (BitVec.ofNat w)) t spurious ((s.map (BitVec.ofNat w)).pc t) =
      (popStep (.unbounded C) s t spurious (s.pc t)).map (toWord w) := by
  change popStep _ _ _ _ ((s.pc t).map _) = _
  have hIndex := @h.index
  cases hPc : s.pc t with
  | idle => rfl
  | pushLoad => rfl
  | pushSequence => rfl
  | pushExchange => rfl
  | pushMove => rfl
  | pushStore => rfl
  | popLoad =>
    simp only [Pc.map, popStep, Option.map_some, toWord, State.map_goto, List.map_nil]
    rfl
  | popSequence pos =>
    have hPos := hIndex (by rw [hPc]; rfl)
    have hSequence : ((s.map (BitVec.ofNat w)).queue.slots (C.index pos)).sequence =
        BitVec.ofNat w (s.sequenceAt pos) := rfl
    have hIdeal : (s.queue.slots ((SizeT.unbounded C).index pos)).sequence = s.sequenceAt pos := rfl
    have hAdd : (SizeT.unbounded C).add pos 1 = pos + 1 := rfl
    simp only [Pc.map, popStep, hPos, hSequence, hIdeal, word_add, hAdd, h.pop_zero hPc,
      h.pop_neg hPc]
    split_ifs <;> simp only [Option.map_some, toWord, State.map_goto] <;> rfl
  | popExchange pos =>
    have hEq : ((s.map (BitVec.ofNat w)).queue.dequeuePos = BitVec.ofNat w pos) ↔
        s.queue.dequeuePos = pos := h.pop_current hPc
    simp only [Pc.map, popStep, hEq, SizeT.unbounded, word_add]
    split_ifs <;> simp only [Option.map_some, toWord, State.map_goto] <;> rfl
  | popMove =>
    have hPos := hIndex (by rw [hPc]; rfl)
    simp only [Pc.map, popStep, hPos, SizeT.unbounded, Option.map_some, toWord,
      State.map_goto, MPMCQueue.map_setData, List.map_nil]
    rfl
  | popStore =>
    have hPos := hIndex (by rw [hPc]; rfl)
    simp only [Pc.map, popStep, hPos, word_add, SizeT.unbounded, Option.map_some, toWord,
      State.map_goto, MPMCQueue.map_setSequence]
    rfl

/-- Where the words decide as the counters do, the word machine takes the unbounded
machine's step. -/
theorem next_word_of_agrees (h : Agrees w s t) (action : Action α) :
    next (.word C w) (s.map (BitVec.ofNat w)) (t, action) =
      (next (.unbounded C) s (t, action)).map (toWord w) := by
  have hMap : (s.map (BitVec.ofNat w)).pc t = (s.pc t).map (BitVec.ofNat w) := rfl
  cases action with
  | push | pop =>
    simp only [next, hMap]
    cases s.pc t with
    | idle =>
      simp only [Option.map_some, toWord, State.map_goto]
      rfl
    | _ => rfl
  | step spurious =>
    simp only [next, pushStep_word h, popStep_word h]
    cases pushStep (.unbounded C) s t spurious (s.pc t) <;> simp

/-- On small counters the word machine takes the unbounded machine's step. -/
theorem next_word (h : Bounded w s) (label : τ × Action α) :
    next (.word C w) (s.map (BitVec.ofNat w)) label =
      (next (.unbounded C) s label).map (toWord w) :=
  next_word_of_agrees (h.agrees label.1) label.2

/-- A run of the word machine that has claimed few positions is a run of the
unbounded machine. -/
theorem reaches_unbounded {s : State τ (BitVec w) α C} {trace : List (Event τ (BitVec w) α)}
    (h : (machine τ α (.word C w)).Reaches s trace)
    (hBound : (pushes trace).length + C.val < 2 ^ (w - 1)) :
    ∃ ideal history, (machine τ α (.unbounded C)).Reaches ideal history ∧
      s = ideal.map (BitVec.ofNat w) ∧ trace = history.map (Event.map (BitVec.ofNat w)) := by
  refine h.lift (State.map (BitVec.ofNat w)) (Event.map (BitVec.ofNat w))
    (fun trace => (pushes trace).length + C.val < 2 ^ (w - 1)) ?_ rfl ?_ hBound
  · intro trace events hSmall
    rw [pushes_append, List.length_append] at hSmall
    omega
  · intro ideal history hReaches hSmall label
    rw [pushes_map, List.length_map] at hSmall
    exact next_word ((inv_of_reaches hReaches).bounded hSmall) label

end Simulation

/-- What the queue guarantees in a state with its trace. -/
structure Safe {w : Nat} (s : State τ (BitVec w) α C) (trace : List (Event τ (BitVec w) α)) :
  Prop where
  /-- every position below `enqueue_pos_` is claimed by one push, in order -/
  pushed_once : (pushes trace).map (fun claim => claim.2.1.toNat) = List.range
    s.queue.enqueuePos.toNat
  /-- every position below `dequeue_pos_` is claimed by one pop, in order -/
  popped_once : (pops trace).map (fun claim => claim.2.toNat) = List.range s.queue.dequeuePos.toNat
  dequeue_le : s.queue.dequeuePos.toNat ≤ s.queue.enqueuePos.toNat
  enqueue_le : s.queue.enqueuePos.toNat ≤ s.queue.dequeuePos.toNat + C.val
  /-- the pop that claimed a position returns the value of the push that claimed it -/
  value_matches : ∀ {t pos data}, .popReturned t pos data ∈ trace → .popClaimed t pos ∈ trace ∧
    ∃ u val, .pushClaimed u pos val ∈ trace ∧ data = some val
  returned_once : ((delivered trace).map (fun call => call.2.1)).Nodup
  /-- a pushed value is returned, in the hands of the pop that claimed its position and
  is about to return it, or in its slot -/
  value_kept : ∀ {t pos}, .pushReturned t pos ∈ trace → ∃ val, .pushClaimed t pos val ∈ trace ∧
    ((∃ u, .popReturned u pos (some val) ∈ trace) ∨
      (∃ u, .popClaimed u pos ∈ trace ∧ s.pc u = .popStore pos (some val)) ∨
      (s.queue.slots ((SizeT.word C w).index pos)).data = some val)
  /-- no two threads are between claiming and releasing one slot -/
  exclusive : ∀ {t u p q}, Owns (s.pc t) p → Owns (s.pc u) q →
    (SizeT.word C w).index p = (SizeT.word C w).index q → t = u

theorem owns_map {f : κ → μ} {pc : Pc κ α} {p : μ} (h : Owns (pc.map f) p) :
    ∃ q, p = f q ∧ Owns pc q := by
  cases pc <;> simp_all [Pc.map, Owns, Pushing, Popping, eq_comm]

/-- Safety of the queue under every interleaving, while fewer than
`2 ^ (w - 1) - Capacity` positions have been claimed. -/
theorem safe_of_reaches [DecidableEq τ] {w : Nat} {s : State τ (BitVec w) α C}
    {trace : List (Event τ (BitVec w) α)} (h : (machine τ α (.word C w)).Reaches s trace)
    (hBound : (pushes trace).length < 2 ^ (w - 1) - C.val) : Safe s trace := by
  obtain ⟨ideal, history, hReaches, rfl, rfl⟩ := reaches_unbounded h (by omega)
  rw [pushes_map, List.length_map] at hBound
  have inv : Inv ideal history := inv_of_reaches hReaches
  have hBounded : Bounded w ideal := inv.bounded (by omega)
  have hEnqueue : (ideal.map (BitVec.ofNat w)).queue.enqueuePos.toNat = ideal.queue.enqueuePos :=
    toNat_ofNat hBounded.enqueue_lt
  have hDequeue : (ideal.map (BitVec.ofNat w)).queue.dequeuePos.toNat = ideal.queue.dequeuePos :=
    toNat_ofNat hBounded.dequeue_lt
  have hSmall : ∀ p, p < ideal.queue.enqueuePos → p < 2 ^ (w - 1) :=
    fun p hp => Nat.lt_trans hp hBounded.enqueue_lt
  have hOrder := inv.dequeue_le
  constructor
  · rw [pushes_map, List.map_map, hEnqueue, ← inv.push_positions]
    apply List.map_congr_left
    intro claim hClaim
    exact toNat_ofNat (hSmall _ (inv.push_lt hClaim))
  · rw [pops_map, List.map_map, hDequeue, ← inv.pop_positions]
    apply List.map_congr_left
    intro claim hClaim
    exact toNat_ofNat (hSmall _ (Nat.lt_of_lt_of_le (inv.pop_lt hClaim) hOrder))
  · rw [hEnqueue, hDequeue]
    exact hOrder
  · rw [hEnqueue, hDequeue]
    exact inv.enqueue_le
  · intro t pos data hMem
    rw [← mem_delivered, delivered_map] at hMem
    obtain ⟨⟨t, p, data⟩, hDelivered, hEq⟩ := List.mem_map.mp hMem
    cases hEq
    obtain ⟨hPop, u, val, hPush, rfl⟩ := inv.value_matches hDelivered
    rw [← mem_pops, pops_map]
    refine ⟨List.mem_map.mpr ⟨_, List.mem_of_getElem? hPop, rfl⟩, u, val, ?_, rfl⟩
    rw [← mem_pushes, pushes_map]
    exact List.mem_map.mpr ⟨_, List.mem_of_getElem? hPush, rfl⟩
  · rw [delivered_map, List.map_map]
    have hNodup := inv.delivered_nodup
    have hMap : (delivered history).map ((fun call => call.2.1) ∘
        fun call => (call.1, BitVec.ofNat w call.2.1, call.2.2)) =
          ((delivered history).map (fun call => call.2.1)).map (BitVec.ofNat w) := by
      rw [List.map_map]
      rfl
    rw [hMap]
    refine List.Nodup.map_on ?_ hNodup
    intro p hp q hq hEq
    obtain ⟨⟨t, p, data⟩, hMem, rfl⟩ := List.mem_map.mp hp
    obtain ⟨⟨u, q, data'⟩, hMem', rfl⟩ := List.mem_map.mp hq
    have hpLt := Nat.lt_of_lt_of_le (inv.lt_dequeue_of_pops (inv.delivered_ok hMem).1) hOrder
    have hqLt := Nat.lt_of_lt_of_le (inv.lt_dequeue_of_pops (inv.delivered_ok hMem').1) hOrder
    exact (ofNat_inj (hSmall _ hpLt) (hSmall _ hqLt)).mp hEq
  · intro t pos hMem
    rw [← mem_accepted, accepted_map] at hMem
    obtain ⟨⟨t, p⟩, hAccepted, hEq⟩ := List.mem_map.mp hMem
    cases hEq
    obtain ⟨val, hClaim, hKept⟩ := inv.value_kept hAccepted
    refine ⟨val, ?_, ?_⟩
    · rw [← mem_pushes, pushes_map]
      exact List.mem_map.mpr ⟨_, List.mem_of_getElem? hClaim, rfl⟩
    rcases hKept with ⟨u, hReturned⟩ | ⟨u, hPc⟩ | hData
    · left
      refine ⟨u, ?_⟩
      rw [← mem_delivered, delivered_map]
      exact List.mem_map.mpr ⟨_, hReturned, rfl⟩
    · right; left
      have hKnown := inv.thread u
      rw [hPc] at hKnown
      refine ⟨u, ?_, ?_⟩
      · rw [← mem_pops, pops_map]
        exact List.mem_map.mpr ⟨_, List.mem_of_getElem? hKnown.2.1, rfl⟩
      · change (ideal.pc u).map _ = _
        rw [hPc]
        rfl
    · right; right
      rw [word_index (hSmall _ (inv.lt_enqueue_of_pushes hClaim))]
      exact hData
  · intro t u p q ht hu hIndex
    obtain ⟨p, rfl, hFirst⟩ := owns_map ht
    obtain ⟨q, rfl, hSecond⟩ := owns_map hu
    rw [word_index (hSmall _ (inv.owns_cell hFirst).2),
      word_index (hSmall _ (inv.owns_cell hSecond).2)] at hIndex
    exact inv.exclusive hFirst hSecond hIndex

/-- A push and a pop on a queue of two slots, interleaved step by step until both
have returned. -/
theorem safe_of_reaches_two_threads :
    ∃ (s : State Bool (BitVec 64) Nat ⟨2, by decide, by decide⟩) (trace : _),
      (machine Bool Nat (.word ⟨2, by decide, by decide⟩ 64)).Reaches s trace ∧
      trace = [.pushClaimed false 0 7, .pushReturned false 0, .popClaimed true 0,
        .popReturned true 0 (some 7)] ∧
      Safe s trace := by
  let labels : List (Bool × Action Nat) :=
    [(false, .push 7), (false, .step false), (false, .step false), (false, .step true),
      (true, .pop), (false, .step false), (false, .step false), (true, .step false),
      (false, .step false), (false, .step false), (true, .step false), (true, .step false),
      (true, .step false), (true, .step false)]
  have hRun : ((machine Bool Nat (.word ⟨2, by decide, by decide⟩ 64)).run
      (machine Bool Nat (.word ⟨2, by decide, by decide⟩ 64)).start labels).map Prod.snd =
        some [.pushClaimed false 0 7, .pushReturned false 0, .popClaimed true 0,
          .popReturned true 0 (some 7)] := by decide +kernel
  obtain ⟨⟨s, trace⟩, hRun, rfl⟩ := Option.map_eq_some_iff.mp hRun
  have hReaches := Machine.Reaches.start.run hRun
  exact ⟨s, _, hReaches, rfl, safe_of_reaches hReaches (by decide)⟩

end Tinycoro.Mpmc
