import Tinycoro.Queue.Mpmc
import Mathlib.Data.List.Nodup
import Mathlib.Data.List.Range

/-! The queue with counters that never wrap. Each slot is at one position of its
ring: free for it, being filled, full, or being emptied. That, and what every
thread knows about the slot it has looked at, is kept by all steps of all
threads; the order of the two positions, the matching of values and the
exclusive use of a slot follow. -/
namespace Tinycoro.Mpmc

open Transition

variable {τ κ α : Type} {C : Ring.Size}

section Trace

/-- The compare-exchanges that claimed a position for a push, in order. -/
def pushes (trace : List (Event τ κ α)) : List (τ × κ × α) :=
  trace.filterMap fun
    | .pushClaimed t pos val => some (t, pos, val)
    | _ => none

/-- The compare-exchanges that claimed a position for a pop, in order. -/
def pops (trace : List (Event τ κ α)) : List (τ × κ) :=
  trace.filterMap fun
    | .popClaimed t pos => some (t, pos)
    | _ => none

/-- The calls of `push` that returned true. -/
def accepted (trace : List (Event τ κ α)) : List (τ × κ) :=
  trace.filterMap fun
    | .pushReturned t pos => some (t, pos)
    | _ => none

/-- The calls of `pop` that returned true, with what they moved out. -/
def delivered (trace : List (Event τ κ α)) : List (τ × κ × Option α) :=
  trace.filterMap fun
    | .popReturned t pos data => some (t, pos, data)
    | _ => none

/-- The value of the push that claimed position `p`. -/
def pushed (trace : List (Event τ Nat α)) (p : Nat) : Option α :=
  ((pushes trace)[p]?).map (fun claim => claim.2.2)

@[simp] theorem pushes_append (trace events : List (Event τ κ α)) :
    pushes (trace ++ events) = pushes trace ++ pushes events := List.filterMap_append ..

@[simp] theorem pops_append (trace events : List (Event τ κ α)) :
    pops (trace ++ events) = pops trace ++ pops events := List.filterMap_append ..

@[simp] theorem accepted_append (trace events : List (Event τ κ α)) :
    accepted (trace ++ events) = accepted trace ++ accepted events := List.filterMap_append ..

@[simp] theorem delivered_append (trace events : List (Event τ κ α)) :
    delivered (trace ++ events) = delivered trace ++ delivered events := List.filterMap_append ..

variable {trace : List (Event τ κ α)}

theorem mem_pushes {t : τ} {pos : κ} {val : α} :
    (t, pos, val) ∈ pushes trace ↔ .pushClaimed t pos val ∈ trace := by
  rw [pushes, List.mem_filterMap]
  constructor
  · rintro ⟨event, hMem, hEq⟩
    cases event <;> cases hEq
    exact hMem
  · intro hMem
    exact ⟨_, hMem, rfl⟩

theorem mem_pops {t : τ} {pos : κ} : (t, pos) ∈ pops trace ↔ .popClaimed t pos ∈ trace := by
  rw [pops, List.mem_filterMap]
  constructor
  · rintro ⟨event, hMem, hEq⟩
    cases event <;> cases hEq
    exact hMem
  · intro hMem
    exact ⟨_, hMem, rfl⟩

theorem mem_accepted {t : τ} {pos : κ} :
    (t, pos) ∈ accepted trace ↔ .pushReturned t pos ∈ trace := by
  rw [accepted, List.mem_filterMap]
  constructor
  · rintro ⟨event, hMem, hEq⟩
    cases event <;> cases hEq
    exact hMem
  · intro hMem
    exact ⟨_, hMem, rfl⟩

theorem mem_delivered {t : τ} {pos : κ} {data : Option α} :
    (t, pos, data) ∈ delivered trace ↔ .popReturned t pos data ∈ trace := by
  rw [delivered, List.mem_filterMap]
  constructor
  · rintro ⟨event, hMem, hEq⟩
    cases event <;> cases hEq
    exact hMem
  · intro hMem
    exact ⟨_, hMem, rfl⟩

/-- Events that claim and return nothing. -/
def Silent (events : List (Event τ κ α)) : Prop :=
  pushes events = [] ∧ pops events = [] ∧ accepted events = [] ∧ delivered events = []

end Trace

/-- The thread has claimed `p` for a push and not yet published it. -/
def Pushing (pc : Pc κ α) (p : κ) : Prop :=
  (∃ val, pc = .pushMove val p) ∨ pc = .pushStore p

/-- The thread has claimed `p` for a pop and not yet released it. -/
def Popping (pc : Pc κ α) (p : κ) : Prop :=
  pc = .popMove p ∨ ∃ data, pc = .popStore p data

/-- The thread is between claiming and releasing the slot of `p`. -/
def Owns (pc : Pc κ α) (p : κ) : Prop := Pushing pc p ∨ Popping pc p

/-- The thread owns no slot. -/
def Pc.outside : Pc κ α → Bool
  | .pushMove .. | .pushStore .. | .popMove .. | .popStore .. => false
  | _ => true

theorem not_owns_of_outside {pc : Pc κ α} (h : pc.outside = true) (p : κ) : ¬ Owns pc p := by
  rintro ((⟨val, rfl⟩ | rfl) | (rfl | ⟨data, rfl⟩)) <;> cases h

theorem Owns.unique {pc : Pc κ α} {p q : κ} (hp : Owns pc p) (hq : Owns pc q) : p = q := by
  rcases hp with (⟨val, rfl⟩ | rfl) | (rfl | ⟨data, rfl⟩)
    <;> simpa [Owns, Pushing, Popping, eq_comm] using hq

/-- The sequence number in the slot of position `p`. -/
def State.sequenceAt (s : State τ Nat α C) (p : Nat) : Nat := (s.queue.slots (C.index p)).sequence

def State.dataAt (s : State τ Nat α C) (p : Nat) : Option α := (s.queue.slots (C.index p)).data

/-- What a slot is used for while it is at position `p`. -/
inductive Stage (s : State τ Nat α C) (trace : List (Event τ Nat α)) (p : Nat) : Prop where
  | free (hPos : s.queue.enqueuePos ≤ p) (hSeq : s.sequenceAt p = p)
  | filling (hPop : s.queue.dequeuePos ≤ p) (hPush : p < s.queue.enqueuePos)
      (hSeq : s.sequenceAt p = p) (t : τ) (hOwner : Pushing (s.pc t) p)
  | full (hPop : s.queue.dequeuePos ≤ p) (hPush : p < s.queue.enqueuePos)
      (hSeq : s.sequenceAt p = p + 1) (hData : s.dataAt p = pushed trace p)
  | emptying (hPop : p < s.queue.dequeuePos) (hSeq : s.sequenceAt p = p + 1)
      (t : τ) (hOwner : Popping (s.pc t) p)

/-- The slot of `p` is at `p`: the previous lap has been popped and the next has
not been claimed. -/
structure Cell (s : State τ Nat α C) (trace : List (Event τ Nat α)) (p : Nat) : Prop where
  lap : p < s.queue.dequeuePos + C.val
  latest : s.queue.enqueuePos ≤ p + C.val
  stage : Stage s trace p

/-- What a thread knows where it stands. A position read earlier may be stale,
a sequence number read earlier may only have grown. -/
def ThreadOk (s : State τ Nat α C) (trace : List (Event τ Nat α)) (t : τ) : Pc Nat α → Prop
  | .idle | .pushLoad _ | .popLoad => True
  | .pushSequence _ pos => pos ≤ s.queue.enqueuePos
  | .pushExchange _ pos => pos ≤ s.queue.enqueuePos ∧ pos ≤ s.sequenceAt pos
  | .pushMove val pos => s.sequenceAt pos = pos ∧ (pushes trace)[pos]? = some (t, pos, val)
  | .pushStore pos => s.sequenceAt pos = pos ∧
      ∃ val, (pushes trace)[pos]? = some (t, pos, val) ∧ s.dataAt pos = some val
  | .popSequence pos => pos ≤ s.queue.dequeuePos
  | .popExchange pos => pos ≤ s.queue.dequeuePos ∧ pos < s.sequenceAt pos
  | .popMove pos => s.sequenceAt pos = pos + 1 ∧ (pops trace)[pos]? = some (t, pos) ∧
      s.dataAt pos = pushed trace pos
  | .popStore pos data => s.sequenceAt pos = pos + 1 ∧ (pops trace)[pos]? = some (t, pos) ∧
      data = pushed trace pos

/-- The invariant of the queue. -/
structure Inv (s : State τ Nat α C) (trace : List (Event τ Nat α)) : Prop where
  push_positions : (pushes trace).map (fun claim => claim.2.1) = List.range s.queue.enqueuePos
  pop_positions : (pops trace).map Prod.snd = List.range s.queue.dequeuePos
  dequeue_le : s.queue.dequeuePos ≤ s.queue.enqueuePos
  cell : ∀ i, ∃ p, C.index p = i ∧ Cell s trace p
  thread : ∀ t, ThreadOk s trace t (s.pc t)
  owner : ∀ {t u p}, Owns (s.pc t) p → Owns (s.pc u) p → t = u
  accepted_ok : ∀ {t p}, (t, p) ∈ accepted trace →
    (∃ val, (pushes trace)[p]? = some (t, p, val)) ∧ p < s.sequenceAt p
  delivered_ok : ∀ {t p data}, (t, p, data) ∈ delivered trace →
    (pops trace)[p]? = some (t, p) ∧ p + 1 < s.sequenceAt p ∧ data = pushed trace p
  delivered_nodup : ((delivered trace).map (fun d => d.2.1)).Nodup
  popped : ∀ {p}, p < s.queue.dequeuePos →
    (∃ t, Popping (s.pc t) p) ∨ ∃ t data, (t, p, data) ∈ delivered trace

section Positions

variable {s : State τ Nat α C} {trace : List (Event τ Nat α)}

variable {p q : Nat}

theorem State.sequenceAt_congr (h : C.index p = C.index q) : s.sequenceAt p = s.sequenceAt q := by
  rw [sequenceAt, sequenceAt, h]

theorem Stage.sequence (h : Stage s trace p) : s.sequenceAt p = p ∨ s.sequenceAt p = p + 1 := by
  cases h with
  | free _ hSeq | filling _ _ hSeq => exact .inl hSeq
  | full _ _ hSeq | emptying _ hSeq => exact .inr hSeq

/-- Two positions of one slot that both fit its sequence number are the same:
they would be a lap apart, and a lap is at least two. -/
theorem eq_of_sequence (hIndex : C.index p = C.index q)
    (hp : s.sequenceAt p = p ∨ s.sequenceAt p = p + 1)
    (hq : s.sequenceAt q = q ∨ s.sequenceAt q = q + 1) : p = q := by
  have hSame := s.sequenceAt_congr hIndex
  have hTwo := C.two_le
  rcases Nat.lt_trichotomy p q with hLt | rfl | hGt
  · have hLap := Ring.Size.lap_le_of_index_eq hIndex hLt
    omega
  · rfl
  · have hLap := Ring.Size.lap_le_of_index_eq hIndex.symm hGt
    omega

/-- The sequence number says at which position the slot is. -/
theorem Inv.cell_of_sequence (inv : Inv s trace) (h : s.sequenceAt p = p ∨ s.sequenceAt p = p + 1) :
    Cell s trace p := by
  obtain ⟨q, hIndex, hCell⟩ := inv.cell (C.index p)
  rw [← eq_of_sequence hIndex hCell.stage.sequence h]
  exact hCell

/-- The slot of a claimed position has reached it. -/
theorem Inv.le_cell (inv : Inv s trace) (hp : p < s.queue.enqueuePos) :
    ∃ q, C.index q = C.index p ∧ Cell s trace q ∧ p ≤ q := by
  obtain ⟨q, hIndex, hCell⟩ := inv.cell (C.index p)
  refine ⟨q, hIndex, hCell, ?_⟩
  by_contra hLt
  have hLap := Ring.Size.lap_le_of_index_eq hIndex (Nat.lt_of_not_le hLt)
  have hLatest := hCell.latest
  omega

/-- A position that was pushed and not popped is where its slot is. -/
theorem Inv.cell_of_live (inv : Inv s trace) (hPop : s.queue.dequeuePos ≤ p)
    (hPush : p < s.queue.enqueuePos) : Cell s trace p := by
  obtain ⟨q, hIndex, hCell, hLe⟩ := inv.le_cell hPush
  rcases Nat.eq_or_lt_of_le hLe with rfl | hLt
  · exact hCell
  · have hLap := Ring.Size.lap_le_of_index_eq hIndex.symm hLt
    have hCellLap := hCell.lap
    omega

/-- At most one lap is claimed and not popped. -/
theorem Inv.enqueue_le (inv : Inv s trace) : s.queue.enqueuePos ≤ s.queue.dequeuePos + C.val := by
  by_contra hLt
  obtain ⟨q, hIndex, hCell, hLe⟩ :=
    inv.le_cell (show s.queue.enqueuePos - 1 < s.queue.enqueuePos by omega)
  have hLap := hCell.lap
  omega

/-- The slot of a popped position has passed the push of it. -/
theorem Inv.lt_sequence_of_popped (inv : Inv s trace) (hp : p < s.queue.dequeuePos) :
    p < s.sequenceAt p := by
  obtain ⟨q, hIndex, hCell, hLe⟩ := inv.le_cell (Nat.lt_of_lt_of_le hp inv.dequeue_le)
  rw [← s.sequenceAt_congr hIndex]
  rcases Nat.eq_or_lt_of_le hLe with rfl | hLt
  · cases hCell.stage with
    | free =>
      have hOrder := inv.dequeue_le
      omega
    | filling => omega
    | full => omega
    | emptying => omega
  · have hSeq := hCell.stage.sequence
    omega

theorem Inv.lt_enqueue_of_pushes (inv : Inv s trace) {claim : τ × Nat × α}
    (h : (pushes trace)[p]? = some claim) : p < s.queue.enqueuePos := by
  have hLength := congrArg List.length inv.push_positions
  rw [List.length_map, List.length_range] at hLength
  rw [← hLength]
  exact (List.getElem?_eq_some_iff.mp h).1

theorem Inv.lt_dequeue_of_pops (inv : Inv s trace) {claim : τ × Nat}
    (h : (pops trace)[p]? = some claim) : p < s.queue.dequeuePos := by
  have hLength := congrArg List.length inv.pop_positions
  rw [List.length_map, List.length_range] at hLength
  rw [← hLength]
  exact (List.getElem?_eq_some_iff.mp h).1

theorem Inv.push_lt (inv : Inv s trace) {claim : τ × Nat × α} (h : claim ∈ pushes trace) :
    claim.2.1 < s.queue.enqueuePos := by
  rw [← List.mem_range, ← inv.push_positions]
  exact List.mem_map.mpr ⟨claim, h, rfl⟩

theorem Inv.pop_lt (inv : Inv s trace) {claim : τ × Nat} (h : claim ∈ pops trace) :
    claim.2 < s.queue.dequeuePos := by
  rw [← List.mem_range, ← inv.pop_positions]
  exact List.mem_map.mpr ⟨claim, h, rfl⟩

theorem Inv.pushed_isSome (inv : Inv s trace) (hp : p < s.queue.enqueuePos) :
    ∃ val, pushed trace p = some val := by
  have hLength := congrArg List.length inv.push_positions
  rw [List.length_map, List.length_range] at hLength
  rw [pushed, List.getElem?_eq_getElem (hLength ▸ hp)]
  exact ⟨_, rfl⟩

/-- A thread that is filling or emptying a slot finds it at its position. -/
theorem Inv.owns_cell (inv : Inv s trace) {t : τ} (h : Owns (s.pc t) p) :
    Cell s trace p ∧ p < s.queue.enqueuePos := by
  have hThread := inv.thread t
  rcases h with (⟨val, hPc⟩ | hPc) | (hPc | ⟨data, hPc⟩) <;> rw [hPc] at hThread
  · exact ⟨inv.cell_of_sequence (.inl hThread.1), inv.lt_enqueue_of_pushes hThread.2⟩
  · obtain ⟨hSeq, val, hClaim, -⟩ := hThread
    exact ⟨inv.cell_of_sequence (.inl hSeq), inv.lt_enqueue_of_pushes hClaim⟩
  · exact ⟨inv.cell_of_sequence (.inr hThread.1),
      Nat.lt_of_lt_of_le (inv.lt_dequeue_of_pops hThread.2.1) inv.dequeue_le⟩
  · exact ⟨inv.cell_of_sequence (.inr hThread.1),
      Nat.lt_of_lt_of_le (inv.lt_dequeue_of_pops hThread.2.1) inv.dequeue_le⟩

/-- No two threads use one slot at the same time. -/
theorem Inv.exclusive (inv : Inv s trace) {t u : τ} (ht : Owns (s.pc t) p) (hu : Owns (s.pc u) q)
    (hIndex : C.index p = C.index q) : t = u := by
  have hSame := eq_of_sequence hIndex (inv.owns_cell ht).1.stage.sequence
    (inv.owns_cell hu).1.stage.sequence
  exact inv.owner ht (hSame ▸ hu)

/-- The position a push claims is free. The sequence number it has read may be
old, but the slot cannot have moved on before the position was claimed. -/
theorem Inv.free_of_exchange (inv : Inv s trace)
    (h : s.queue.enqueuePos ≤ s.sequenceAt s.queue.enqueuePos) :
    Cell s trace s.queue.enqueuePos ∧ s.sequenceAt s.queue.enqueuePos = s.queue.enqueuePos := by
  obtain ⟨q, hIndex, hCell⟩ := inv.cell (C.index s.queue.enqueuePos)
  have hLap := hCell.lap
  have hLatest := hCell.latest
  have hSeq := hCell.stage.sequence
  have hOrder := inv.dequeue_le
  have hTwo := C.two_le
  rw [← s.sequenceAt_congr hIndex] at h
  rcases Nat.lt_trichotomy q s.queue.enqueuePos with hLt | hEq | hGt
  · have hGap := Ring.Size.lap_le_of_index_eq hIndex hLt
    omega
  · rw [← hEq]
    refine ⟨hCell, ?_⟩
    cases hCell.stage with
    | free _ hFree => exact hFree
    | filling => omega
    | full => omega
    | emptying => omega
  · have hGap := Ring.Size.lap_le_of_index_eq hIndex.symm hGt
    omega

/-- The position a pop claims is full, for the same reason. -/
theorem Inv.full_of_exchange (inv : Inv s trace)
    (h : s.queue.dequeuePos < s.sequenceAt s.queue.dequeuePos) :
    Cell s trace s.queue.dequeuePos ∧ s.queue.dequeuePos < s.queue.enqueuePos ∧
      s.sequenceAt s.queue.dequeuePos = s.queue.dequeuePos + 1 ∧
      s.dataAt s.queue.dequeuePos = pushed trace s.queue.dequeuePos := by
  have hOrder := inv.dequeue_le
  have hBehind : s.queue.dequeuePos < s.queue.enqueuePos := by
    by_contra hNot
    have hEq : s.queue.dequeuePos = s.queue.enqueuePos := by omega
    rw [hEq] at h
    have hFree := (inv.free_of_exchange (Nat.le_of_lt h)).2
    omega
  have hCell := inv.cell_of_live (Nat.le_refl _) hBehind
  cases hCell.stage with
  | free => omega
  | filling => omega
  | full _ _ hSeq hData => exact ⟨hCell, hBehind, hSeq, hData⟩
  | emptying => omega

/-- The slot of the next push is free for it or still in an earlier lap. -/
theorem Inv.sequence_enqueue_le (inv : Inv s trace) :
    s.sequenceAt s.queue.enqueuePos ≤ s.queue.enqueuePos := by
  by_contra hLt
  have hFree := (inv.free_of_exchange (by omega)).2
  omega

/-- The slot of the next pop is full, or not yet filled. -/
theorem Inv.sequence_dequeue_le (inv : Inv s trace) :
    s.sequenceAt s.queue.dequeuePos ≤ s.queue.dequeuePos + 1 := by
  by_contra hLt
  have hFull := (inv.full_of_exchange (by omega)).2.2.1
  omega

end Positions

section Steps

variable {s : State τ Nat α C} {trace : List (Event τ Nat α)}

/-- What a step of `t` may do to the queue: counters grow, and what another
thread owns is left alone. -/
structure Grows (s : State τ Nat α C) (t : τ) (queue : MPMCQueue Nat α C) : Prop where
  enqueue_le : s.queue.enqueuePos ≤ queue.enqueuePos
  dequeue_le : s.queue.dequeuePos ≤ queue.dequeuePos
  sequence_le : ∀ i, (s.queue.slots i).sequence ≤ (queue.slots i).sequence
  keeps : ∀ {u p}, u ≠ t → Owns (s.pc u) p → queue.slots (C.index p) = s.queue.slots (C.index p)

theorem Grows.refl (s : State τ Nat α C) (t : τ) : Grows s t s.queue where
  enqueue_le := Nat.le_refl _
  dequeue_le := Nat.le_refl _
  sequence_le := fun _ => Nat.le_refl _
  keeps := fun _ _ => rfl

theorem Inv.pushed_append (inv : Inv s trace) {p : Nat} (hp : p < s.queue.enqueuePos)
    (events : List (Event τ Nat α)) : pushed (trace ++ events) p = pushed trace p := by
  have hLength := congrArg List.length inv.push_positions
  rw [List.length_map, List.length_range] at hLength
  rw [pushed, pushes_append, List.getElem?_append_left (hLength ▸ hp), pushed]

theorem getElem?_pushes_append {p : Nat} {claim : τ × Nat × α} (h : (pushes trace)[p]? = some claim)
    (events : List (Event τ Nat α)) : (pushes (trace ++ events))[p]? = some claim := by
  rw [pushes_append, List.getElem?_append_left (List.getElem?_eq_some_iff.mp h).1, h]

theorem getElem?_pops_append {p : Nat} {claim : τ × Nat} (h : (pops trace)[p]? = some claim)
    (events : List (Event τ Nat α)) : (pops (trace ++ events))[p]? = some claim := by
  rw [pops_append, List.getElem?_append_left (List.getElem?_eq_some_iff.mp h).1, h]

variable {events : List (Event τ Nat α)} {t : τ} {queue : MPMCQueue Nat α C} {pos : Nat}

theorem Inv.push_positions_append (inv : Inv s trace) (h : pushes events = []) :
    (pushes (trace ++ events)).map (fun claim => claim.2.1) = List.range s.queue.enqueuePos := by
  rw [pushes_append, h, List.append_nil]
  exact inv.push_positions

theorem Inv.pop_positions_append (inv : Inv s trace) (h : pops events = []) :
    (pops (trace ++ events)).map Prod.snd = List.range s.queue.dequeuePos := by
  rw [pops_append, h, List.append_nil]
  exact inv.pop_positions

theorem Inv.delivered_nodup_append (inv : Inv s trace) (h : delivered events = []) :
    ((delivered (trace ++ events)).map (fun d => d.2.1)).Nodup := by
  rw [delivered_append, h, List.append_nil]
  exact inv.delivered_nodup

variable [DecidableEq τ]

/-- What another thread knows is not invalidated. -/
theorem Inv.thread_of_ne (inv : Inv s trace) {u : τ} (h : Grows s t queue) (hu : u ≠ t)
    (pc : Pc Nat α) (events : List (Event τ Nat α)) :
    ThreadOk (s.goto t pc queue) (trace ++ events) u ((s.goto t pc queue).pc u) := by
  have hKnown := inv.thread u
  rw [s.goto_pc_of_ne hu]
  cases hPc : s.pc u with
  | idle => trivial
  | pushLoad => trivial
  | popLoad => trivial
  | pushSequence =>
    rw [hPc] at hKnown
    exact Nat.le_trans hKnown h.enqueue_le
  | pushExchange =>
    rw [hPc] at hKnown
    exact ⟨Nat.le_trans hKnown.1 h.enqueue_le, Nat.le_trans hKnown.2 (h.sequence_le _)⟩
  | popSequence =>
    rw [hPc] at hKnown
    exact Nat.le_trans hKnown h.dequeue_le
  | popExchange =>
    rw [hPc] at hKnown
    exact ⟨Nat.le_trans hKnown.1 h.dequeue_le, Nat.lt_of_lt_of_le hKnown.2 (h.sequence_le _)⟩
  | pushMove val pos =>
    rw [hPc] at hKnown
    have hSlot := h.keeps hu (p := pos) (.inl (.inl ⟨val, hPc⟩))
    refine ⟨?_, getElem?_pushes_append hKnown.2 events⟩
    rw [State.sequenceAt, State.goto_queue, hSlot]
    exact hKnown.1
  | pushStore pos =>
    rw [hPc] at hKnown
    obtain ⟨hSeq, val, hClaim, hData⟩ := hKnown
    have hSlot := h.keeps hu (p := pos) (.inl (.inr hPc))
    refine ⟨?_, val, getElem?_pushes_append hClaim events, ?_⟩
    · rw [State.sequenceAt, State.goto_queue, hSlot]
      exact hSeq
    · rw [State.dataAt, State.goto_queue, hSlot]
      exact hData
  | popMove pos =>
    rw [hPc] at hKnown
    obtain ⟨hSeq, hClaim, hData⟩ := hKnown
    have hOwns : Owns (s.pc u) pos := .inr (.inl hPc)
    have hSlot := h.keeps hu hOwns
    refine ⟨?_, getElem?_pops_append hClaim events, ?_⟩
    · rw [State.sequenceAt, State.goto_queue, hSlot]
      exact hSeq
    · rw [State.dataAt, State.goto_queue, hSlot, inv.pushed_append (inv.owns_cell hOwns).2]
      exact hData
  | popStore pos data =>
    rw [hPc] at hKnown
    obtain ⟨hSeq, hClaim, hData⟩ := hKnown
    have hOwns : Owns (s.pc u) pos := .inr (.inr ⟨data, hPc⟩)
    have hSlot := h.keeps hu hOwns
    refine ⟨?_, getElem?_pops_append hClaim events, ?_⟩
    · rw [State.sequenceAt, State.goto_queue, hSlot]
      exact hSeq
    · rw [inv.pushed_append (inv.owns_cell hOwns).2]
      exact hData

/-- A slot that the step does not touch stays at its position. The counters may
move, but not across it. -/
theorem Cell.frame {p : Nat} {pc : Pc Nat α} (h : Cell s trace p) (inv : Inv s trace)
    (hGrows : Grows s t queue) (hOwner : ¬ Owns (s.pc t) p)
    (hSlot : queue.slots (C.index p) = s.queue.slots (C.index p))
    (hPush : queue.enqueuePos ≤ p ∨ p < s.queue.enqueuePos)
    (hPop : queue.dequeuePos ≤ p ∨ p < s.queue.dequeuePos)
    (hLatest : queue.enqueuePos ≤ p + C.val) : Cell (s.goto t pc queue) (trace ++ events) p := by
  have hSequence : (s.goto t pc queue).sequenceAt p = s.sequenceAt p := by
    rw [State.sequenceAt, State.goto_queue, hSlot, State.sequenceAt]
  have hData : (s.goto t pc queue).dataAt p = s.dataAt p := by
    rw [State.dataAt, State.goto_queue, hSlot, State.dataAt]
  have hStays : ∀ u, Owns (s.pc u) p → (s.goto t pc queue).pc u = s.pc u := by
    intro u hu
    apply s.goto_pc_of_ne
    intro hEq
    exact hOwner (hEq ▸ hu)
  have hEnqueue := hGrows.enqueue_le
  have hDequeue := hGrows.dequeue_le
  refine ⟨Nat.lt_of_lt_of_le h.lap (Nat.add_le_add_right hDequeue _), hLatest, ?_⟩
  cases h.stage with
  | free hPos hSeq =>
    refine .free ?_ (hSequence.trans hSeq)
    rw [State.goto_queue]
    omega
  | filling hOld hNew hSeq u hu =>
    refine .filling ?_ (Nat.lt_of_lt_of_le hNew hEnqueue) (hSequence.trans hSeq) u ?_
    · rw [State.goto_queue]
      omega
    · rw [hStays u (.inl hu)]
      exact hu
  | full hOld hNew hSeq hFull =>
    refine .full ?_ (Nat.lt_of_lt_of_le hNew hEnqueue) (hSequence.trans hSeq) ?_
    · rw [State.goto_queue]
      omega
    · rw [hData, hFull, inv.pushed_append hNew]
  | emptying hOld hSeq u hu =>
    refine .emptying (Nat.lt_of_lt_of_le hOld hDequeue) (hSequence.trans hSeq) u ?_
    rw [hStays u (.inr hu)]
    exact hu

/-- The part of the invariant that is the same for every step: what other
threads know, who owns what, and the calls that have returned. A step has to
account for the positions, the slots, its own thread and what it returns. -/
theorem Inv.advance (inv : Inv s trace) {pc : Pc Nat α} (hGrows : Grows s t queue)
    (hPushes : (pushes (trace ++ events)).map (fun claim => claim.2.1) = List.range
      queue.enqueuePos)
    (hPops : (pops (trace ++ events)).map Prod.snd = List.range queue.dequeuePos)
    (hOrder : queue.dequeuePos ≤ queue.enqueuePos)
    (hCell : ∀ i, ∃ p, C.index p = i ∧ Cell (s.goto t pc queue) (trace ++ events) p)
    (hThread : ThreadOk (s.goto t pc queue) (trace ++ events) t pc)
    (hOwner : ∀ {p u}, Owns pc p → u ≠ t → ¬ Owns (s.pc u) p)
    (hAccepted : ∀ {u p}, (u, p) ∈ accepted events →
      (∃ val, (pushes (trace ++ events))[p]? = some (u, p, val)) ∧
      p < (s.goto t pc queue).sequenceAt p)
    (hDelivered : ∀ {u p data}, (u, p, data) ∈ delivered events →
      (pops (trace ++ events))[p]? = some (u, p) ∧ p + 1 < (s.goto t pc queue).sequenceAt p ∧
      data = pushed (trace ++ events) p)
    (hNodup : ((delivered (trace ++ events)).map (fun d => d.2.1)).Nodup)
    (hPopped : ∀ {p}, p < queue.dequeuePos → (∃ u, Popping ((s.goto t pc queue).pc u) p) ∨
      ∃ u data, (u, p, data) ∈ delivered (trace ++ events)) :
    Inv (s.goto t pc queue) (trace ++ events) where
  push_positions := hPushes
  pop_positions := hPops
  dequeue_le := hOrder
  cell := hCell
  thread := by
    intro u
    by_cases hu : u = t
    · rw [hu, State.goto_pc_self]
      exact hThread
    · exact inv.thread_of_ne hGrows hu pc events
  owner := by
    intro u v p hu hv
    by_cases hut : u = t <;> by_cases hvt : v = t
    · rw [hut, hvt]
    · rw [hut, State.goto_pc_self] at hu
      rw [s.goto_pc_of_ne hvt] at hv
      exact absurd hv (hOwner hu hvt)
    · rw [hvt, State.goto_pc_self] at hv
      rw [s.goto_pc_of_ne hut] at hu
      exact absurd hu (hOwner hv hut)
    · rw [s.goto_pc_of_ne hut] at hu
      rw [s.goto_pc_of_ne hvt] at hv
      exact inv.owner hu hv
  accepted_ok := by
    intro u p h
    rw [accepted_append] at h
    rcases List.mem_append.mp h with hOld | hNew
    · obtain ⟨⟨val, hClaim⟩, hLt⟩ := inv.accepted_ok hOld
      exact ⟨⟨val, getElem?_pushes_append hClaim events⟩, Nat.lt_of_lt_of_le hLt
        (hGrows.sequence_le _)⟩
    · exact hAccepted hNew
  delivered_ok := by
    intro u p data h
    rw [delivered_append] at h
    rcases List.mem_append.mp h with hOld | hNew
    · obtain ⟨hClaim, hLt, hData⟩ := inv.delivered_ok hOld
      have hPos := Nat.lt_of_lt_of_le (inv.lt_dequeue_of_pops hClaim) inv.dequeue_le
      refine ⟨getElem?_pops_append hClaim events, Nat.lt_of_lt_of_le hLt (hGrows.sequence_le _), ?_⟩
      rw [hData, inv.pushed_append hPos]
    · exact hDelivered hNew
  delivered_nodup := hNodup
  popped := hPopped

/-- A thread emptying a slot keeps it in view unless it is the one that moves. -/
theorem Inv.popped_goto (inv : Inv s trace) {pc : Pc Nat α} (queue : MPMCQueue Nat α C) {p : Nat}
    (events : List (Event τ Nat α)) (hp : p < s.queue.dequeuePos)
    (hStays : Popping (s.pc t) p → Popping pc p) :
    (∃ u, Popping ((s.goto t pc queue).pc u) p) ∨
      ∃ u data, (u, p, data) ∈ delivered (trace ++ events) := by
  rcases inv.popped hp with ⟨u, hu⟩ | ⟨u, data, hMem⟩
  · left
    refine ⟨u, ?_⟩
    by_cases hEq : u = t
    · rw [hEq, State.goto_pc_self]
      exact hStays (hEq ▸ hu)
    · rw [s.goto_pc_of_ne hEq]
      exact hu
  · right
    rw [delivered_append]
    exact ⟨u, data, List.mem_append_left _ hMem⟩

/-- Steps that read, and calls that fail. -/
theorem Inv.quiet (inv : Inv s trace) {pc : Pc Nat α} (hSilent : Silent events)
    (hBefore : (s.pc t).outside = true) (hAfter : pc.outside = true)
    (hThread : ThreadOk s trace t pc) : Inv (s.goto t pc s.queue) (trace ++ events) := by
  obtain ⟨hPushes, hPops, hAccepted, hDelivered⟩ := hSilent
  apply inv.advance (.refl s t)
  · exact inv.push_positions_append hPushes
  · exact inv.pop_positions_append hPops
  · exact inv.dequeue_le
  · intro i
    obtain ⟨p, hIndex, hCell⟩ := inv.cell i
    refine ⟨p, hIndex, hCell.frame inv (.refl s t) (not_owns_of_outside hBefore p) rfl ?_ ?_
      hCell.latest⟩ <;> omega
  · cases pc with
    | pushMove | pushStore | popMove | popStore => cases hAfter
    | _ => exact hThread
  · intro p u hOwns
    exact absurd hOwns (not_owns_of_outside hAfter p)
  · rw [hAccepted]
    intro u p h
    cases h
  · rw [hDelivered]
    intro u p data h
    cases h
  · exact inv.delivered_nodup_append hDelivered
  · intro p hp
    exact inv.popped_goto s.queue events hp (fun hPopping => absurd (.inr hPopping)
      (not_owns_of_outside hBefore p))

/-- A push claims its position. -/
theorem Inv.pushClaim (inv : Inv s trace) {val : α} (hPc : s.pc t = .pushExchange val pos)
    (hPos : s.queue.enqueuePos = pos) :
    Inv (s.goto t (.pushMove val pos) { s.queue with enqueuePos := pos + 1 })
      (trace ++ [.pushClaimed t pos val]) := by
  have hKnown := inv.thread t
  rw [hPc] at hKnown
  subst hPos
  obtain ⟨hCell, hSeq⟩ := inv.free_of_exchange hKnown.2
  have hLength := congrArg List.length inv.push_positions
  rw [List.length_map, List.length_range] at hLength
  have hOrder := inv.dequeue_le
  have hTwo := C.two_le
  have hBefore : (s.pc t).outside = true := by
    rw [hPc]
    rfl
  have hGrows : Grows s t { s.queue with enqueuePos := s.queue.enqueuePos + 1 } :=
    ⟨Nat.le_succ _, Nat.le_refl _, fun _ => Nat.le_refl _, fun _ _ => rfl⟩
  apply inv.advance hGrows
  · rw [pushes_append, List.map_append, inv.push_positions, List.range_succ]
    rfl
  · exact inv.pop_positions_append rfl
  · exact Nat.le_succ_of_le hOrder
  · intro i
    obtain ⟨p, hIndex, hOld⟩ := inv.cell i
    by_cases hHere : i = C.index s.queue.enqueuePos
    · refine ⟨s.queue.enqueuePos, hHere.symm, hCell.lap, ?_, ?_⟩
      · change s.queue.enqueuePos + 1 ≤ _
        omega
      · exact .filling hOrder (Nat.lt_succ_self _) hSeq t (by simp [Pushing])
    · have hLatest := hOld.latest
      have hOther : p ≠ s.queue.enqueuePos := fun hEq => hHere (by rw [← hIndex, hEq])
      have hNext : p + C.val ≠ s.queue.enqueuePos := by
        intro hEq
        apply hHere
        rw [← hIndex, ← hEq, Ring.Size.index_add_lap]
      have hOutside := not_owns_of_outside hBefore p
      refine ⟨p, hIndex, hOld.frame inv hGrows hOutside rfl ?_ ?_ ?_⟩ <;> dsimp only <;> omega
  · refine ⟨hSeq, ?_⟩
    rw [pushes_append, List.getElem?_append_right (Nat.le_of_eq hLength), hLength, Nat.sub_self]
    rfl
  · intro p u hOwns hu hOther
    simp only [Owns, Pushing, Popping, Pc.pushMove.injEq, reduceCtorEq, or_false,
      exists_false] at hOwns
    obtain ⟨-, -, rfl⟩ := hOwns
    exact Nat.lt_irrefl _ (inv.owns_cell hOther).2
  · intro u p h
    cases h
  · intro u p data h
    cases h
  · exact inv.delivered_nodup_append rfl
  · intro p hp
    exact inv.popped_goto _ _ hp (fun hPopping => absurd (.inr hPopping)
      (not_owns_of_outside hBefore p))

/-- A step of a thread inside the slot it owns: only this slot changes, and its
sequence number does not shrink. -/
theorem Inv.inside (inv : Inv s trace) {pc : Pc Nat α} (hOwns : Owns (s.pc t) pos)
    (hStill : ∀ {p}, Owns pc p → p = pos) (hEnqueue : queue.enqueuePos = s.queue.enqueuePos)
    (hDequeue : queue.dequeuePos = s.queue.dequeuePos)
    (hSlots : ∀ {i}, i ≠ C.index pos → queue.slots i = s.queue.slots i)
    (hSequence : s.sequenceAt pos ≤ (queue.slots (C.index pos)).sequence)
    (hPushes : pushes events = []) (hPops : pops events = [])
    (hCell : ∃ p, C.index p = C.index pos ∧ Cell (s.goto t pc queue) (trace ++ events) p)
    (hThread : ThreadOk (s.goto t pc queue) (trace ++ events) t pc)
    (hAccepted : ∀ {u p}, (u, p) ∈ accepted events →
      (∃ val, (pushes (trace ++ events))[p]? = some (u, p, val)) ∧
        p < (s.goto t pc queue).sequenceAt p)
    (hDelivered : ∀ {u p data}, (u, p, data) ∈ delivered events →
      (pops (trace ++ events))[p]? = some (u, p) ∧ p + 1 < (s.goto t pc queue).sequenceAt p ∧
        data = pushed (trace ++ events) p)
    (hNodup : ((delivered (trace ++ events)).map (fun d => d.2.1)).Nodup)
    (hPopped : Popping (s.pc t) pos → Popping pc pos ∨ ∃ data, (t, pos, data) ∈ delivered events) :
    Inv (s.goto t pc queue) (trace ++ events) := by
  have hGrows : Grows s t queue := by
    refine ⟨Nat.le_of_eq hEnqueue.symm, Nat.le_of_eq hDequeue.symm, ?_, ?_⟩
    · intro i
      by_cases hHere : i = C.index pos
      · rw [hHere]
        exact hSequence
      · rw [hSlots hHere]
    · intro u p hu hOther
      apply hSlots
      intro hIndex
      exact hu (inv.exclusive hOther hOwns hIndex)
  apply inv.advance hGrows
  · rw [hEnqueue]
    exact inv.push_positions_append hPushes
  · rw [hDequeue]
    exact inv.pop_positions_append hPops
  · rw [hEnqueue, hDequeue]
    exact inv.dequeue_le
  · intro i
    by_cases hHere : i = C.index pos
    · rw [hHere]
      exact hCell
    · obtain ⟨p, hIndex, hOld⟩ := inv.cell i
      have hOther : ¬ Owns (s.pc t) p := by
        intro hEq
        rw [← hIndex, hEq.unique hOwns] at hHere
        exact hHere rfl
      have hLatest := hOld.latest
      refine ⟨p, hIndex, hOld.frame inv hGrows hOther (hSlots (hIndex ▸ hHere)) ?_ ?_ ?_⟩ <;> omega
  · exact hThread
  · intro p u hNew hu hOther
    rw [hStill hNew] at hOther
    exact hu (inv.owner hOther hOwns)
  · exact hAccepted
  · exact hDelivered
  · exact hNodup
  · intro p hp
    rw [hDequeue] at hp
    by_cases hHere : Popping (s.pc t) p
    · have hEq : p = pos := Owns.unique (.inr hHere) hOwns
      rw [hEq] at hHere ⊢
      rcases hPopped hHere with hStays | ⟨data, hMem⟩
      · exact .inl ⟨t, by rw [State.goto_pc_self]; exact hStays⟩
      · right
        rw [delivered_append]
        exact ⟨t, data, List.mem_append_right _ hMem⟩
    · exact inv.popped_goto _ _ hp (fun hPopping => absurd hPopping hHere)

/-- It moves the value into the cell it has claimed, which nobody else uses. -/
theorem Inv.pushMove (inv : Inv s trace) {val : α} (hPc : s.pc t = .pushMove val pos) :
    Inv (s.goto t (.pushStore pos) (s.queue.setData (C.index pos) (some val))) (trace ++ []) := by
  have hKnown := inv.thread t
  rw [hPc] at hKnown
  obtain ⟨hSeq, hClaim⟩ := hKnown
  have hOwns : Owns (s.pc t) pos := .inl (.inl ⟨val, hPc⟩)
  obtain ⟨hCell, hPush⟩ := inv.owns_cell hOwns
  have hSame : (s.goto t (.pushStore pos) (s.queue.setData (C.index pos) (some val))).sequenceAt pos
      = pos := by
    rw [State.sequenceAt, State.goto_queue, MPMCQueue.setData_sequence]
    exact hSeq
  apply inv.inside hOwns
  · simp [Owns, Pushing, Popping, eq_comm]
  · rfl
  · rfl
  · exact fun hOther => s.queue.setData_slots_of_ne hOther (some val)
  · rw [MPMCQueue.setData_sequence]
    exact Nat.le_refl _
  · rfl
  · rfl
  · refine ⟨pos, rfl, hCell.lap, hCell.latest, ?_⟩
    cases hCell.stage with
    | free => omega
    | filling hPop => exact .filling hPop hPush hSame t (by simp [Pushing])
    | full => omega
    | emptying => omega
  · refine ⟨hSame, val, getElem?_pushes_append hClaim [], ?_⟩
    rw [State.dataAt, State.goto_queue, MPMCQueue.setData_data_self]
  · intro u p h
    cases h
  · intro u p data h
    cases h
  · exact inv.delivered_nodup_append rfl
  · simp [hPc, Popping]

/-- It hands the cell over to the pop of the same position. -/
theorem Inv.pushStore (inv : Inv s trace) (hPc : s.pc t = .pushStore pos) :
    Inv (s.goto t .idle (s.queue.setSequence (C.index pos) (pos + 1)))
      (trace ++ [.pushReturned t pos]) := by
  have hKnown := inv.thread t
  rw [hPc] at hKnown
  obtain ⟨hSeq, val, hClaim, hData⟩ := hKnown
  have hOwns : Owns (s.pc t) pos := .inl (.inr hPc)
  obtain ⟨hCell, hPush⟩ := inv.owns_cell hOwns
  have hNext : (s.goto t .idle (s.queue.setSequence (C.index pos) (pos + 1))).sequenceAt pos =
      pos + 1 := by
    rw [State.sequenceAt, State.goto_queue, MPMCQueue.setSequence_sequence_self]
  apply inv.inside hOwns
  · simp [Owns, Pushing, Popping]
  · rfl
  · rfl
  · exact fun hOther => s.queue.setSequence_slots_of_ne hOther (pos + 1)
  · rw [MPMCQueue.setSequence_sequence_self]
    omega
  · rfl
  · rfl
  · refine ⟨pos, rfl, hCell.lap, hCell.latest, ?_⟩
    cases hCell.stage with
    | free => omega
    | filling hPop =>
      refine .full hPop hPush hNext ?_
      rw [State.dataAt, State.goto_queue, MPMCQueue.setSequence_data, inv.pushed_append hPush,
        pushed, hClaim]
      exact hData
    | full => omega
    | emptying => omega
  · trivial
  · intro u p h
    cases List.mem_singleton.mp h
    exact ⟨⟨val, getElem?_pushes_append hClaim _⟩, by rw [hNext]; omega⟩
  · intro u p data h
    cases h
  · exact inv.delivered_nodup_append rfl
  · simp [hPc, Popping]

/-- A pop claims a position whose value is there. -/
theorem Inv.popClaim (inv : Inv s trace) (hPc : s.pc t = .popExchange pos)
    (hPos : s.queue.dequeuePos = pos) :
    Inv (s.goto t (.popMove pos) { s.queue with dequeuePos := pos + 1 })
      (trace ++ [.popClaimed t pos]) := by
  have hKnown := inv.thread t
  rw [hPc] at hKnown
  subst hPos
  obtain ⟨hCell, hPush, hSeq, hData⟩ := inv.full_of_exchange hKnown.2
  have hLength := congrArg List.length inv.pop_positions
  rw [List.length_map, List.length_range] at hLength
  have hBefore : (s.pc t).outside = true := by
    rw [hPc]
    rfl
  have hGrows : Grows s t { s.queue with dequeuePos := s.queue.dequeuePos + 1 } :=
    ⟨Nat.le_refl _, Nat.le_succ _, fun _ => Nat.le_refl _, fun _ _ => rfl⟩
  apply inv.advance hGrows
  · exact inv.push_positions_append rfl
  · rw [pops_append, List.map_append, inv.pop_positions, List.range_succ]
    rfl
  · exact hPush
  · intro i
    obtain ⟨p, hIndex, hOld⟩ := inv.cell i
    by_cases hHere : i = C.index s.queue.dequeuePos
    · refine ⟨s.queue.dequeuePos, hHere.symm, ?_, hCell.latest, ?_⟩
      · exact Nat.lt_of_lt_of_le hCell.lap (Nat.add_le_add_right (Nat.le_succ _) _)
      · exact .emptying (Nat.lt_succ_self _) hSeq t (by simp [Popping])
    · have hOther : p ≠ s.queue.dequeuePos := fun hEq => hHere (by rw [← hIndex, hEq])
      have hOutside := not_owns_of_outside hBefore p
      refine ⟨p, hIndex, hOld.frame inv hGrows hOutside rfl ?_ ?_ hOld.latest⟩
        <;> dsimp only <;> omega
  · refine ⟨hSeq, ?_, ?_⟩
    · rw [pops_append, List.getElem?_append_right (Nat.le_of_eq hLength), hLength, Nat.sub_self]
      rfl
    · rw [inv.pushed_append hPush]
      exact hData
  · intro p u hOwns hu hOther
    simp only [Owns, Pushing, Popping, Pc.popMove.injEq, reduceCtorEq, or_false, exists_false,
      false_or] at hOwns
    subst hOwns
    -- an owner of the position would be a pop that has claimed it already
    cases (inv.owns_cell hOther).1.stage with
    | free => omega
    | filling => omega
    | emptying hPop => exact Nat.lt_irrefl _ hPop
    | full =>
      have hOwner := inv.thread u
      rcases hOther with (⟨val, hu'⟩ | hu') | (hu' | ⟨data, hu'⟩) <;> rw [hu'] at hOwner
      · have hPushing := hOwner.1
        omega
      · have hPushing := hOwner.1
        omega
      · exact Nat.lt_irrefl _ (inv.lt_dequeue_of_pops hOwner.2.1)
      · exact Nat.lt_irrefl _ (inv.lt_dequeue_of_pops hOwner.2.1)
  · intro u p h
    cases h
  · intro u p data h
    cases h
  · exact inv.delivered_nodup_append rfl
  · intro p hp
    rcases Nat.lt_succ_iff_lt_or_eq.mp hp with hOld | rfl
    · exact inv.popped_goto _ _ hOld (fun hPopping => absurd (.inr hPopping)
        (not_owns_of_outside hBefore p))
    · exact .inl ⟨t, by simp [Popping]⟩

/-- It takes the value out of the cell it has claimed. -/
theorem Inv.popMove (inv : Inv s trace) (hPc : s.pc t = .popMove pos) :
    Inv (s.goto t (.popStore pos (s.dataAt pos)) (s.queue.setData (C.index pos) none))
    (trace ++ []) := by
  have hKnown := inv.thread t
  rw [hPc] at hKnown
  obtain ⟨hSeq, hClaim, hData⟩ := hKnown
  have hOwns : Owns (s.pc t) pos := .inr (.inl hPc)
  obtain ⟨hCell, hPush⟩ := inv.owns_cell hOwns
  have hPop := inv.lt_dequeue_of_pops hClaim
  have hSame : (s.goto t (.popStore pos (s.dataAt pos))
      (s.queue.setData (C.index pos) none)).sequenceAt pos = pos + 1 := by
    rw [State.sequenceAt, State.goto_queue, MPMCQueue.setData_sequence]
    exact hSeq
  apply inv.inside hOwns
  · simp [Owns, Pushing, Popping, eq_comm]
  · rfl
  · rfl
  · exact fun hOther => s.queue.setData_slots_of_ne hOther none
  · rw [MPMCQueue.setData_sequence]
    exact Nat.le_refl _
  · rfl
  · rfl
  · exact ⟨pos, rfl, hCell.lap, hCell.latest, .emptying hPop hSame t (by simp [Popping])⟩
  · refine ⟨hSame, getElem?_pops_append hClaim [], ?_⟩
    rw [inv.pushed_append hPush]
    exact hData
  · intro u p h
    cases h
  · intro u p data h
    cases h
  · exact inv.delivered_nodup_append rfl
  · simp [Popping]

/-- It hands the cell over to the push of the next round. -/
theorem Inv.popStore (inv : Inv s trace) {data : Option α} (hPc : s.pc t = .popStore pos data) :
    Inv (s.goto t .idle (s.queue.setSequence (C.index pos) (pos + C.val)))
      (trace ++ [.popReturned t pos data]) := by
  have hKnown := inv.thread t
  rw [hPc] at hKnown
  obtain ⟨hSeq, hClaim, hData⟩ := hKnown
  have hOwns : Owns (s.pc t) pos := .inr (.inr ⟨data, hPc⟩)
  obtain ⟨hCell, hPush⟩ := inv.owns_cell hOwns
  have hPop := inv.lt_dequeue_of_pops hClaim
  have hTwo := C.two_le
  have hNext : (s.goto t .idle (s.queue.setSequence (C.index pos) (pos + C.val))).sequenceAt pos =
      pos + C.val := by
    rw [State.sequenceAt, State.goto_queue, MPMCQueue.setSequence_sequence_self]
  apply inv.inside hOwns
  · simp [Owns, Pushing, Popping]
  · rfl
  · rfl
  · exact fun hOther => s.queue.setSequence_slots_of_ne hOther (pos + C.val)
  · rw [MPMCQueue.setSequence_sequence_self]
    omega
  · rfl
  · rfl
  · have hIndex : C.index (pos + C.val) = C.index pos := Ring.Size.index_add_lap pos
    have hLatest := hCell.latest
    refine ⟨pos + C.val, hIndex, Nat.add_lt_add_right hPop _, Nat.le_add_right_of_le hLatest, ?_⟩
    refine .free hLatest ?_
    rw [State.sequenceAt_congr hIndex]
    exact hNext
  · trivial
  · intro u p h
    cases h
  · intro u p data' h
    cases List.mem_singleton.mp h
    refine ⟨getElem?_pops_append hClaim _, by rw [hNext]; omega, ?_⟩
    rw [inv.pushed_append hPush]
    exact hData
  · rw [delivered_append, List.map_append]
    refine List.nodup_append.mpr ⟨inv.delivered_nodup, List.nodup_singleton _, ?_⟩
    rintro p hOld q hNew rfl
    cases List.mem_singleton.mp hNew
    obtain ⟨⟨u, q, d⟩, hMem, rfl⟩ := List.mem_map.mp hOld
    have hReleased := (inv.delivered_ok hMem).2.1
    dsimp only at hReleased hSeq
    omega
  · intro _
    exact .inr ⟨data, List.mem_singleton.mpr rfl⟩

theorem inv_start : Inv (machine τ α (.unbounded C)).start [] where
  push_positions := rfl
  pop_positions := rfl
  dequeue_le := Nat.le_refl _
  cell := by
    intro i
    refine ⟨i.val, Ring.Size.index_val i, ?_, Nat.zero_le _, .free (Nat.zero_le _) ?_⟩
    · exact (Nat.zero_add C.val).symm ▸ i.isLt
    · exact congrArg Fin.val (Ring.Size.index_val i)
  thread := fun _ => trivial
  owner := by
    intro t u p h
    simp [machine, Owns, Pushing, Popping] at h
  accepted_ok := by
    intro t p h
    cases h
  delivered_ok := by
    intro t p data h
    cases h
  delivered_nodup := List.nodup_nil
  popped := by
    intro p hp
    exact absurd hp (Nat.not_lt_zero p)

/-- Every step of every thread keeps the invariant. -/
theorem Inv.step (inv : Inv s trace) {t : τ} {s' : State τ Nat α C} {events : List (Event τ Nat α)}
    (h : Step (.unbounded C) s t s' events) : Inv s' (trace ++ events) := by
  have hKnown := inv.thread t
  cases h with
  | callPush val hPc | callPop hPc | pushFull hPc | pushReload hPc | popEmpty hPc | popReload hPc => exact inv.quiet ⟨rfl, rfl, rfl, rfl⟩ (by rw [hPc]; rfl) rfl trivial
  | pushLoad hPc | pushRetry hPc | popLoad hPc | popRetry hPc =>
    exact inv.quiet ⟨rfl, rfl, rfl, rfl⟩ (by rw [hPc]; rfl) rfl (Nat.le_refl _)
  | @pushFree val pos hPc hDiff =>
    rw [hPc] at hKnown
    have hSeq : ((s.sequenceAt pos : Nat) : Int) - pos = 0 := hDiff
    exact inv.quiet ⟨rfl, rfl, rfl, rfl⟩ (by rw [hPc]; rfl) rfl ⟨hKnown, by omega⟩
  | pushClaim hPc hPos => exact inv.pushClaim hPc hPos
  | pushMove hPc => exact inv.pushMove hPc
  | pushStore hPc => exact inv.pushStore hPc
  | @popReady pos hPc hDiff =>
    rw [hPc] at hKnown
    have hSeq : ((s.sequenceAt pos : Nat) : Int) - ((pos + 1 : Nat) : Int) = 0 := hDiff
    exact inv.quiet ⟨rfl, rfl, rfl, rfl⟩ (by rw [hPc]; rfl) rfl ⟨hKnown, by omega⟩
  | popClaim hPc hPos => exact inv.popClaim hPc hPos
  | popMove hPc => exact inv.popMove hPc
  | popStore hPc => exact inv.popStore hPc

/-- A step that emits nothing claims and releases nothing. -/
theorem Step.silent {s' : State τ Nat α C} (h : Step (.unbounded C) s t s' []) :
    s'.queue.enqueuePos = s.queue.enqueuePos ∧ s'.queue.dequeuePos = s.queue.dequeuePos ∧
      (s'.pc t).outside = (s.pc t).outside ∧ ∀ p, Pushing (s'.pc t) p → Pushing (s.pc t) p := by
  cases h <;> simp_all [Pc.outside, Pushing, MPMCQueue.setData]

theorem inv_of_reaches (h : (machine τ α (.unbounded C)).Reaches s trace) : Inv s trace := by
  refine h.invariant inv_start ?_
  intro s s' trace events label _ inv hNext
  exact inv.step (step_of_next hNext)

end Steps

section Consequences

variable {s : State τ Nat α C} {trace : List (Event τ Nat α)}

variable {t : τ}

/-- The value of a push that returned true is in its slot, in the hands of the
pop that claimed its position, or returned by that pop. -/
theorem Inv.value_kept (inv : Inv s trace) {p : Nat} (h : (t, p) ∈ accepted trace) :
    ∃ val, (pushes trace)[p]? = some (t, p, val) ∧
      ((∃ u, (u, p, some val) ∈ delivered trace) ∨ (∃ u, s.pc u = .popStore p (some val)) ∨
        s.dataAt p = some val) := by
  obtain ⟨⟨val, hClaim⟩, hLt⟩ := inv.accepted_ok h
  have hValue : pushed trace p = some val := by rw [pushed, hClaim]; rfl
  refine ⟨val, hClaim, ?_⟩
  by_cases hPop : p < s.queue.dequeuePos
  · rcases inv.popped hPop with ⟨u, hu⟩ | ⟨u, data, hMem⟩
    · have hKnown := inv.thread u
      rcases hu with hPc | ⟨data, hPc⟩ <;> rw [hPc] at hKnown
      · exact .inr (.inr (hKnown.2.2.trans hValue))
      · refine .inr (.inl ⟨u, ?_⟩)
        rw [hPc, hKnown.2.2, hValue]
    · left
      rw [← hValue, ← (inv.delivered_ok hMem).2.2]
      exact ⟨u, hMem⟩
  · right; right
    have hCell := inv.cell_of_live (Nat.le_of_not_lt hPop) (inv.lt_enqueue_of_pushes hClaim)
    cases hCell.stage with
    | free hPos => exact absurd (inv.lt_enqueue_of_pushes hClaim) (Nat.not_lt.mpr hPos)
    | filling => omega
    | full _ _ _ hData => exact hData.trans hValue
    | emptying hOld => exact absurd hOld hPop

/-- What a pop returns is the value of the push that claimed its position. -/
theorem Inv.value_matches (inv : Inv s trace) {p : Nat} {data : Option α}
    (h : (t, p, data) ∈ delivered trace) :
    (pops trace)[p]? = some (t, p) ∧
      ∃ u val, (pushes trace)[p]? = some (u, p, val) ∧ data = some val := by
  obtain ⟨hClaim, -, rfl⟩ := inv.delivered_ok h
  refine ⟨hClaim, ?_⟩
  have hPush := Nat.lt_of_lt_of_le (inv.lt_dequeue_of_pops hClaim) inv.dequeue_le
  obtain ⟨val, hValue⟩ := inv.pushed_isSome hPush
  obtain ⟨⟨u, pos, val'⟩, hFound, rfl⟩ := Option.map_eq_some_iff.mp hValue
  have hPos := congrArg (fun positions => positions[p]?) inv.push_positions
  simp only [List.getElem?_map, hFound, Option.map_some, List.getElem?_range hPush,
    Option.some.injEq] at hPos
  exact ⟨u, val', by rw [hFound, hPos], hValue⟩

/-- A pop that finds its slot not ready has an up-to-date position, and nothing is
left there but a push that has not published its value. -/
theorem Inv.empty (inv : Inv s trace) {pos : Nat} (hPc : s.pc t = .popSequence pos)
    (hSeq : s.sequenceAt pos ≤ pos) :
    s.queue.enqueuePos = s.queue.dequeuePos ∨ ∃ u, Pushing (s.pc u) s.queue.dequeuePos := by
  have hKnown := inv.thread t
  rw [hPc] at hKnown
  have hPos : pos = s.queue.dequeuePos := by
    rcases Nat.eq_or_lt_of_le hKnown with hEq | hLt
    · exact hEq
    · exact absurd (inv.lt_sequence_of_popped hLt) (Nat.not_lt.mpr hSeq)
  rcases Nat.eq_or_lt_of_le inv.dequeue_le with hEq | hLt
  · exact .inl hEq.symm
  · rw [hPos] at hSeq
    cases (inv.cell_of_live (Nat.le_refl _) hLt).stage with
    | free => omega
    | filling _ _ _ u hu => exact .inr ⟨u, hu⟩
    | full => omega
    | emptying => omega

/-- No sequence number is more than a lap ahead of the next position to claim. -/
theorem Inv.sequence_le (inv : Inv s trace) (i : Fin C.val) :
    (s.queue.slots i).sequence ≤ s.queue.enqueuePos + C.val := by
  obtain ⟨p, rfl, hCell⟩ := inv.cell i
  have hSeq := hCell.stage.sequence
  have hLap := hCell.lap
  have hOrder := inv.dequeue_le
  rw [State.sequenceAt] at hSeq
  omega

end Consequences

end Tinycoro.Mpmc
