import Tinycoro.Queue.MpmcWord

/-! A call that runs alone returns. The loops of `push` and `pop` have no measure of
their own: an iteration starts over when the sequence number is ahead of the position or
the compare-exchange fails. Both mean that the position was stale, and a position that
has just been loaded stays current while the other threads stand still. -/
namespace Tinycoro.Mpmc

open Transition

variable {τ κ α : Type} {C : Ring.Size}

/-- The thread is at the head of its loop, where an iteration begins. -/
def Pc.atHead : Pc κ α → Bool
  | .pushSequence .. | .popSequence .. => true
  | _ => false

/-- No slot is ahead of the two positions: with the current position the loops of
`push` and `pop` do not start over. -/
structure Settled (K : SizeT κ C) (queue : MPMCQueue κ α C) : Prop where
  push_le : K.diff (queue.slots (K.index queue.enqueuePos)).sequence queue.enqueuePos ≤ 0
  pop_le : K.diff (queue.slots (K.index queue.dequeuePos)).sequence (K.add queue.dequeuePos 1) ≤ 0

theorem Inv.settled {w : Nat} {s : State τ Nat α C} {trace : List (Event τ Nat α)}
    (inv : Inv s trace) (h : (pushes trace).length + C.val < 2 ^ (w - 1)) :
    Settled (.word C w) (s.map (BitVec.ofNat w)).queue := by
  have hBounded := inv.bounded h
  have hLength := congrArg List.length inv.push_positions
  rw [List.length_map, List.length_range] at hLength
  have hOrder := inv.dequeue_le
  have hTwo := C.two_le
  have hEnqueue := inv.sequence_enqueue_le
  have hDequeue := inv.sequence_dequeue_le
  constructor
  · change (SizeT.word C w).diff ((s.map _).queue.slots
      ((SizeT.word C w).index (BitVec.ofNat w _))).sequence (BitVec.ofNat w _) ≤ 0
    rw [word_index hBounded.enqueue_lt]
    have hDiff := word_diff (C := C) (hBounded.sequence_lt (C.index s.queue.enqueuePos))
        hBounded.enqueue_lt
    rw [State.sequenceAt] at hEnqueue
    exact hDiff.trans_le (by omega)
  · change (SizeT.word C w).diff ((s.map _).queue.slots
      ((SizeT.word C w).index (BitVec.ofNat w _))).sequence
      ((SizeT.word C w).add (BitVec.ofNat w _) 1) ≤ 0
    rw [word_index hBounded.dequeue_lt, word_add]
    have hDiff := word_diff (C := C) (hBounded.sequence_lt (C.index s.queue.dequeuePos))
      (show s.queue.dequeuePos + 1 < 2 ^ (w - 1) by omega)
    rw [State.sequenceAt] at hDequeue
    exact hDiff.trans_le (by omega)

variable [DecidableEq τ] [DecidableEq κ]

/-- Thread `t` takes steps alone, without spurious failures, until its call has
returned, and begins `n` iterations of its loop on the way. -/
inductive Alone (K : SizeT κ C) (t : τ) : State τ κ α C → Nat → Prop where
  | returned {s : State τ κ α C} (hPc : s.pc t = .idle) : Alone K t s 0
  | within {s s' : State τ κ α C} {events : List (Event τ κ α)} {n : Nat}
      (hHead : (s.pc t).atHead = false) (hNext : next K s (t, .step false) = some (s', events))
      (h : Alone K t s' n) :
      Alone K t s n
  | iterate {s s' : State τ κ α C} {events : List (Event τ κ α)} {n : Nat}
      (hHead : (s.pc t).atHead = true) (hNext : next K s (t, .step false) = some (s', events))
      (h : Alone K t s' n) :
      Alone K t s (n + 1)

section Push

variable {K : SizeT κ C} {s : State τ κ α C} {t : τ} {val : α} {pos : κ}

theorem next_of_pushStep {pc : Pc κ α} {r : State τ κ α C × List (Event τ κ α)} (hPc : s.pc t = pc)
    (h : pushStep K s t false pc = some r) : next K s (t, .step false) = some r := by
  rw [next, hPc, h]
  rfl

theorem Alone.pushStore (hPc : s.pc t = .pushStore pos) : Alone K t s 0 :=
  .within (by rw [hPc]; rfl) (next_of_pushStep hPc rfl) (.returned (s.goto_pc_self ..))

theorem Alone.pushMove (hPc : s.pc t = .pushMove val pos) : Alone K t s 0 :=
  .within (by rw [hPc]; rfl) (next_of_pushStep hPc rfl) (.pushStore (s.goto_pc_self ..))

/-- With the current position the compare-exchange succeeds. -/
theorem Alone.pushExchange_current (hPc : s.pc t = .pushExchange val s.queue.enqueuePos) :
    Alone K t s 0 :=
  .within (by rw [hPc]; rfl) (next_of_pushStep hPc (if_pos ⟨rfl, rfl⟩))
    (.pushMove (s.goto_pc_self ..))

theorem Alone.pushFull (hPc : s.pc t = .pushSequence val pos)
    (hDiff : K.diff (s.queue.slots (K.index pos)).sequence pos < 0) : Alone K t s 1 := by
  have hStep : pushStep K s t false (.pushSequence val pos) =
      some (s.goto t .idle s.queue, [.pushFull t]) :=
    (if_neg hDiff.ne).trans (if_pos hDiff)
  exact .iterate (by rw [hPc]; rfl) (next_of_pushStep hPc hStep) (.returned (s.goto_pc_self ..))

/-- With the current position the slot is free or the queue is full. -/
theorem Alone.pushSequence_current (h : Settled K s.queue)
    (hPc : s.pc t = .pushSequence val s.queue.enqueuePos) : Alone K t s 1 := by
  rcases Int.le_iff_eq_or_lt.mp h.push_le with hZero | hNeg
  · exact .iterate (by rw [hPc]; rfl) (next_of_pushStep hPc (if_pos hZero))
      (.pushExchange_current (s.goto_pc_self ..))
  · exact .pushFull hPc hNeg

theorem Alone.pushLoad (h : Settled K s.queue) (hPc : s.pc t = .pushLoad val) : Alone K t s 1 :=
  .within (by rw [hPc]; rfl) (next_of_pushStep hPc rfl)
  (.pushSequence_current h (s.goto_pc_self ..))

/-- A failed compare-exchange has loaded the current position. -/
theorem Alone.pushExchange (h : Settled K s.queue) (hPc : s.pc t = .pushExchange val pos) :
    ∃ n ≤ 1, Alone K t s n := by
  by_cases hPos : s.queue.enqueuePos = pos
  · subst hPos
    exact ⟨0, by omega, .pushExchange_current hPc⟩
  · exact ⟨1, le_rfl, .within (by rw [hPc]; rfl) (next_of_pushStep hPc
      (if_neg (fun hTest => hPos hTest.1))) (.pushSequence_current h (s.goto_pc_self ..))⟩

/-- A sequence number ahead of the position means that the position is stale. -/
theorem Alone.pushSequence (h : Settled K s.queue) (hPc : s.pc t = .pushSequence val pos) :
    ∃ n ≤ 2, Alone K t s n := by
  rcases Int.lt_trichotomy (K.diff (s.queue.slots (K.index pos)).sequence pos)
    0 with hNeg | hZero | hPos
  · exact ⟨1, by omega, .pushFull hPc hNeg⟩
  · obtain ⟨n, hn, hAlone⟩ := Alone.pushExchange (s := s.goto t (.pushExchange val pos) s.queue) h
      (s.goto_pc_self ..)
    exact ⟨n + 1, by omega, .iterate (by rw [hPc]; rfl) (next_of_pushStep hPc
      (if_pos hZero)) hAlone⟩
  · have hStep : pushStep K s t false (.pushSequence val pos) =
        some (s.goto t (.pushLoad val) s.queue, []) :=
      (if_neg hPos.ne').trans (if_neg hPos.asymm)
    exact ⟨2, le_rfl, .iterate (by rw [hPc]; rfl) (next_of_pushStep hPc hStep)
      (.pushLoad h (s.goto_pc_self ..))⟩

end Push

section Pop

variable {K : SizeT κ C} {s : State τ κ α C} {t : τ} {pos : κ} {data : Option α}

theorem next_of_popStep {pc : Pc κ α} {r : State τ κ α C × List (Event τ κ α)} (hPc : s.pc t = pc)
    (hPop : pushStep K s t false pc = none) (h : popStep K s t false pc = some r) :
    next K s (t, .step false) = some r := by
  rw [next, hPc, hPop, h]
  rfl

theorem Alone.popStore (hPc : s.pc t = .popStore pos data) : Alone K t s 0 :=
  .within (by rw [hPc]; rfl) (next_of_popStep hPc rfl rfl) (.returned (s.goto_pc_self ..))

theorem Alone.popMove (hPc : s.pc t = .popMove pos) : Alone K t s 0 :=
  .within (by rw [hPc]; rfl) (next_of_popStep hPc rfl rfl) (.popStore (s.goto_pc_self ..))

theorem Alone.popExchange_current (hPc : s.pc t = .popExchange s.queue.dequeuePos) :
    Alone K t s 0 :=
  .within (by rw [hPc]; rfl) (next_of_popStep hPc rfl (if_pos ⟨rfl, rfl⟩))
    (.popMove (s.goto_pc_self ..))

theorem Alone.popEmpty (hPc : s.pc t = .popSequence pos)
    (hDiff : K.diff (s.queue.slots (K.index pos)).sequence (K.add pos 1) < 0) : Alone K t s 1 := by
  have hStep : popStep K s t false (.popSequence pos) = some (s.goto t .idle s.queue, [.popEmpty t])
      :=
    (if_neg hDiff.ne).trans (if_pos hDiff)
  exact .iterate (by rw [hPc]; rfl) (next_of_popStep hPc rfl hStep) (.returned (s.goto_pc_self ..))

/-- With the current position the slot is full or the queue is empty. -/
theorem Alone.popSequence_current (h : Settled K s.queue)
    (hPc : s.pc t = .popSequence s.queue.dequeuePos) : Alone K t s 1 := by
  rcases Int.le_iff_eq_or_lt.mp h.pop_le with hZero | hNeg
  · exact .iterate (by rw [hPc]; rfl) (next_of_popStep hPc rfl (if_pos hZero))
      (.popExchange_current (s.goto_pc_self ..))
  · exact .popEmpty hPc hNeg

theorem Alone.popLoad (h : Settled K s.queue) (hPc : s.pc t = .popLoad) : Alone K t s 1 :=
  .within (by rw [hPc]; rfl) (next_of_popStep hPc rfl rfl)
  (.popSequence_current h (s.goto_pc_self ..))

theorem Alone.popExchange (h : Settled K s.queue) (hPc : s.pc t = .popExchange pos) :
    ∃ n ≤ 1, Alone K t s n := by
  by_cases hPos : s.queue.dequeuePos = pos
  · subst hPos
    exact ⟨0, by omega, .popExchange_current hPc⟩
  · exact ⟨1, le_rfl, .within (by rw [hPc]; rfl) (next_of_popStep hPc rfl
      (if_neg (fun hTest => hPos hTest.1))) (.popSequence_current h (s.goto_pc_self ..))⟩

theorem Alone.popSequence (h : Settled K s.queue) (hPc : s.pc t = .popSequence pos) :
    ∃ n ≤ 2, Alone K t s n := by
  rcases Int.lt_trichotomy (K.diff (s.queue.slots (K.index pos)).sequence (K.add pos 1)) 0 with
    hNeg | hZero | hPos
  · exact ⟨1, by omega, .popEmpty hPc hNeg⟩
  · obtain ⟨n, hn, hAlone⟩ := Alone.popExchange (s := s.goto t (.popExchange pos) s.queue) h
      (s.goto_pc_self ..)
    exact ⟨n + 1, by omega, .iterate (by rw [hPc]; rfl) (next_of_popStep hPc rfl
      (if_pos hZero)) hAlone⟩
  · have hStep : popStep K s t false (.popSequence pos) = some (s.goto t .popLoad s.queue, []) :=
      (if_neg hPos.ne').trans (if_neg hPos.asymm)
    exact ⟨2, le_rfl, .iterate (by rw [hPc]; rfl) (next_of_popStep hPc rfl hStep)
      (.popLoad h (s.goto_pc_self ..))⟩

end Pop

/-- Wherever a thread stands, alone it returns after at most two more iterations. -/
theorem Settled.alone {K : SizeT κ C} {s : State τ κ α C} (h : Settled K s.queue) (t : τ) :
    ∃ n ≤ 2, Alone K t s n := by
  cases hPc : s.pc t with
  | idle => exact ⟨0, by omega, .returned hPc⟩
  | pushLoad => exact ⟨1, by omega, .pushLoad h hPc⟩
  | pushSequence => exact Alone.pushSequence h hPc
  | pushExchange =>
    obtain ⟨n, hn, hAlone⟩ := Alone.pushExchange h hPc
    exact ⟨n, by omega, hAlone⟩
  | pushMove => exact ⟨0, by omega, .pushMove hPc⟩
  | pushStore => exact ⟨0, by omega, .pushStore hPc⟩
  | popLoad => exact ⟨1, by omega, .popLoad h hPc⟩
  | popSequence => exact Alone.popSequence h hPc
  | popExchange =>
    obtain ⟨n, hn, hAlone⟩ := Alone.popExchange h hPc
    exact ⟨n, by omega, hAlone⟩
  | popMove => exact ⟨0, by omega, .popMove hPc⟩
  | popStore => exact ⟨0, by omega, .popStore hPc⟩

/-- From every state the threads can be stopped in, each of them returns when it goes on
alone, while fewer than `2 ^ (w - 1) - Capacity` positions have been claimed. With the
iteration it was stopped in, it takes part in at most three. -/
theorem returns_alone {w : Nat} {s : State τ (BitVec w) α C} {trace : List (Event τ (BitVec w) α)}
    (h : (machine τ α (.word C w)).Reaches s trace)
    (hBound : (pushes trace).length < 2 ^ (w - 1) - C.val) (t : τ) :
    ∃ n ≤ 2, Alone (.word C w) t s n := by
  obtain ⟨ideal, history, hReaches, rfl, rfl⟩ := reaches_unbounded h (by omega)
  rw [pushes_map, List.length_map] at hBound
  exact (inv_of_reaches hReaches).settled (by omega) |>.alone t

/-- A thread that has read the sequence number of a free slot and then lost the slot to
another thread's push. -/
theorem returns_alone_stale :
    ∃ (s : State Bool (BitVec 64) Nat ⟨2, by decide, by decide⟩) (trace : _),
      (machine Bool Nat (.word ⟨2, by decide, by decide⟩ 64)).Reaches s trace ∧
      (pushes trace).length = 1 ∧ (s.pc true).position? = some 0 ∧ s.queue.enqueuePos = 1 ∧
      ∃ n ≤ 2, Alone (.word ⟨2, by decide, by decide⟩ 64) true s n := by
  let labels : List (Bool × Action Nat) :=
    [(true, .push 9), (true, .step false), (true, .step false), (false, .push 7),
      (false, .step false), (false, .step false), (false, .step false)]
  have hRun : ((machine Bool Nat (.word ⟨2, by decide, by decide⟩ 64)).run
      (machine Bool Nat (.word ⟨2, by decide, by decide⟩ 64)).start labels).map (fun r =>
        ((pushes r.2).length, (r.1.pc true).position?, r.1.queue.enqueuePos)) =
        some (1, some 0, 1) := by
    decide +kernel
  obtain ⟨⟨s, trace⟩, hRun, hEq⟩ := Option.map_eq_some_iff.mp hRun
  obtain ⟨hLength, hRest⟩ := Prod.mk.inj hEq
  obtain ⟨hPosition, hEnqueue⟩ := Prod.mk.inj hRest
  have hReaches := Machine.Reaches.start.run hRun
  exact ⟨s, trace, hReaches, hLength, hPosition, hEnqueue, returns_alone hReaches
    (hLength.trans_lt (by decide)) true⟩

end Tinycoro.Mpmc
