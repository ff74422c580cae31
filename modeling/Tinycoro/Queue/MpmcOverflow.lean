import Tinycoro.Library.SignedWord
import Tinycoro.Queue.MpmcAnswers
import Tinycoro.Queue.MpmcProgress

/-! The comparison of a sequence number with a position at the limits of the word. The
source converts both counters to `ptrdiff_t` and then subtracts. The two are at most a lap
of the ring apart, but the conversion tears them apart where the sign bit turns on between
them: there the subtraction overflows, first in a `pop` of an empty queue whose position
is the largest `ptrdiff_t`. -/
namespace Tinycoro.Mpmc

open Transition

variable {τ κ α : Type} {C : Ring.Size}

/-- What `push` subtracts at a position: `seq` and `pos`. -/
def pushOperands (K : SizeT κ C) (queue : MPMCQueue κ α C) (pos : κ) : κ × κ :=
  ((queue.slots (K.index pos)).sequence, pos)

/-- What `pop` subtracts at a position: `seq` and `pos + 1`. -/
def popOperands (K : SizeT κ C) (queue : MPMCQueue κ α C) (pos : κ) : κ × κ :=
  ((queue.slots (K.index pos)).sequence, K.add pos 1)

/-- Both counters are in one lap of the signed reading. -/
def SameLap (w : Nat) (counters : Nat × Nat) : Prop :=
  SignedWord.lap w counters.1 = SignedWord.lap w counters.2

instance (w : Nat) (counters : Nat × Nat) : Decidable (SameLap w counters) :=
  inferInstanceAs (Decidable (_ = _))

/-- The subtraction of the words does not overflow and has the sign of the difference of
the counters they stand for. -/
def SubtractsAs {w : Nat} (words : BitVec w × BitVec w) (counters : Nat × Nat) : Prop :=
  SignedWord.Faithful words.1 words.2 counters.1 counters.2

variable {w : Nat}

/-- A ring that is no larger than the word finds its index in the residue. -/
theorem index_ofNat (h : C.val ≤ 2 ^ w) (pos : Nat) :
    (SizeT.word C w).index (BitVec.ofNat w pos) = C.index pos := by
  obtain ⟨k, hk⟩ := Ring.exists_two_pow (Nat.lt_of_lt_of_le (by decide) C.two_le) C.power
  have hDvd : C.val ∣ 2 ^ w := by
    rw [hk] at h ⊢
    exact Nat.pow_dvd_pow 2 ((Nat.pow_le_pow_iff_right (by decide)).mp h)
  change C.index (BitVec.ofNat w pos).toNat = _
  rw [BitVec.toNat_ofNat, Ring.Size.index_eq_iff, Nat.mod_mod_of_dvd _ hDvd]

theorem pushOperands_map (h : C.val ≤ 2 ^ w) (s : State τ Nat α C) (pos : Nat) :
    pushOperands (.word C w) (s.map (BitVec.ofNat w)).queue (BitVec.ofNat w pos) =
      (BitVec.ofNat w (s.sequenceAt pos), BitVec.ofNat w pos) := by
  rw [pushOperands, index_ofNat h]
  rfl

theorem popOperands_map (h : C.val ≤ 2 ^ w) (s : State τ Nat α C) (pos : Nat) :
    popOperands (.word C w) (s.map (BitVec.ofNat w)).queue (BitVec.ofNat w pos) =
      (BitVec.ofNat w (s.sequenceAt pos), BitVec.ofNat w (pos + 1)) := by
  rw [popOperands, index_ofNat h, word_add]
  rfl

section Distance

variable {s : State τ Nat α C} {trace : List (Event τ Nat α)}

/-- The slot of the next push is at most a lap behind it. -/
theorem Inv.enqueue_le_sequence (inv : Inv s trace) :
    s.queue.enqueuePos ≤ s.sequenceAt s.queue.enqueuePos + C.val := by
  obtain ⟨q, hIndex, hCell⟩ := inv.cell (C.index s.queue.enqueuePos)
  rw [← s.sequenceAt_congr hIndex]
  have hLatest := hCell.latest
  rcases hCell.stage.sequence with hSeq | hSeq <;> omega

/-- So is the slot of the next pop. It can be a whole lap behind only while the pop of
that lap has not released it. -/
theorem Inv.dequeue_le_sequence (inv : Inv s trace) :
    s.queue.dequeuePos + 1 ≤ s.sequenceAt s.queue.dequeuePos + C.val := by
  obtain ⟨q, hIndex, hCell⟩ := inv.cell (C.index s.queue.dequeuePos)
  rw [← s.sequenceAt_congr hIndex]
  have hLatest := hCell.latest
  have hOrder := inv.dequeue_le
  have hTwo := C.two_le
  cases hCell.stage with
  | free => omega
  | filling => omega
  | full => omega
  | emptying => omega

/-- With all threads outside, the slot of the next push is free where the queue is not
full. -/
theorem Inv.free_of_idle (inv : Inv s trace) (hIdle : ∀ u, s.pc u = .idle)
    (hEmpty : s.queue.dequeuePos = s.queue.enqueuePos) :
    s.sequenceAt s.queue.enqueuePos = s.queue.enqueuePos := by
  by_contra hNe
  have hLt := Nat.lt_of_le_of_ne inv.sequence_enqueue_le hNe
  have hLap := inv.full_of_lt (Nat.le_refl _) hLt (fun u p hPopping => by
    rw [hIdle u] at hPopping
    exact not_owns_of_outside rfl p (.inr hPopping))
  have hTwo := C.two_le
  omega

/-- With all threads outside, the slot of the next pop is full where the queue is not
empty. -/
theorem Inv.full_of_idle (inv : Inv s trace) (hIdle : ∀ u, s.pc u = .idle)
    (hLive : s.queue.dequeuePos < s.queue.enqueuePos) :
    s.sequenceAt s.queue.dequeuePos = s.queue.dequeuePos + 1 := by
  by_contra hNe
  have hLt := Nat.lt_of_le_of_ne inv.sequence_dequeue_le hNe
  have hEmpty := inv.empty_of_lt (Nat.le_refl _) hLt (fun u p hPushing => by
    rw [hIdle u] at hPushing
    exact not_owns_of_outside rfl p (.inl hPushing))
  omega

end Distance

theorem two_pow_of_le (h : C.val ≤ 2 ^ (w - 2)) : 0 < w ∧ C.val ≤ 2 ^ (w - 1) ∧ C.val ≤ 2 ^ w := by
  have hTwo := C.two_le
  have hHalf : 2 ^ (w - 2) ≤ 2 ^ (w - 1) := Nat.pow_le_pow_right (by decide) (by omega)
  have hWhole : 2 ^ (w - 1) ≤ 2 ^ w := Nat.pow_le_pow_right (by decide) (by omega)
  refine ⟨Nat.pos_of_ne_zero ?_, by omega, by omega⟩
  rintro rfl
  simp only [Nat.zero_sub, Nat.pow_zero] at h
  omega

/-- However many positions have been passed, a thread that holds the current position
subtracts correctly exactly where the sequence number and the position are in one lap of
the signed reading. -/
theorem subtractsAs_iff_sameLap [DecidableEq τ] {w : Nat} {s : State τ Nat α C}
    {trace : List (Event τ Nat α)} (h : (machine τ α (.unbounded C)).Reaches s trace)
    (hCapacity : C.val ≤ 2 ^ (w - 2)) (t : τ) :
    (∀ {val}, s.pc t = .pushSequence val s.queue.enqueuePos →
      (SubtractsAs
          (pushOperands (.word C w) (s.map (BitVec.ofNat w)).queue
          (BitVec.ofNat w s.queue.enqueuePos))
          (pushOperands (.unbounded C) s.queue s.queue.enqueuePos) ↔
        SameLap w (pushOperands (.unbounded C) s.queue s.queue.enqueuePos))) ∧
    (s.pc t = .popSequence s.queue.dequeuePos →
      (SubtractsAs
          (popOperands (.word C w) (s.map (BitVec.ofNat w)).queue
          (BitVec.ofNat w s.queue.dequeuePos))
          (popOperands (.unbounded C) s.queue s.queue.dequeuePos) ↔
        SameLap w (popOperands (.unbounded C) s.queue s.queue.dequeuePos))) := by
  have inv : Inv s trace := inv_of_reaches h
  obtain ⟨hw, hHalf, hWhole⟩ := two_pow_of_le hCapacity
  constructor
  · intro val hPc
    rw [pushOperands_map hWhole]
    exact SignedWord.faithful_iff hw inv.sequence_enqueue_le
      (inv.enqueue_le_sequence.trans (by omega))
  · intro hPc
    rw [popOperands_map hWhole]
    exact SignedWord.faithful_iff hw inv.sequence_dequeue_le
      (inv.dequeue_le_sequence.trans (by omega))

/-- The first push of a queue of two slots. -/
theorem subtractsAs_iff_sameLap_first_push :
    ∃ (s : State Unit Nat Nat ⟨2, by decide, by decide⟩) (trace : _),
      (machine Unit Nat (.unbounded ⟨2, by decide, by decide⟩)).Reaches s trace ∧
      s.pc () = .pushSequence 7 s.queue.enqueuePos ∧
      SubtractsAs
        (pushOperands (.word _ 64) (s.map (BitVec.ofNat 64)).queue
        (BitVec.ofNat 64 s.queue.enqueuePos))
        (pushOperands (.unbounded _) s.queue s.queue.enqueuePos) := by
  let M := machine Unit Nat (.unbounded ⟨2, by decide, by decide⟩)
  have hReaches := (Machine.Reaches.start (M := M)).run
    (show M.run M.start [((), .push 7), ((), .step false)] = some _ from rfl)
  exact ⟨_, _, hReaches, rfl, ((subtractsAs_iff_sameLap hReaches (by decide) ()).1 rfl).mpr
    (by decide)⟩

/-- The operands of the thread's next test are equal, or it makes none. -/
def Even (s : State τ Nat α C) : Pc Nat α → Prop
  | .pushSequence _ pos => s.sequenceAt pos = pos
  | .pushExchange _ pos => s.queue.enqueuePos = pos
  | .popSequence pos => s.sequenceAt pos = pos + 1
  | .popExchange pos => s.queue.dequeuePos = pos
  | _ => True

/-- Equal operands are equal as words, whatever their size. -/
theorem agrees_of_even {s : State τ Nat α C} {t : τ} {pc : Pc Nat α} (hCapacity : C.val ≤ 2 ^ w)
    (hPc : s.pc t = pc) (h : Even s pc) : Agrees w s t := by
  have hDiff (n : Nat) : (SizeT.word C w).diff (BitVec.ofNat w n) (BitVec.ofNat w n) =
      (SizeT.unbounded C).diff n n := by
    simp [SizeT.word, SizeT.unbounded]
  subst hPc
  constructor
  · intro pos hPos
    exact index_ofNat hCapacity pos
  · intro val pos hPc
    rw [hPc] at h
    rw [show s.sequenceAt pos = pos from h, hDiff]
  · intro val pos hPc
    rw [hPc] at h
    rw [show s.sequenceAt pos = pos from h, hDiff]
  · intro val pos hPc
    rw [hPc] at h
    rw [show s.queue.enqueuePos = pos from h]
    exact ⟨fun _ => rfl, fun _ => rfl⟩
  · intro pos hPc
    rw [hPc] at h
    rw [show s.sequenceAt pos = pos + 1 from h, hDiff]
  · intro pos hPc
    rw [hPc] at h
    rw [show s.sequenceAt pos = pos + 1 from h, hDiff]
  · intro pos hPc
    rw [hPc] at h
    rw [show s.queue.dequeuePos = pos from h]
    exact ⟨fun _ => rfl, fun _ => rfl⟩

section Rounds

variable [DecidableEq τ] {w : Nat} {s s' : State τ Nat α C} {trace : List (Event τ Nat α)} {t : τ}

/-- The word machine is where the unbounded machine is. -/
structure Lockstep (w : Nat) (s : State τ Nat α C) (trace : List (Event τ Nat α)) : Prop where
  ideal : (machine τ α (.unbounded C)).Reaches s trace
  word : (machine τ α (.word C w)).Reaches (s.map (BitVec.ofNat w))
    (trace.map (Event.map (BitVec.ofNat w)))

theorem Lockstep.start : Lockstep w (machine τ α (.unbounded C)).start [] := ⟨.start, .start⟩

theorem Lockstep.step {action : Action α} {events : List (Event τ Nat α)} (h : Lockstep w s trace)
    (hAgrees : Agrees w s t) (hNext : next (.unbounded C) s (t, action) = some (s', events)) :
    Lockstep w s' (trace ++ events) := by
  refine ⟨h.ideal.step hNext, ?_⟩
  rw [List.map_append]
  apply h.word.step (a := (t, action))
  change next _ _ _ = _
  rw [next_word_of_agrees hAgrees, hNext]
  rfl

theorem Lockstep.pushStep {pc : Pc Nat α} {r : State τ Nat α C × List (Event τ Nat α)}
    (h : Lockstep w s trace) (hCapacity : C.val ≤ 2 ^ w) (hPc : s.pc t = pc) (hEven : Even s pc)
    (hStep : Mpmc.pushStep (.unbounded C) s t false pc = some r) : Lockstep w r.1 (trace ++ r.2) :=
  h.step (agrees_of_even hCapacity hPc hEven) (next_of_pushStep hPc hStep)

theorem Lockstep.popStep {pc : Pc Nat α} {r : State τ Nat α C × List (Event τ Nat α)}
    (h : Lockstep w s trace) (hCapacity : C.val ≤ 2 ^ w) (hPc : s.pc t = pc) (hEven : Even s pc)
    (hPop : Mpmc.pushStep (.unbounded C) s t false pc = none)
    (hStep : Mpmc.popStep (.unbounded C) s t false pc = some r) : Lockstep w r.1 (trace ++ r.2) :=
  h.step (agrees_of_even hCapacity hPc hEven) (next_of_popStep hPc hPop hStep)

/-- A push by one thread while the others are outside and its slot is free. -/
theorem Lockstep.push (h : Lockstep w s trace) (hCapacity : C.val ≤ 2 ^ w)
    (hIdle : ∀ u, s.pc u = .idle) (hFree : s.sequenceAt s.queue.enqueuePos = s.queue.enqueuePos)
    (t : τ) (val : α) :
    ∃ (s' : State τ Nat α C) (trace' : _), Lockstep w s' trace' ∧ (∀ u, s'.pc u = .idle) ∧
      s'.queue.enqueuePos = s.queue.enqueuePos + 1 ∧ s'.queue.dequeuePos = s.queue.dequeuePos := by
  have hCall : next (.unbounded C) s (t, .push val) = some (s.goto t (.pushLoad val) s.queue,
      []) := by
    simp only [next, hIdle t]
  have hZero : (SizeT.unbounded C).diff (s.sequenceAt s.queue.enqueuePos) s.queue.enqueuePos =
      0 := by
    rw [hFree]
    exact Int.sub_self _
  have hLoad := h.step (agrees_of_even hCapacity (hIdle t) trivial) hCall
  have hSequence := hLoad.pushStep hCapacity (State.goto_pc_self ..) trivial rfl
  have hExchange := hSequence.pushStep hCapacity (State.goto_pc_self ..) hFree (if_pos hZero)
  have hMove := hExchange.pushStep hCapacity (State.goto_pc_self ..) rfl (if_pos ⟨rfl, rfl⟩)
  have hStore := hMove.pushStep hCapacity (State.goto_pc_self ..) trivial rfl
  have hReturn := hStore.pushStep hCapacity (State.goto_pc_self ..) trivial rfl
  refine ⟨_, _, hReturn, ?_, rfl, rfl⟩
  intro u
  by_cases hu : u = t
  · rw [hu, State.goto_pc_self]
  · simp only [State.goto_pc_of_ne _ hu, hIdle]

/-- A pop by one thread while the others are outside and its slot is full. -/
theorem Lockstep.pop (h : Lockstep w s trace) (hCapacity : C.val ≤ 2 ^ w)
    (hIdle : ∀ u, s.pc u = .idle) (hFull : s.sequenceAt s.queue.dequeuePos = s.queue.dequeuePos + 1)
    (t : τ) :
    ∃ (s' : State τ Nat α C) (trace' : _), Lockstep w s' trace' ∧ (∀ u, s'.pc u = .idle) ∧
      s'.queue.enqueuePos = s.queue.enqueuePos ∧ s'.queue.dequeuePos = s.queue.dequeuePos + 1 := by
  have hCall : next (.unbounded C) s (t, .pop) = some (s.goto t .popLoad s.queue, []) := by
    simp only [next, hIdle t]
  have hZero : (SizeT.unbounded C).diff (s.sequenceAt s.queue.dequeuePos) (s.queue.dequeuePos + 1) =
      0 := by
    rw [hFull]
    exact Int.sub_self _
  have hLoad := h.step (agrees_of_even hCapacity (hIdle t) trivial) hCall
  have hSequence := hLoad.popStep hCapacity (State.goto_pc_self ..) trivial rfl rfl
  have hExchange := hSequence.popStep hCapacity (State.goto_pc_self ..) hFull rfl (if_pos hZero)
  have hMove := hExchange.popStep hCapacity (State.goto_pc_self ..) rfl rfl (if_pos ⟨rfl, rfl⟩)
  have hStore := hMove.popStep hCapacity (State.goto_pc_self ..) trivial rfl rfl
  have hReturn := hStore.popStep hCapacity (State.goto_pc_self ..) trivial rfl rfl
  refine ⟨_, _, hReturn, ?_, rfl, rfl⟩
  intro u
  by_cases hu : u = t
  · rw [hu, State.goto_pc_self]
  · simp only [State.goto_pc_of_ne _ hu, hIdle]

/-- A thread that pushes and pops in turn takes the queue to every position. Its tests
compare equal operands, so the word machine follows through all limits of the word. -/
theorem exists_lockstep (hCapacity : C.val ≤ 2 ^ w) (t : τ) (val : α) (n : Nat) :
    ∃ (s : State τ Nat α C) (trace : _), Lockstep w s trace ∧ (∀ u, s.pc u = .idle) ∧
      s.queue.enqueuePos = n ∧ s.queue.dequeuePos = n := by
  induction n with
  | zero => exact ⟨_, _, .start, fun _ => rfl, rfl, rfl⟩
  | succ n ih =>
    obtain ⟨s, trace, h, hIdle, hEnqueue, hDequeue⟩ := ih
    have hFree := (inv_of_reaches h.ideal).free_of_idle hIdle (by omega)
    obtain ⟨s', trace', h', hIdle', hEnqueue', hDequeue'⟩ := h.push hCapacity hIdle hFree t val
    have hFull := (inv_of_reaches h'.ideal).full_of_idle hIdle' (by omega)
    obtain ⟨s'', trace'', h'', hIdle'', hEnqueue'', hDequeue''⟩ := h'.pop hCapacity hIdle' hFull t
    exact ⟨s'', trace'', h'', hIdle'', by omega, by omega⟩

/-- The word machine reaches a pop whose position is current, where the words are not
subtracted as the counters are. -/
def OverflowReached (w : Nat) (C : Ring.Size) : Prop :=
  ∃ (s : State Unit Nat Unit C) (trace : List (Event Unit Nat Unit)),
    (machine Unit Unit (.unbounded C)).Reaches s trace ∧
    (machine Unit Unit (.word C w)).Reaches (s.map (BitVec.ofNat w))
      (trace.map (Event.map (BitVec.ofNat w))) ∧
    s.pc () = .popSequence s.queue.dequeuePos ∧ s.queue.dequeuePos = 2 ^ (w - 1) - 1 ∧
    ¬SubtractsAs (popOperands (.word C w) (s.map (BitVec.ofNat w)).queue
      (BitVec.ofNat w s.queue.dequeuePos)) (popOperands (.unbounded C) s.queue s.queue.dequeuePos)

theorem overflowReached (hCapacity : C.val ≤ 2 ^ (w - 2)) : OverflowReached w C := by
  obtain ⟨hw, hHalf, hWhole⟩ := two_pow_of_le hCapacity
  obtain ⟨s, trace, h, hIdle, hEnqueue, hDequeue⟩ :=
    exists_lockstep (C := C) (τ := Unit) hWhole () () (2 ^ (w - 1) - 1)
  have hFree := (inv_of_reaches h.ideal).free_of_idle hIdle (by omega)
  have hCall : next (.unbounded C) s ((), .pop) = some (s.goto () .popLoad s.queue, []) := by
    simp only [next, hIdle ()]
  have hLoad := h.step (agrees_of_even hWhole (hIdle ()) trivial) hCall
  have hSequence := hLoad.popStep hWhole (State.goto_pc_self ..) trivial rfl rfl
  refine ⟨_, _, hSequence.ideal, hSequence.word, State.goto_pc_self .., hDequeue, ?_⟩
  rw [popOperands_map hWhole]
  intro hAs
  have hOverflow := SignedWord.overflow_of_lap_ne hw (Nat.le_succ _)
    (Nat.add_le_add_left Nat.one_le_two_pow _) (SignedWord.lap_ne_of_half hw)
  have hSeq : s.sequenceAt (2 ^ (w - 1) - 1) = 2 ^ (w - 1) - 1 := by rwa [hEnqueue] at hFree
  have hFits : (BitVec.ofNat w (s.sequenceAt s.queue.dequeuePos)).ssubOverflow
      (BitVec.ofNat w (s.queue.dequeuePos + 1)) = false := hAs.fits
  rw [hDequeue, hSeq, hOverflow] at hFits
  cases hFits

/-- With 32 and with 64 bits, in a queue of two slots. -/
theorem overflow_of_empty_pop :
    OverflowReached 32 ⟨2, by decide, by decide⟩ ∧ OverflowReached 64 ⟨2, by decide, by decide⟩ :=
  ⟨overflowReached (by decide), overflowReached (by decide)⟩

end Rounds

end Tinycoro.Mpmc
