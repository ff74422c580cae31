import Tinycoro.Queue.MpmcWord

/-! What a call that returns false has seen. It compares a position it loaded earlier
with a sequence number that other threads move by whole laps. The comparison fails for
a position that is no longer current, so the answer is about the counters of the very
moment the sequence number is loaded. -/
namespace Tinycoro.Mpmc

open Transition

variable {τ κ α : Type} {C : Ring.Size}

/-- The positions claimed by pushes, in order. -/
def claimed (trace : List (Event τ κ α)) : List κ := (pushes trace).map (fun claim => claim.2.1)

/-- The positions whose slots pops have given back. -/
def released (trace : List (Event τ κ α)) : List κ := (delivered trace).map (fun call => call.2.1)

/-- The positions that are claimed and not yet released. -/
def unreleased [DecidableEq κ] (trace : List (Event τ κ α)) : List κ :=
  (claimed trace).filter (fun pos => pos ∉ released trace)

theorem claimed_map {μ : Type} (f : κ → μ) (trace : List (Event τ κ α)) :
    claimed (trace.map (Event.map f)) = (claimed trace).map f := by
  rw [claimed, pushes_map, List.map_map, claimed, List.map_map]
  rfl

theorem released_map {μ : Type} (f : κ → μ) (trace : List (Event τ κ α)) :
    released (trace.map (Event.map f)) = (released trace).map f := by
  rw [released, delivered_map, List.map_map, released, List.map_map]
  rfl

section Ideal

variable {s s' : State τ Nat α C} {trace : List (Event τ Nat α)} {t : τ} {pos : Nat}

/-- The slot of a push that has fallen behind is at its position or past it. -/
theorem Inv.le_sequence_of_claimed (inv : Inv s trace) (h : pos < s.queue.enqueuePos) :
    pos ≤ s.sequenceAt pos := by
  obtain ⟨q, hIndex, hCell, hLe⟩ := inv.le_cell h
  rw [← s.sequenceAt_congr hIndex]
  rcases hCell.stage.sequence with hSeq | hSeq <;> omega

/-- A pop that finds its slot not filled has the current position, and either a push
is filling that slot or there is nothing to pop. -/
theorem Inv.empty_of_lt (inv : Inv s trace) (hPos : pos ≤ s.queue.dequeuePos)
    (hDiff : s.sequenceAt pos < pos + 1) (hNone : ∀ u p, ¬Pushing (s.pc u) p) :
    s.queue.dequeuePos = s.queue.enqueuePos := by
  have hCurrent : pos = s.queue.dequeuePos := by
    by_contra hStale
    have hLt := inv.lt_sequence_of_popped (p := pos) (by omega)
    omega
  subst hCurrent
  by_contra hNe
  have hOrder := inv.dequeue_le
  have hCell := inv.cell_of_live (Nat.le_refl _) (show s.queue.dequeuePos <
      s.queue.enqueuePos by omega)
  cases hCell.stage with
  | free => omega
  | filling hPop hPush hSeq u hOwner => exact hNone u _ hOwner
  | full => omega
  | emptying => omega

/-- A push that finds its slot a lap behind has the current position, and either a
pop is emptying that slot or a whole lap is claimed and not popped. -/
theorem Inv.full_of_lt (inv : Inv s trace) (hPos : pos ≤ s.queue.enqueuePos)
    (hDiff : s.sequenceAt pos < pos) (hNone : ∀ u p, ¬Popping (s.pc u) p) :
    s.queue.enqueuePos = s.queue.dequeuePos + C.val := by
  have hCurrent : pos = s.queue.enqueuePos := by
    by_contra hStale
    have hLess : pos < s.queue.enqueuePos := by omega
    have hLe := inv.le_sequence_of_claimed hLess
    omega
  subst hCurrent
  obtain ⟨q, hIndex, hCell⟩ := inv.cell (C.index s.queue.enqueuePos)
  rw [← s.sequenceAt_congr hIndex] at hDiff
  have hBehind : q < s.queue.enqueuePos := by
    rcases hCell.stage.sequence with hSeq | hSeq <;> omega
  have hLap := Ring.Size.lap_le_of_index_eq hIndex hBehind
  have hLatest := hCell.latest
  have hEnqueue := inv.enqueue_le
  cases hCell.stage with
  | free => omega
  | filling => omega
  | full => omega
  | emptying hPop hSeq u hOwner => exact absurd hOwner (hNone u q)

/-- Where no pop is under way, what is not released is what is not popped. -/
theorem Inv.length_unreleased (inv : Inv s trace) (hNone : ∀ u p, ¬Popping (s.pc u) p) :
    (unreleased trace).length = s.queue.enqueuePos - s.queue.dequeuePos := by
  have hReleased {p : Nat} : p ∈ released trace ↔ p < s.queue.dequeuePos := by
    constructor
    · intro hMem
      obtain ⟨⟨u, p, data⟩, hDelivered, rfl⟩ := List.mem_map.mp hMem
      exact inv.lt_dequeue_of_pops (inv.delivered_ok hDelivered).1
    · intro hLt
      rcases inv.popped hLt with ⟨u, hPopping⟩ | ⟨u, data, hDelivered⟩
      · exact absurd hPopping (hNone u p)
      · exact List.mem_map.mpr ⟨_, hDelivered, rfl⟩
  have hClaimed : claimed trace = List.range s.queue.enqueuePos := inv.push_positions
  have hSplit : List.range s.queue.enqueuePos =
      List.range s.queue.dequeuePos ++ List.range' s.queue.dequeuePos
      (s.queue.enqueuePos - s.queue.dequeuePos) := by
    have hAppend := @List.range'_append_1 0 s.queue.dequeuePos
        (s.queue.enqueuePos - s.queue.dequeuePos)
    rw [Nat.zero_add, Nat.add_sub_cancel' inv.dequeue_le] at hAppend
    rw [List.range_eq_range', List.range_eq_range', hAppend]
  have hPopped : (List.range s.queue.dequeuePos).filter (fun p => p ∉ released trace) = [] := by
    rw [List.filter_eq_nil_iff]
    intro p hMem
    simpa [hReleased] using hMem
  have hLive : (List.range' s.queue.dequeuePos (s.queue.enqueuePos - s.queue.dequeuePos)).filter
      (fun p => p ∉ released trace) =
        List.range' s.queue.dequeuePos (s.queue.enqueuePos - s.queue.dequeuePos) := by
    rw [List.filter_eq_self]
    intro p hMem
    simpa [hReleased] using (List.mem_range'_1.mp hMem).1
  rw [unreleased, hClaimed, hSplit, List.filter_append, hPopped, hLive, List.nil_append,
    List.length_range']

end Ideal

/-- What the two refusals say of the moment of the last load, unless an operation of
the other kind is between its compare-exchange and its sequence store. -/
structure AnswersExact {w : Nat} (s : State τ (BitVec w) α C) (trace : List (Event τ (BitVec w) α))
    (t : τ) (events : List (Event τ (BitVec w) α)) : Prop where
  empty : .popEmpty t ∈ events → (∀ u p, ¬Pushing (s.pc u) p) →
    ∀ {u pos}, .pushReturned u pos ∈ trace → ∃ v, .popClaimed v pos ∈ trace
  full : .pushFull t ∈ events → (∀ u p, ¬Popping (s.pc u) p) → (unreleased trace).length = C.val

section Word

variable {w : Nat}

/-- Small positions are told apart by their words. -/
theorem length_unreleased_map {trace : List (Event τ Nat α)}
    (hClaimed : ∀ p ∈ claimed trace, p < 2 ^ (w - 1))
    (hReleased : ∀ p ∈ released trace, p < 2 ^ (w - 1)) :
    (unreleased (trace.map (Event.map (BitVec.ofNat w)))).length = (unreleased trace).length := by
  rw [unreleased, claimed_map, released_map, List.filter_map, List.length_map, unreleased]
  congr 1
  apply List.filter_congr
  intro p hp
  simp only [Function.comp_apply, List.mem_map, decide_eq_decide, not_iff_not]
  constructor
  · rintro ⟨q, hq, hEq⟩
    rwa [← (ofNat_inj (hReleased q hq) (hClaimed p hp)).mp hEq]
  · intro hMem
    exact ⟨p, hMem, rfl⟩

variable [DecidableEq τ]

theorem Step.of_popEmpty {K : SizeT κ C} {s s' : State τ κ α C} {t u : τ}
    {events : List (Event τ κ α)} (h : Step K s t s' events) (hMem : .popEmpty u ∈ events) :
    ∃ pos, s.pc t = .popSequence pos ∧
      K.diff (s.queue.slots (K.index pos)).sequence (K.add pos 1) < 0 := by
  cases h with
  | popEmpty hPc hDiff => exact ⟨_, hPc, hDiff⟩
  | _ => simp at hMem

theorem Step.of_pushFull {K : SizeT κ C} {s s' : State τ κ α C} {t u : τ}
    {events : List (Event τ κ α)} (h : Step K s t s' events) (hMem : .pushFull u ∈ events) :
    ∃ val pos, s.pc t = .pushSequence val pos ∧
      K.diff (s.queue.slots (K.index pos)).sequence pos < 0 := by
  cases h with
  | pushFull hPc hDiff => exact ⟨_, _, hPc, hDiff⟩
  | _ => simp at hMem

/-- Refusals are exact under every interleaving, while fewer than
`2 ^ (w - 1) - Capacity` positions have been claimed. -/
theorem answersExact_of_reaches {s s' : State τ (BitVec w) α C}
    {trace events : List (Event τ (BitVec w) α)} {t : τ} {action : Action α}
    (h : (machine τ α (.word C w)).Reaches s trace)
    (hBound : (pushes trace).length < 2 ^ (w - 1) - C.val)
    (hNext : next (.word C w) s (t, action) = some (s', events)) :
    AnswersExact s trace t events := by
  obtain ⟨ideal, history, hReaches, rfl, rfl⟩ := reaches_unbounded h (by omega)
  rw [pushes_map, List.length_map] at hBound
  have inv : Inv ideal history := inv_of_reaches hReaches
  have hBounded : Bounded w ideal := inv.bounded (by omega)
  rw [next_word hBounded] at hNext
  obtain ⟨⟨ideal', emitted⟩, hIdeal, hEq⟩ := Option.map_eq_some_iff.mp hNext
  cases hEq
  have hStep := step_of_next hIdeal
  have hClaimed : ∀ p ∈ claimed history, p < 2 ^ (w - 1) := by
    intro p hMem
    obtain ⟨claim, hClaim, rfl⟩ := List.mem_map.mp hMem
    exact (inv.push_lt hClaim).trans hBounded.enqueue_lt
  constructor
  · intro hMem hNone u pos hPushed
    have hEmpty : .popEmpty t ∈ emitted := by
      obtain ⟨e, he, hEq⟩ := List.mem_map.mp hMem
      cases e <;> cases hEq
      exact he
    obtain ⟨own, hPc, hDiff⟩ := hStep.of_popEmpty hEmpty
    have hKnown := inv.thread t
    rw [hPc] at hKnown
    have hSeq : ideal.sequenceAt own < own + 1 := by
      have hInt : ((ideal.sequenceAt own : Nat) : Int) - ((own + 1 : Nat) : Int) < 0 := hDiff
      omega
    have hAll := inv.empty_of_lt hKnown hSeq (fun v p hPushing => by
      refine hNone v (BitVec.ofNat w p) ?_
      change Pushing ((ideal.pc v).map _) _
      rcases hPushing with ⟨val, hEq⟩ | hEq
      · exact .inl ⟨val, by rw [hEq]; rfl⟩
      · exact .inr (by rw [hEq]; rfl))
    rw [← mem_accepted, accepted_map] at hPushed
    obtain ⟨⟨u, p⟩, hAccepted, hEq⟩ := List.mem_map.mp hPushed
    cases hEq
    obtain ⟨⟨val, hClaim⟩, -⟩ := inv.accepted_ok hAccepted
    have hLt := inv.lt_enqueue_of_pushes hClaim
    rw [← hAll, ← List.mem_range, ← inv.pop_positions] at hLt
    obtain ⟨⟨v, p⟩, hPop, rfl⟩ := List.mem_map.mp hLt
    refine ⟨v, ?_⟩
    rw [← mem_pops, pops_map]
    exact List.mem_map.mpr ⟨_, hPop, rfl⟩
  · intro hMem hNone
    have hFull : .pushFull t ∈ emitted := by
      obtain ⟨e, he, hEq⟩ := List.mem_map.mp hMem
      cases e <;> cases hEq
      exact he
    obtain ⟨val, own, hPc, hDiff⟩ := hStep.of_pushFull hFull
    have hKnown := inv.thread t
    rw [hPc] at hKnown
    have hSeq : ideal.sequenceAt own < own := by
      have hInt : ((ideal.sequenceAt own : Nat) : Int) - (own : Int) < 0 := hDiff
      omega
    have hQuiet (v : τ) (p : Nat) : ¬Popping (ideal.pc v) p := by
      intro hPopping
      refine hNone v (BitVec.ofNat w p) ?_
      change Popping ((ideal.pc v).map _) _
      rcases hPopping with hEq | ⟨data, hEq⟩
      · exact .inl (by rw [hEq]; rfl)
      · exact .inr ⟨data, by rw [hEq]; rfl⟩
    have hLap := inv.full_of_lt hKnown hSeq hQuiet
    rw [length_unreleased_map hClaimed, inv.length_unreleased hQuiet]
    · omega
    · intro p hMem
      obtain ⟨⟨v, p, data⟩, hDelivered, rfl⟩ := List.mem_map.mp hMem
      have hLt := inv.lt_dequeue_of_pops (inv.delivered_ok hDelivered).1
      exact hLt.trans hBounded.dequeue_lt

/-- A queue of two slots refuses a third value while nobody pops. -/
theorem answersExact_of_reaches_full :
    ∃ (s : State Bool (BitVec 64) Nat ⟨2, by decide, by decide⟩) (trace : _) (s' : _) (events : _),
      (machine Bool Nat (.word ⟨2, by decide, by decide⟩ 64)).Reaches s trace ∧
      next (.word ⟨2, by decide, by decide⟩ 64) s (true, .step false) = some (s', events) ∧
      events = [.pushFull true] ∧ AnswersExact s trace true events := by
  let labels : List (Bool × Action Nat) :=
    [(false, .push 7), (false, .step false), (false, .step false), (false, .step false),
      (false, .step false), (false, .step false), (false, .push 8), (false, .step false),
      (false, .step false), (false, .step false),
      (false, .step false), (false, .step false), (true, .push 9), (true, .step false)]
  have hRun : ((machine Bool Nat (.word ⟨2, by decide, by decide⟩ 64)).run
      (machine Bool Nat (.word ⟨2, by decide, by decide⟩ 64)).start labels).map (fun r =>
        ((pushes r.2).length, (next (.word ⟨2, by decide, by decide⟩ 64) r.1
          (true, .step false)).map Prod.snd)) = some (2, some [.pushFull true]) := by decide +kernel
  obtain ⟨⟨s, trace⟩, hRun, hEq⟩ := Option.map_eq_some_iff.mp hRun
  obtain ⟨hLength, hEvents⟩ := Prod.mk.inj hEq
  obtain ⟨⟨s', events⟩, hNext, rfl⟩ := Option.map_eq_some_iff.mp hEvents
  have hReaches := Machine.Reaches.start.run hRun
  exact ⟨s, trace, s', _, hReaches, hNext, rfl, answersExact_of_reaches hReaches
    (by rw [hLength]; decide) hNext⟩

end Word

end Tinycoro.Mpmc
