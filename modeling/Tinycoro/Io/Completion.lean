import Tinycoro.Io.Waits

/-! Every wait has a token of its own, and the token follows the wait from the
slot to its one completion. A completion names the slot it empties; a timer whose
token is no longer in the slot does nothing. -/
namespace Tinycoro.Io

open Effect Transition World

/-- The tokens of the waits that were completed, in order. -/
def completions (trace : List Obs) : List Nat :=
  trace.filterMap fun
    | .completed token _ _ _ => some token
    | _ => none

/-- The tokens of the waits that were armed, in order. -/
def armings (trace : List Obs) : List Nat :=
  trace.filterMap fun
    | .armed token _ _ => some token
    | _ => none

theorem completions_append (trace events : List Obs) :
    completions (trace ++ events) = completions trace ++ completions events := List.filterMap_append

theorem armings_append (trace events : List Obs) :
    armings (trace ++ events) = armings trace ++ armings events := List.filterMap_append

variable {trace : List Obs} {wrap : Wrap} {w : World}

theorem mem_completions {token : Nat} :
    token ∈ completions trace ↔ ∃ fd event result, .completed token fd event result ∈ trace := by
  simp only [completions, List.mem_filterMap]
  constructor
  · rintro ⟨o, hMem, hSome⟩
    cases o with
    | completed token' fd event result =>
      cases hSome
      exact ⟨fd, event, result, hMem⟩
    | _ => cases hSome
  · rintro ⟨fd, event, result, hMem⟩
    exact ⟨_, hMem, rfl⟩

theorem mem_armings {token : Nat} :
    token ∈ armings trace ↔ ∃ fd event, .armed token fd event ∈ trace := by
  simp only [armings, List.mem_filterMap]
  constructor
  · rintro ⟨o, hMem, hSome⟩
    cases o with
    | armed token' fd event =>
      cases hSome
      exact ⟨fd, event, hMem⟩
    | _ => cases hSome
  · rintro ⟨fd, event, hMem⟩
    exact ⟨_, hMem, rfl⟩

/-- The wait with this token was armed, completed or is waiting at this place. -/
def Mentions (w : World) (trace : List Obs) (token : Nat) (fd : Int) (event : Event) : Prop :=
  .armed token fd event ∈ trace ∨ (∃ result, .completed token fd event result ∈ trace) ∨
    ∃ waitSlot, w.slotAt fd event = some waitSlot ∧ waitSlot.token = token

/-- A token was issued once and belongs to one place. It is in the slot there, or
it is spent. -/
structure Tokens (wrap : Wrap) (w : World) (trace : List Obs) : Prop where
  issued : ∀ {token fd event}, Mentions w trace token fd event → ∃ i < w.nextToken, token = wrap i
  home : ∀ {token fd event fd' event'}, Mentions w trace token fd event →
    Mentions w trace token fd' event' → fd = fd' ∧ event = event'
  unspent : ∀ {fd event waitSlot}, w.slotAt fd event = some waitSlot →
    waitSlot.token ∉ completions trace
  completedOnce : (completions trace).Nodup
  armedOnce : (armings trace).Nodup

/-- The event is about a token. -/
def Obs.speaks : Obs → Bool
  | .armed .. | .completed .. => true
  | _ => false

/-- Nothing happens that concerns a token: no slot is filled, none is issued,
and only failures are seen. -/
structure Quiet (w : World) (o : IoOutcome) : Prop where
  slots : ∀ {fd event waitSlot}, o.state.slotAt fd event = some waitSlot →
    w.slotAt fd event = some waitSlot
  nextToken : o.state.nextToken = w.nextToken
  events : ∀ {e}, e ∈ o.events → ∃ f, e = .fault f

namespace Quiet

variable {w : World} {fd : Int} {event : Event} {faults : Faults}

theorem of_same {w' : World} {events : List Obs} {e : Option Exception}
    (hSlots : ∀ fd event, w'.slotAt fd event = w.slotAt fd event)
    (hNext : w'.nextToken = w.nextToken) (hEvents : ∀ {e}, e ∈ events → ∃ f, e = Obs.fault f) :
    Quiet w ⟨w', events, e⟩ :=
  ⟨fun h => (hSlots ..).symm.trans h, hNext, hEvents⟩

theorem schedule (push : Bool) (h : Nat) : Quiet w (w.schedule push h) := by
  unfold World.schedule
  split_ifs
  · exact of_same (fun _ _ => rfl) rfl (fun h => nomatch h)
  · exact of_same (fun _ _ => rfl) rfl (fun h => ⟨_, List.mem_singleton.mp h⟩)
  · exact of_same (fun _ _ => rfl) rfl (fun h => nomatch h)

theorem modFault {loop : EventLoop} {e : Exception} {o : Obs} (h : o ∈ World.modFault loop fd e) :
    ∃ f, o = .fault f := by
  unfold World.modFault at h
  split at h
  · split_ifs at h
    · exact ⟨_, List.mem_singleton.mp h⟩
    · cases h
  · cases h

theorem refreshInterest : Quiet w (w.refreshInterest faults fd) := by
  refine ⟨fun h => refreshInterest_slotAt faults ▸ h, ?_, ?_⟩
  · unfold World.refreshInterest
    split
    · rfl
    · dsimp only
      split_ifs
      · rfl
      · rfl
      · split <;> rfl
      · split <;> rfl
  · unfold World.refreshInterest
    split
    · exact fun h => nomatch h
    · dsimp only
      split_ifs
      · exact fun h => nomatch h
      · exact fun h => nomatch h
      · split
        · exact fun h => nomatch h
        · exact modFault
      · split <;> exact fun h => nomatch h

theorem pushTimer (fails : Bool) (timer : TimerEntry) : Quiet w (w.pushTimer fails timer) := by
  unfold World.pushTimer
  split_ifs
  · exact of_same (fun _ _ => rfl) rfl (fun h => nomatch h)
  · exact of_same (fun _ _ => rfl) rfl (fun h => nomatch h)

theorem spawn (fails : Bool) (task : Option Nat) : Quiet w (w.spawn fails task) := by
  unfold World.spawn
  split
  · exact of_same (fun _ _ => rfl) rfl (fun h => nomatch h)
  · split_ifs <;> exact of_same (fun _ _ => rfl) rfl (fun h => nomatch h)

theorem trans {w' : World} {o : IoOutcome}
    (hSlots : ∀ {fd event waitSlot}, w'.slotAt fd event = some waitSlot →
      w.slotAt fd event = some waitSlot) (hNext : w'.nextToken = w.nextToken) (h : Quiet w' o) :
    Quiet w o :=
  ⟨fun hSlot => hSlots (h.slots hSlot), h.nextToken.trans hNext, h.events⟩

/-- Emptying a slot fills none. -/
theorem slotAt_of_emptied {st : FdState} (hLookup : w.fdStates.lookup fd = some st) {other : Int}
    {direction : Event} {waitSlot : WaitSlot}
    (h : (w.setState fd (st.setSlot event none)).slotAt other direction = some waitSlot) :
    w.slotAt other direction = some waitSlot := by
  by_cases hFd : other = fd
  · subst hFd
    rw [slotAt_setState_self] at h
    by_cases hEvent : direction = event
    · subst hEvent
      rw [FdState.slot_setSlot_self] at h
      cases h
    · rw [FdState.slot_setSlot_of_ne _ hEvent] at h
      rw [slotAt_of_lookup hLookup]
      exact h
  · rw [slotAt_setState_of_ne hFd] at h
    exact h

/-- Nor does dropping an entry. -/
theorem slotAt_of_erased {loop : EventLoop} {other : Int} {direction : Event} {waitSlot : WaitSlot}
    (h : { w with loop, fdStates := w.fdStates.erase fd }.slotAt other direction = some waitSlot) :
    w.slotAt other direction = some waitSlot := by
  by_cases hFd : other = fd
  · subst hFd
    rw [slotAt_of_lookup_none (Finmap.lookup_erase ..)] at h
    cases h
  · exact (congrArg (Option.bind · _) (Finmap.lookup_erase_ne hFd)).symm.trans h

theorem rollback : Quiet w (w.rollback faults fd event) := by
  unfold World.rollback
  split
  · exact of_same (fun _ _ => rfl) rfl (fun h => nomatch h)
  · rename_i st hLookup
    cases hIdle : (st.setSlot event none).idle with
    | true =>
      simp only [hIdle, if_true]
      exact ⟨slotAt_of_erased, rfl, fun h => nomatch h⟩
    | false =>
      simp only [hIdle, Bool.false_eq_true, if_false]
      exact trans (slotAt_of_emptied hLookup) rfl refreshInterest

end Quiet

theorem eraseIdle_nextToken (w : World) (fd : Int) : (w.eraseIdle fd).nextToken = w.nextToken := by
  unfold eraseIdle
  split
  · split_ifs <;> rfl
  · rfl

theorem finalSuspend_nextToken (w : World) (h left : Nat) (frame : Frame) :
    (w.finalSuspend h left frame).1.nextToken = w.nextToken := by
  unfold finalSuspend
  split_ifs
  · rfl
  · split <;> rfl

theorem finalSuspend_silent (w : World) (h left : Nat) (frame : Frame) {e : Obs}
    (he : e ∈ (w.finalSuspend h left frame).2) : e.speaks = false := by
  unfold finalSuspend at he
  split_ifs at he
  · cases he
  · split at he
    · exact List.mem_singleton.mp he ▸ rfl
    · cases he

section NextToken

variable {w : World} {fd : Int} {event : Event} {faults : Faults}

theorem complete_nextToken (push result : Bool) :
    (w.complete push fd event result).state.nextToken = w.nextToken := by
  unfold complete
  split
  · rfl
  · split
    · rfl
    · exact (Quiet.schedule push _).nextToken

theorem settle_nextToken (result : Bool) :
    (w.settle faults fd event result).state.nextToken = w.nextToken := by
  let P (w' : World) : Prop := w'.nextToken = w.nextToken
  refine Outcome.andThen_state (P := P) ?_ (fun h => (eraseIdle_nextToken ..).trans h)
  exact Outcome.andThen_state (P := P) (complete_nextToken ..)
    (fun h => Quiet.refreshInterest.nextToken.trans h)

theorem onReady_nextToken : (w.onReady faults fd event).state.nextToken = w.nextToken := by
  unfold onReady
  split
  · rfl
  · exact settle_nextToken true

theorem expireTimer_nextToken (timer : TimerEntry) :
    (w.expireTimer faults timer).state.nextToken = w.nextToken := by
  unfold expireTimer
  split_ifs
  · exact settle_nextToken false
  · rfl

theorem cancel_nextToken : (w.cancel faults fd).state.nextToken = w.nextToken := by
  let P (w' : World) : Prop := w'.nextToken = w.nextToken
  cases hLookup : w.fdStates.lookup fd with
  | none => rw [cancel_of_none faults hLookup, Outcome.ok_state]
  | some st =>
    rw [cancel_of_lookup faults hLookup]
    refine Outcome.andThen_state (P := P) ?_ id
    refine Outcome.andThen_state (P := P) ?_ (fun h => (complete_nextToken ..).trans h)
    exact (complete_nextToken ..).trans (deregistered_rest w fd st).2.2.1

end NextToken

theorem enterWait_nextToken {faults : Faults} {address h cell : Nat} {fd : Int} {event : Event}
    {timeout : Int} :
    (w.enterWait wrap faults address fd event timeout h cell).state.nextToken =
      w.nextToken + 1 := by
  let P (w' : World) : Prop := w'.nextToken = w.nextToken + 1
  unfold enterWait
  refine Outcome.andThen_state (P := P) ?_ id
  refine Outcome.rethrow_state (P := P) ?_ (fun h => Quiet.rollback.nextToken.trans h)
  refine Outcome.andThen_state (P := P) Quiet.refreshInterest.nextToken (fun h => ?_)
  split_ifs
  · exact (Quiet.pushTimer ..).nextToken.trans h
  · exact h

namespace Tokens

variable {wrap : Wrap} {w : World} {trace : List Obs} {fd : Int} {event : Event} {faults : Faults}

variable {w' : World} {o : IoOutcome} {waitSlot : WaitSlot}

/-- No slot is filled, no token issued, and no event is about one. -/
theorem silent (inv : Tokens wrap w trace) {events : List Obs}
    (hSlots : ∀ {fd event waitSlot}, w'.slotAt fd event = some waitSlot →
      w.slotAt fd event = some waitSlot) (hNext : w'.nextToken = w.nextToken)
    (hEvents : ∀ {e}, e ∈ events → e.speaks = false) : Tokens wrap w' (trace ++ events) := by
  have hMentions {token : Nat} {fd : Int} {event : Event}
      (hMem : Mentions w' (trace ++ events) token fd event) : Mentions w trace token fd event := by
    rcases hMem with hArmed | ⟨result, hCompleted⟩ | ⟨waitSlot, hSlot, hToken⟩
    · rcases List.mem_append.mp hArmed with hOld | hNew
      · exact .inl hOld
      · exact nomatch (hEvents hNew)
    · rcases List.mem_append.mp hCompleted with hOld | hNew
      · exact .inr (.inl ⟨result, hOld⟩)
      · exact nomatch (hEvents hNew)
    · exact .inr (.inr ⟨waitSlot, hSlots hSlot, hToken⟩)
  have hCompletions : completions events = [] := by
    apply List.filterMap_eq_nil_iff.mpr
    intro e he
    have hSilent := hEvents he
    cases e <;> first | rfl | cases hSilent
  have hArmings : armings events = [] := by
    apply List.filterMap_eq_nil_iff.mpr
    intro e he
    have hSilent := hEvents he
    cases e <;> first | rfl | cases hSilent
  constructor
  · rw [hNext]
    exact fun hMem => inv.issued (hMentions hMem)
  · exact fun hMem hMem' => inv.home (hMentions hMem) (hMentions hMem')
  · rw [completions_append, hCompletions, List.append_nil]
    exact fun hSlot => inv.unspent (hSlots hSlot)
  · rw [completions_append, hCompletions, List.append_nil]
    exact inv.completedOnce
  · rw [armings_append, hArmings, List.append_nil]
    exact inv.armedOnce

theorem quiet (inv : Tokens wrap w trace) (h : Quiet w o) :
    Tokens wrap o.state (trace ++ o.events) := by
  refine inv.silent h.slots h.nextToken (fun he => ?_)
  obtain ⟨f, rfl⟩ := h.events he
  rfl

/-- A slot is emptied and its wait completed. -/
theorem spend (inv : Tokens wrap w trace) (result : Bool)
    (hSlot : w.slotAt fd event = some waitSlot)
    (hSlots : ∀ other direction, w'.slotAt other direction =
      if other = fd ∧ direction = event then none else w.slotAt other direction)
    (hNext : w'.nextToken = w.nextToken) :
    Tokens wrap w' (trace ++ [.completed waitSlot.token fd event result]) := by
  have hKept {other : Int} {direction : Event} {s : WaitSlot}
      (h : w'.slotAt other direction = some s) : w.slotAt other direction = some s ∧
      ¬(other = fd ∧ direction = event) := by
    rw [hSlots] at h
    split_ifs at h with hSame
    exact ⟨h, hSame⟩
  have hMentions {token : Nat} {other : Int} {direction : Event}
      (hMem : Mentions w' (trace ++ [.completed waitSlot.token fd event result]) token other
      direction) :
      Mentions w trace token other direction := by
    rcases hMem with hArmed | ⟨result', hCompleted⟩ | ⟨s, hOther, hToken⟩
    · exact .inl (by simpa using hArmed)
    · rcases List.mem_append.mp hCompleted with hOld | hNew
      · exact .inr (.inl ⟨result', hOld⟩)
      · cases List.mem_singleton.mp hNew
        exact .inr (.inr ⟨waitSlot, hSlot, rfl⟩)
    · exact .inr (.inr ⟨s, (hKept hOther).1, hToken⟩)
  constructor
  · rw [hNext]
    exact fun hMem => inv.issued (hMentions hMem)
  · exact fun hMem hMem' => inv.home (hMentions hMem) (hMentions hMem')
  · intro other direction s hOther
    obtain ⟨hOld, hElse⟩ := hKept hOther
    rw [completions_append, List.mem_append, not_or]
    refine ⟨inv.unspent hOld, fun hMem => hElse ?_⟩
    exact inv.home (.inr (.inr ⟨s, hOld, List.mem_singleton.mp hMem⟩))
      (.inr (.inr ⟨waitSlot, hSlot, rfl⟩))
  · rw [completions_append]
    exact List.Nodup.append inv.completedOnce (List.nodup_singleton _)
      (List.disjoint_singleton.mpr (inv.unspent hSlot))
  · rw [armings_append]
    simpa [armings] using inv.armedOnce

theorem complete (inv : Tokens wrap w trace) (push result : Bool) :
    Tokens wrap (w.complete push fd event result).state
    (trace ++ (w.complete push fd event result).events) := by
  cases hSlot : w.slotAt fd event with
  | none =>
    rw [complete_of_empty push result hSlot]
    simpa using inv
  | some =>
    obtain ⟨st, hLookup, hSt⟩ := Option.bind_eq_some_iff.mp hSlot
    rw [complete_of_slot push result hLookup hSt]
    refine Outcome.andThen_keeps (P := Tokens wrap) (inv.spend result hSlot ?_ rfl)
      (fun inv' => inv'.quiet (.schedule push _))
    intro other direction
    have hAfter : (w.complete push fd event result).state.slotAt other direction = _ :=
      complete_slotAt push result
    rw [complete_of_slot push result hLookup hSt, Outcome.ok_andThen, schedule_slotAt] at hAfter
    exact hAfter

theorem settle (inv : Tokens wrap w trace) (result : Bool) :
    Tokens wrap (w.settle faults fd event result).state
    (trace ++ (w.settle faults fd event result).events) := by
  refine Outcome.andThen_keeps (P := Tokens wrap) ?_ (fun inv' => inv'.quiet ?_)
  · exact Outcome.andThen_keeps (P := Tokens wrap) (inv.complete faults.push result)
      (fun inv' => inv'.quiet .refreshInterest)
  · exact .of_same (fun _ _ => eraseIdle_slotAt) (eraseIdle_nextToken ..) (fun h => nomatch h)

theorem onReady (inv : Tokens wrap w trace) :
    Tokens wrap (w.onReady faults fd event).state
      (trace ++ (w.onReady faults fd event).events) := by
  unfold World.onReady
  split
  · simpa using inv
  · exact inv.settle true

theorem expireTimer (inv : Tokens wrap w trace) (timer : TimerEntry) :
    Tokens wrap (w.expireTimer faults timer).state
    (trace ++ (w.expireTimer faults timer).events) := by
  unfold World.expireTimer
  split_ifs
  · exact inv.settle false
  · simpa using inv

theorem cancel (inv : Tokens wrap w trace) :
    Tokens wrap (w.cancel faults fd).state (trace ++ (w.cancel faults fd).events) := by
  cases hLookup : w.fdStates.lookup fd with
  | none =>
    rw [cancel_of_none faults hLookup]
    simpa using inv
  | some st =>
    have hQuiet : Quiet w ⟨w.deregistered fd st, [], none⟩ :=
      .of_same (fun _ _ => deregistered_slotAt hLookup) (deregistered_rest w fd st).2.2.1
      (fun h => nomatch h)
    have hFirst : Tokens wrap (w.deregistered fd st) trace := by simpa using inv.quiet hQuiet
    rw [cancel_of_lookup faults hLookup]
    refine Outcome.andThen_keeps (P := Tokens wrap) ?_ (fun inv' => inv'.quiet ?_)
    · exact Outcome.andThen_keeps (P := Tokens wrap) (hFirst.complete faults.push false)
        (fun inv' => inv'.complete faults.pushAgain false)
    · exact ⟨Quiet.slotAt_of_erased, rfl, fun h => nomatch h⟩

/-- A token that was never issued before goes into a slot. -/
theorem take (inv : Tokens wrap w trace) {w' : World} {waitSlot : WaitSlot}
    (hWrap : Set.InjOn wrap.token (Set.Iio (w.nextToken + 1)))
    (hToken : waitSlot.token = wrap w.nextToken)
    (hSlots : ∀ other direction, w'.slotAt other direction = if other = fd ∧
      direction = event then some waitSlot else w.slotAt other direction)
    (hNext : w'.nextToken = w.nextToken + 1) :
    Tokens wrap w' trace ∧ waitSlot.token ∉ armings trace := by
  have hNew {other : Int} {direction : Event} (hMem : Mentions w trace waitSlot.token other
      direction) : False := by
    obtain ⟨i, hLt, hEq⟩ := inv.issued hMem
    have hSame := hWrap (Set.mem_Iio.mpr (by omega)) (Set.mem_Iio.mpr (by omega))
        (hToken.symm.trans hEq)
    omega
  -- whatever is mentioned now was mentioned before, or is the new wait
  have hMentions {token : Nat} {other : Int} {direction : Event}
      (hMem : Mentions w' trace token other direction) :
      Mentions w trace token other direction ∨ token = waitSlot.token ∧ other = fd ∧
        direction = event := by
    rcases hMem with hArmed | hCompleted | ⟨s, hSlot, hEq⟩
    · exact .inl (.inl hArmed)
    · exact .inl (.inr (.inl hCompleted))
    · rw [hSlots] at hSlot
      split_ifs at hSlot with hPlace
      · cases hSlot
        exact .inr ⟨hEq.symm, hPlace⟩
      · exact .inl (.inr (.inr ⟨s, hSlot, hEq⟩))
  refine ⟨⟨?_, ?_, ?_, inv.completedOnce, inv.armedOnce⟩, ?_⟩
  · intro token other direction hMem
    rw [hNext]
    rcases hMentions hMem with hOld | ⟨rfl, -⟩
    · obtain ⟨i, hLt, hEq⟩ := inv.issued hOld
      exact ⟨i, by omega, hEq⟩
    · exact ⟨w.nextToken, by omega, hToken⟩
  · intro token other direction other' direction' hMem hMem'
    rcases hMentions hMem with hOld | ⟨rfl, rfl, rfl⟩
    · rcases hMentions hMem' with hOld' | ⟨rfl, -⟩
      · exact inv.home hOld hOld'
      · exact (hNew hOld).elim
    · rcases hMentions hMem' with hOld' | ⟨-, rfl, rfl⟩
      · exact (hNew hOld').elim
      · exact ⟨rfl, rfl⟩
  · intro other direction s hSlot hMem
    rw [hSlots] at hSlot
    split_ifs at hSlot with hPlace
    · cases hSlot
      obtain ⟨other', direction', result, hCompleted⟩ := mem_completions.mp hMem
      exact hNew (.inr (.inl ⟨result, hCompleted⟩))
    · exact inv.unspent hSlot hMem
  · intro hMem
    obtain ⟨other, direction, hArmed⟩ := mem_armings.mp hMem
    exact hNew (.inl hArmed)

/-- A wait is reported armed with a token that was not used before. -/
theorem arm (inv : Tokens wrap w trace) {waitSlot : WaitSlot}
    (hSlot : w.slotAt fd event = some waitSlot) (hNew : waitSlot.token ∉ armings trace) :
    Tokens wrap w (trace ++ [.armed waitSlot.token fd event]) := by
  have hMentions {token : Nat} {other : Int} {direction : Event}
      (hMem : Mentions w (trace ++ [.armed waitSlot.token fd event]) token other direction) :
      Mentions w trace token other direction := by
    rcases hMem with hArmed | ⟨result, hCompleted⟩ | hWaiting
    · rcases List.mem_append.mp hArmed with hOld | hLast
      · exact .inl hOld
      · cases List.mem_singleton.mp hLast
        exact .inr (.inr ⟨waitSlot, hSlot, rfl⟩)
    · exact .inr (.inl ⟨result, by simpa using hCompleted⟩)
    · exact .inr (.inr hWaiting)
  have hCompletions : completions (trace ++ [.armed waitSlot.token fd event]) = completions
      trace := by
    simp [completions]
  constructor
  · exact fun hMem => inv.issued (hMentions hMem)
  · exact fun hMem hMem' => inv.home (hMentions hMem) (hMentions hMem')
  · rw [hCompletions]
    exact inv.unspent
  · rw [hCompletions]
    exact inv.completedOnce
  · rw [armings_append]
    exact List.Nodup.append inv.armedOnce (List.nodup_singleton _)
      (List.disjoint_singleton.mpr hNew)

/-- The new wait is in its slot and has not been announced. -/
def Entered (wrap : Wrap) (fd : Int) (event : Event) (waitSlot : WaitSlot) (w : World)
    (trace : List Obs) : Prop :=
  Tokens wrap w trace ∧ waitSlot.token ∉ armings trace ∧ w.slotAt fd event = some waitSlot

theorem Entered.quiet (hOld : Entered wrap fd event waitSlot w trace) (h : Quiet w o)
    (hSlot : o.state.slotAt fd event = w.slotAt fd event) :
    Entered wrap fd event waitSlot o.state (trace ++ o.events) := by
  refine ⟨hOld.1.quiet h, ?_, hSlot.trans hOld.2.2⟩
  rw [armings_append, List.mem_append, not_or]
  refine ⟨hOld.2.1, fun hMem => ?_⟩
  obtain ⟨other, direction, hArmed⟩ := mem_armings.mp hMem
  exact nomatch (h.events hArmed)

theorem Entered.setTimer (hOld : Entered wrap fd event waitSlot w trace) (fails : Bool)
    (token : Nat) (timeout : Int) :
    Entered wrap fd event waitSlot
      (if 0 ≤ timeout then w.pushTimer fails (w.timerOf wrap token fd event timeout) else .ok w
      []).state
      (trace ++ (if 0 ≤ timeout then w.pushTimer fails (w.timerOf wrap token fd event timeout)
        else .ok w []).events) := by
  split_ifs
  · apply hOld.quiet (.pushTimer ..)
    unfold pushTimer
    split_ifs <;> rfl
  · simpa using hOld

/-- The slots after `enter` has put a new wait in its place. -/
theorem slotAt_taken (w : World) (address : Nat) (waitSlot : WaitSlot) (other : Int)
    (direction : Event) :
    (w.setState fd ((w.fdState address fd).setSlot event (some waitSlot))).slotAt other direction =
      if other = fd ∧ direction = event then some waitSlot else w.slotAt other direction := by
  by_cases hFd : other = fd
  · subst hFd
    by_cases hEvent : direction = event
    · subst hEvent
      simp
    · rw [slotAt_setState_self, FdState.slot_setSlot_of_ne _ hEvent, ← slotAt_eq_fdState address,
        if_neg (fun h => hEvent h.2)]
  · rw [slotAt_setState_of_ne hFd, if_neg (fun h => hFd h.1)]

/-- Arming a wait takes the next token; a wait that is rolled back leaves none behind. -/
theorem enterWait (inv : Tokens wrap w trace)
    (hWrap : Set.InjOn wrap.token (Set.Iio (w.nextToken + 1))) (address h cell : Nat)
    (timeout : Int) :
    Tokens wrap (w.enterWait wrap faults address fd event timeout h cell).state
      (trace ++ (w.enterWait wrap faults address fd event timeout h cell).events) := by
  unfold World.enterWait
  extract_lets token taken w'
  have hTaken : Entered wrap fd event ⟨h, token, cell⟩ w' trace := by
    have hSlots (other : Int) (direction : Event) : w'.slotAt other direction =
        if other = fd ∧ direction = event then some ⟨h, token, cell⟩ else w.slotAt other direction
        :=
      slotAt_taken w address _ other direction
    obtain ⟨hTokens, hNew⟩ := inv.take hWrap rfl hSlots rfl
    exact ⟨hTokens, hNew, slotAt_setState_self.trans (FdState.slot_setSlot_self ..)⟩
  have hTried := Outcome.andThen_keeps (o := w'.refreshInterest faults fd)
    (f := fun w => if 0 ≤ timeout then w.pushTimer faults.timer
    (w.timerOf wrap token fd event timeout) else .ok w [])
    (hTaken.quiet .refreshInterest (refreshInterest_slotAt faults))
    (fun hOld => hOld.setTimer faults.timer token timeout)
  generalize (w'.refreshInterest faults fd).andThen _ = tried at hTried ⊢
  cases hError : tried.error with
  | none =>
    rw [Outcome.rethrow_of_none _ hError, Outcome.andThen_of_none _ hError]
    simp only [Outcome.ok_state, Outcome.ok_events, ← List.append_assoc]
    exact hTried.1.arm hTried.2.2 hTried.2.1
  | some =>
    rw [Outcome.rethrow_of_some _ hError, Outcome.fail_andThen]
    simp only [Outcome.fail_state, Outcome.fail_events, ← List.append_assoc]
    exact hTried.1.quiet .rollback

theorem armWait (inv : Tokens wrap w trace) {address : Nat} {timeout : Int}
    {continuation result : Option Nat} (hWrap : Set.InjOn wrap.token
      (Set.Iio (w.armWait wrap faults address fd event timeout continuation
      result).state.nextToken)) :
    Tokens wrap (w.armWait wrap faults address fd event timeout continuation result).state
      (trace ++ (w.armWait wrap faults address fd event timeout continuation result).events) := by
  rcases armWait_cases continuation result with ⟨e, hFail⟩ | ⟨h, cell, -, -, -, -, -, hEnter⟩
  · rw [hFail]
    exact inv.quiet (.of_same (fun _ _ => rfl) rfl (fun hMem => nomatch hMem))
  · rw [hEnter] at hWrap ⊢
    rw [enterWait_nextToken] at hWrap
    exact inv.enterWait hWrap address h cell timeout

theorem toUser (inv : Tokens wrap o.state (trace ++ o.events)) :
    Tokens wrap (toUser o).1 (trace ++ (World.toUser o).2) := by
  obtain ⟨last, hEq, hThrew⟩ := toUser_events o
  rw [hEq, toUser_state, ← List.append_assoc]
  refine inv.silent id rfl (fun {e} he => ?_)
  obtain ⟨x, rfl⟩ := hThrew e he
  rfl

theorem within (inv : Tokens wrap o.state (trace ++ o.events)) (control : Control) :
    Tokens wrap (within o control).1 (trace ++ (World.within o control).2) := by
  obtain ⟨last, hEq, hThrew⟩ := within_events o control
  rw [hEq, ← List.append_assoc]
  refine inv.silent (fun h => within_slotAt ▸ h) within_nextToken (fun {e} he => ?_)
  obtain ⟨x, rfl⟩ := hThrew e he
  rfl

/-- A step that begins by telling what it is about to do. -/
theorem announced {events : List Obs} {e : Obs} (inv : Tokens wrap w trace) (he : e.speaks = false)
    (h : ∀ {history}, Tokens wrap w history → Tokens wrap w' (history ++ events)) :
    Tokens wrap w' (trace ++ e :: events) := by
  have hTold : Tokens wrap w (trace ++ [e]) :=
    inv.silent id rfl (fun hMem => List.mem_singleton.mp hMem ▸ he)
  have hNext := h hTold
  rw [List.append_assoc] at hNext
  exact hNext

/-- Every step keeps the account of the tokens, as long as the counter has not come round. -/
theorem step (inv : Tokens wrap w trace) {w' : World} {label : Label} {events : List Obs}
    (h : Step wrap w label w' events) (hWrap : Set.InjOn wrap.token (Set.Iio w'.nextToken)) :
    Tokens wrap w' (trace ++ events) := by
  cases h with
  | close =>
    refine inv.silent id rfl (fun {e} he => ?_)
    split_ifs at he
    · exact List.mem_singleton.mp he ▸ rfl
    · cases he
  | spawn => exact (inv.quiet (.spawn ..)).toUser
  | cancel => exact inv.announced rfl (fun inv' => inv'.cancel.toUser)
  | @yield h left push | @yieldThrows h left push =>
    rw [← List.append_assoc]
    exact (inv.quiet (.schedule push h)).silent id rfl (by simp [Obs.speaks])
  | wait | waitThrows =>
    rw [← List.append_assoc]
    exact (inv.armWait hWrap).silent id rfl (by simp [Obs.speaks])
  | finish =>
    refine inv.silent (fun h => ?_) (finalSuspend_nextToken ..)
      (fun he => finalSuspend_silent _ _ _ _ he)
    rw [slotAt, finalSuspend_fdStates] at h
    exact h
  | @expire now second pick timer =>
    apply inv.announced rfl
    intro history inv'
    have hPopped : Tokens wrap { w with timers := w.timers.eraseIdx pick } history :=
      List.append_nil history ▸ inv'.silent id rfl (by simp)
    exact (hPopped.expireTimer timer).within _
  | ready => exact inv.announced rfl (fun inv' => inv'.onReady.within _)
  | _ => exact inv.silent id rfl (by simp [Obs.speaks, throwRun, returnRun])

end Tokens

theorem nextToken_le_of_step {w' : World} {label : Label} {events : List Obs}
    (h : Step wrap w label w' events) : w.nextToken ≤ w'.nextToken := by
  have hArm {faults : Faults} {address : Nat} {fd timeout : Int} {event : Event} {a b : Option Nat}
      : w.nextToken ≤ (w.armWait wrap faults address fd event timeout a b).state.nextToken := by
    rcases armWait_cases a b with ⟨e, hFail⟩ | ⟨h, cell, -, -, -, -, -, hEnter⟩
    · rw [hFail]
      exact le_refl _
    · rw [hEnter, enterWait_nextToken]
      exact Nat.le_succ _
  cases h with
  | spawn => rw [toUser_state, (Quiet.spawn ..).nextToken]
  | cancel => rw [toUser_state, cancel_nextToken]
  | yield | yieldThrows => exact (Quiet.schedule ..).nextToken.ge
  | wait => exact hArm
  | waitThrows => exact hArm
  | finish => rw [finalSuspend_nextToken]
  | expire => rw [within_nextToken, expireTimer_nextToken]
  | ready => rw [within_nextToken, onReady_nextToken]
  | _ => exact le_refl _

section Attribution

variable {w : World} {fd : Int} {event : Event} {faults : Faults}

/-- Completing a wait tells the token that was in the slot. -/
theorem complete_events {push result : Bool} {e : Obs}
    (h : e ∈ (w.complete push fd event result).events) :
    (∃ f, e = .fault f) ∨
      ∃ waitSlot, w.slotAt fd event = some waitSlot ∧
      e = .completed waitSlot.token fd event result := by
  cases hSlot : w.slotAt fd event with
  | none =>
    rw [complete_of_empty push result hSlot] at h
    cases h
  | some waitSlot =>
    obtain ⟨st, hLookup, hSt⟩ := Option.bind_eq_some_iff.mp hSlot
    rw [complete_of_slot push result hLookup hSt] at h
    rcases Outcome.mem_andThen h with hFirst | hNext
    · exact .inr ⟨waitSlot, rfl, List.mem_singleton.mp hFirst⟩
    · exact .inl ((Quiet.schedule push _).events hNext)

theorem settle_events {result : Bool} {e : Obs} (h : e ∈ (w.settle faults fd event result).events) :
    (∃ f, e = .fault f) ∨
      ∃ waitSlot, w.slotAt fd event = some waitSlot ∧
      e = .completed waitSlot.token fd event result := by
  rcases Outcome.mem_andThen h with hFirst | hLast
  · rcases Outcome.mem_andThen hFirst with hComplete | hRefresh
    · exact complete_events hComplete
    · exact .inl (Quiet.refreshInterest.events hRefresh)
  · cases hLast

/-- `cancel` completes the waits on the descriptor, both with `false`. -/
theorem cancel_events {e : Obs} (h : e ∈ (w.cancel faults fd).events) :
    (∃ f, e = .fault f) ∨ ∃ direction waitSlot, w.slotAt fd direction = some waitSlot ∧
      e = .completed waitSlot.token fd direction false := by
  cases hLookup : w.fdStates.lookup fd with
  | none =>
    rw [cancel_of_none faults hLookup] at h
    cases h
  | some st =>
    rw [cancel_of_lookup faults hLookup] at h
    have hSlots (direction : Event) : (w.deregistered fd st).slotAt fd direction = w.slotAt fd
        direction :=
      deregistered_slotAt hLookup
    rcases Outcome.mem_andThen h with hBoth | hLast
    · rcases Outcome.mem_andThen hBoth with hRead | hWrite
      · refine (complete_events hRead).imp_right ?_
        rintro ⟨waitSlot, hSlot, rfl⟩
        exact ⟨.read, waitSlot, hSlots .read ▸ hSlot, rfl⟩
      · refine (complete_events hWrite).imp_right ?_
        rintro ⟨waitSlot, hSlot, rfl⟩
        rw [complete_slotAt, if_neg (fun hSame => nomatch hSame.2)] at hSlot
        exact ⟨.write, waitSlot, hSlots .write ▸ hSlot, rfl⟩
    · cases hLast

/-- What a transition may do to waits. A completion ends the wait that was in the
slot, with `true` for `on_ready` and with `false` for `cancel` or for a timer that
carries its token. Readiness and timers leave every other slot alone, and a timer
whose token is not in the slot leaves them all alone. -/
structure Attributed (w w' : World) (events : List Obs) : Prop where
  cause : ∀ {token fd event result}, .completed token fd event result ∈ events →
    (∃ waitSlot, w.slotAt fd event = some waitSlot ∧ waitSlot.token = token) ∧
    (result = true → .onReady fd event ∈ events) ∧
    (result = false → .cancelled fd ∈ events ∨ ∃ timer now, .timerPopped timer now ∈ events ∧
      timer.token = token ∧ timer.fd = fd ∧ timer.event = event ∧ timer.deadline ≤ now)
  ready : ∀ {fd event}, .onReady fd event ∈ events → ∀ {other direction},
    ¬(other = fd ∧ direction = event) → w'.slotAt other direction = w.slotAt other direction ∧
      ∀ {token result}, .completed token other direction result ∉ events
  timer : ∀ {timer now}, .timerPopped timer now ∈ events → ∀ {other direction},
    ¬(other = timer.fd ∧ direction = timer.event) → w'.slotAt other direction = w.slotAt other
      direction ∧ ∀ {token result}, .completed token other direction result ∉ events
  stale : ∀ {timer now}, .timerPopped timer now ∈ events →
    (∀ {waitSlot}, w.slotAt timer.fd timer.event = some waitSlot → waitSlot.token ≠ timer.token) →
    completions events = [] ∧ ∀ fd event, w'.slotAt fd event = w.slotAt fd event

/-- Events that no clause of the attribution is about. -/
def Obs.plain : Obs → Bool
  | .completed .. | .onReady .. | .timerPopped .. => false
  | _ => true

theorem Quiet.plain {o : IoOutcome} (h : Quiet w o) {e : Obs} (he : e ∈ o.events) :
    e.plain = true := by
  obtain ⟨f, rfl⟩ := h.events he
  rfl

theorem plain_append {first last : List Obs} (hFirst : ∀ {e}, e ∈ first → e.plain = true)
    (hLast : ∀ {e}, e ∈ last → e.plain = true) {e : Obs} (h : e ∈ first ++ last) : e.plain = true :=
  (List.mem_append.mp h).elim hFirst hLast

theorem Attributed.of_plain {w' : World} {events : List Obs}
    (h : ∀ {e}, e ∈ events → e.plain = true) : Attributed w w' events := by
  constructor
  · exact fun hMem => nomatch (h hMem)
  · exact fun hMem => nomatch (h hMem)
  · exact fun hMem => nomatch (h hMem)
  · exact fun hMem => nomatch (h hMem)

/-- A step that tells its cause and then settles at most one wait. -/
structure Settling (w w' : World) (first : Obs) (fd : Int) (event : Event) (result : Bool)
    (events : List Obs) : Prop where
  head : first ∈ events
  rest : ∀ {e}, e ∈ events → e.plain = false → e = first ∨
    ∃ waitSlot, w.slotAt fd event = some waitSlot ∧ e = .completed waitSlot.token fd event result
  slots : ∀ {other direction}, ¬(other = fd ∧ direction = event) →
    w'.slotAt other direction = w.slotAt other direction

theorem Settling.of_within {o : IoOutcome} {result : Bool} (first : Obs) (control : Control)
    (hEvents : ∀ {e}, e ∈ o.events → (∃ f, e = .fault f) ∨
      ∃ waitSlot, w.slotAt fd event = some waitSlot ∧ e = .completed waitSlot.token fd event result)
    (hSlots : ∀ {other direction}, ¬(other = fd ∧ direction = event) →
      o.state.slotAt other direction = w.slotAt other direction) :
    Settling w (within o control).1 first fd event result (first :: (within o control).2) := by
  refine ⟨List.mem_cons_self .., fun {e} h hPlain => ?_, fun hElse => within_slotAt.trans
    (hSlots hElse)⟩
  obtain ⟨last, hEq, hThrew⟩ := within_events o control
  rw [hEq] at h
  rcases List.mem_cons.mp h with hFirst | hRest
  · exact .inl hFirst
  · rcases List.mem_append.mp hRest with hInner | hLast
    · rcases hEvents hInner with ⟨f, rfl⟩ | hCompleted
      · cases hPlain
      · exact .inr hCompleted
    · obtain ⟨x, rfl⟩ := hThrew e hLast
      cases hPlain

theorem settling_onReady (w : World) (faults : Faults) (fd : Int) (event : Event)
    (control : Control) :
    Settling w (within (w.onReady faults fd event) control).1 (.onReady fd event) fd event true
      (.onReady fd event :: (within (w.onReady faults fd event) control).2) := by
  apply Settling.of_within
  · intro e h
    unfold onReady at h
    split at h
    · cases h
    · exact settle_events h
  · intro other direction hElse
    unfold onReady
    split
    · rfl
    · rw [settle_slotAt, if_neg hElse]

theorem settling_expireTimer (w : World) (faults : Faults) (pick : Nat) (timer : TimerEntry)
    (now : Int) (control : Control) :
    Settling w (within (expireTimer faults { w with timers := w.timers.eraseIdx pick } timer)
      control).1 (.timerPopped timer now) timer.fd timer.event false
      (.timerPopped timer now ::
        (within (expireTimer faults { w with timers := w.timers.eraseIdx pick } timer)
          control).2) := by
  apply Settling.of_within
  · intro e h
    unfold expireTimer at h
    split_ifs at h
    · have hInner := settle_events h
      exact hInner
    · cases h
  · intro other direction hElse
    unfold expireTimer
    split_ifs
    · rw [settle_slotAt, if_neg hElse]
      rfl
    · rfl

variable {w' : World} {events : List Obs}

theorem Settling.completed_elsewhere {first : Obs} {result : Bool}
    (h : Settling w w' first fd event result events)
    (hFirst : ∀ {token other direction r}, first ≠ .completed token other direction r) {token : Nat}
    {other : Int} {direction : Event} {r : Bool} (hElse : ¬(other = fd ∧ direction = event)) :
    .completed token other direction r ∉ events := by
  intro hMem
  rcases h.rest hMem rfl with hEq | ⟨waitSlot, -, hEq⟩
  · exact hFirst hEq.symm
  · cases hEq
    exact hElse ⟨rfl, rfl⟩

theorem Attributed.of_onReady (h : Settling w w' (.onReady fd event) fd event true events) :
    Attributed w w' events := by
  constructor
  · intro token other direction result hMem
    rcases h.rest hMem rfl with hEq | ⟨waitSlot, hSlot, hEq⟩
    · cases hEq
    · cases hEq
      exact ⟨⟨waitSlot, hSlot, rfl⟩, fun _ => h.head, fun hFalse => nomatch hFalse⟩
  · intro other direction hMem other' direction' hElse
    rcases h.rest hMem rfl with hEq | ⟨waitSlot, -, hEq⟩
    · cases hEq
      exact ⟨h.slots hElse, h.completed_elsewhere (fun hEq => nomatch hEq) hElse⟩
    · cases hEq
  · intro timer now hMem
    rcases h.rest hMem rfl with hEq | ⟨waitSlot, -, hEq⟩ <;> cases hEq
  · intro timer now hMem
    rcases h.rest hMem rfl with hEq | ⟨waitSlot, -, hEq⟩ <;> cases hEq

/-- An expired timer completes the wait with its token, if that is still armed, and no other. -/
theorem Attributed.of_expireTimer (faults : Faults) (pick : Nat) {timer : TimerEntry} {now : Int}
    (control : Control) (hDue : timer.deadline ≤ now) :
    Attributed w (within (expireTimer faults { w with timers := w.timers.eraseIdx pick } timer)
      control).1 (.timerPopped timer now ::
        (within (expireTimer faults { w with timers := w.timers.eraseIdx pick } timer)
          control).2) := by
  have h := settling_expireTimer w faults pick timer now control
  have hStale (hInactive : w.timerActive timer = false) :
      within (expireTimer faults { w with timers := w.timers.eraseIdx pick } timer) control =
        ({ w with timers := w.timers.eraseIdx pick, control }, []) := by
    have hStill : World.timerActive { w with timers := w.timers.eraseIdx pick } timer = false :=
      hInactive
    simp [expireTimer, hStill, World.within]
  constructor
  · intro token fd event result hMem
    rcases h.rest hMem rfl with hEq | ⟨waitSlot, hSlot, hEq⟩
    · cases hEq
    · cases hEq
      refine ⟨⟨waitSlot, hSlot, rfl⟩, (fun hTrue => nomatch hTrue), fun _ => .inr ?_⟩
      refine ⟨timer, now, h.head, ?_, rfl, rfl, hDue⟩
      cases hActive : w.timerActive timer with
      | false => simp [hStale hActive] at hMem
      | true =>
        obtain ⟨active, hSame, hToken⟩ := timerActive_iff.mp hActive
        rw [hSlot] at hSame
        exact Option.some.inj hSame ▸ hToken.symm
  · intro fd event hMem
    rcases h.rest hMem rfl with hEq | ⟨waitSlot, -, hEq⟩ <;> cases hEq
  · intro other now' hMem fd event hElse
    rcases h.rest hMem rfl with hEq | ⟨waitSlot, -, hEq⟩
    · cases hEq
      exact ⟨h.slots hElse, h.completed_elsewhere (fun hEq => nomatch hEq) hElse⟩
    · cases hEq
  · intro other now' hMem hGone
    rcases h.rest hMem rfl with hEq | ⟨waitSlot, -, hEq⟩
    · cases hEq
      have hInactive : w.timerActive timer = false := by
        apply Bool.eq_false_of_not_eq_true
        intro hActive
        obtain ⟨waitSlot, hSlot, hToken⟩ := timerActive_iff.mp hActive
        exact hGone hSlot hToken
      rw [hStale hInactive]
      exact ⟨rfl, fun _ _ => rfl⟩
    · cases hEq

/-- `cancel` completes the waits of its descriptor, each with the token it was armed with. -/
theorem Attributed.of_cancel (faults : Faults) :
    Attributed w (toUser (w.cancel faults fd)).1
      (.cancelled fd :: (toUser (w.cancel faults fd)).2) := by
  have hEvents {e : Obs} (h : e ∈ Obs.cancelled fd :: (toUser (w.cancel faults fd)).2)
      (hPlain : e.plain = false) : ∃ direction waitSlot, w.slotAt fd direction = some waitSlot ∧
        e = .completed waitSlot.token fd direction false := by
    obtain ⟨last, hEq, hThrew⟩ := toUser_events (w.cancel faults fd)
    rw [hEq] at h
    rcases List.mem_cons.mp h with rfl | hRest
    · cases hPlain
    · rcases List.mem_append.mp hRest with hInner | hLast
      · rcases cancel_events hInner with ⟨f, rfl⟩ | hCompleted
        · cases hPlain
        · exact hCompleted
      · obtain ⟨x, rfl⟩ := hThrew e hLast
        cases hPlain
  constructor
  · intro token other event result hMem
    obtain ⟨direction, waitSlot, hSlot, hEq⟩ := hEvents hMem rfl
    cases hEq
    exact ⟨⟨waitSlot, hSlot, rfl⟩, (fun hTrue => nomatch hTrue), fun _ =>
      .inl (List.mem_cons_self ..)⟩
  · intro other event hMem
    obtain ⟨direction, waitSlot, -, hEq⟩ := hEvents hMem rfl
    cases hEq
  · intro timer now hMem
    obtain ⟨direction, waitSlot, -, hEq⟩ := hEvents hMem rfl
    cases hEq
  · intro timer now hMem
    obtain ⟨direction, waitSlot, -, hEq⟩ := hEvents hMem rfl
    cases hEq

variable {wrap : Wrap} {label : Label}

theorem armWait_events {address : Nat} {timeout : Int} {a b : Option Nat} {e : Obs}
    (h : e ∈ (w.armWait wrap faults address fd event timeout a b).events) :
    (∃ f, e = .fault f) ∨ ∃ token, e = .armed token fd event := by
  rcases armWait_cases a b with ⟨x, hFail⟩ | ⟨c, cell, -, -, -, -, -, hEnter⟩
  · rw [hFail] at h
    cases h
  · rw [hEnter] at h
    unfold enterWait at h
    rcases Outcome.mem_andThen h with hTried | hArmed
    · rcases Outcome.mem_rethrow hTried with hInner | hUndone
      · rcases Outcome.mem_andThen hInner with hRefresh | hTimer
        · exact .inl (Quiet.refreshInterest.events hRefresh)
        · split_ifs at hTimer
          · exact .inl ((Quiet.pushTimer ..).events hTimer)
          · cases hTimer
      · exact .inl (Quiet.rollback.events hUndone)
    · exact .inr ⟨_, List.mem_singleton.mp hArmed⟩

theorem armWait_plain {address : Nat} {timeout : Int} {a b : Option Nat} {e : Obs}
    (h : e ∈ (w.armWait wrap faults address fd event timeout a b).events) : e.plain = true := by
  rcases armWait_events h with ⟨f, rfl⟩ | ⟨token, rfl⟩ <;> rfl

/-- A step ends waits, by `cancel`, a timer or readiness, or has nothing to say
about them. -/
inductive Ending (w : World) : Label → World → List Obs → Prop where
  | plain {label : Label} {w' : World} {events : List Obs}
      (h : ∀ {e}, e ∈ events → e.plain = true) :
      Ending w label w' events
  | cancel (fd : Int) (faults : Faults) :
      Ending w (.cancel fd faults) (toUser (w.cancel faults fd)).1
      (.cancelled fd :: (toUser (w.cancel faults fd)).2)
  | expire {label : Label} {now : Int} {second : Bool} {pick : Nat} {timer : TimerEntry}
      (faults : Faults) (hControl : w.control = .expire now second)
      (hPick : w.timers[pick]? = some timer) (hDue : timer.deadline ≤ now) :
      Ending w label
        (within (expireTimer faults { w with timers := w.timers.eraseIdx pick } timer)
        (.expire now second)).1
        (.timerPopped timer now ::
          (within (expireTimer faults { w with timers := w.timers.eraseIdx pick } timer)
          (.expire now second)).2)
  | ready {label : Label} {fd : Int} {flags : EpollEvents} {channel : Nat} {after : Control}
      (event : Event) (faults : Faults) (hAt : w.Dispatches fd flags channel event after)
      (hSelects : EventLoop.selects flags event = true) :
      Ending w label (within (w.onReady faults fd event) after).1
        (.onReady fd event :: (within (w.onReady faults fd event) after).2)

/-- A step that completes waits is a callback, the expiry of a timer or `cancel`. -/
theorem ending_of_step (h : Step wrap w label w' events) : Ending w label w' events := by
  cases h with
  | cancel => exact .cancel ..
  | expire hControl hPick hDue => exact .expire _ hControl hPick hDue
  | ready hAt hChannel hSelects => exact .ready _ _ hAt hSelects
  | close =>
    refine .plain (fun {e} he => ?_)
    split_ifs at he
    · exact List.mem_singleton.mp he ▸ rfl
    · cases he
  | @spawn task fails =>
    obtain ⟨last, hEq, hThrew⟩ := toUser_events (w.spawn fails task)
    rw [hEq]
    refine .plain (plain_append (Quiet.spawn fails task).plain (fun {e} he => ?_))
    obtain ⟨x, rfl⟩ := hThrew e he
    rfl
  | yield | yieldThrows =>
    exact .plain (plain_append (Quiet.schedule ..).plain (by simp [Obs.plain]))
  | wait | waitThrows => exact .plain (plain_append armWait_plain (by simp [Obs.plain]))
  | finish =>
    refine .plain (fun {e} he => ?_)
    unfold finalSuspend at he
    split_ifs at he
    · cases he
    · split at he
      · exact List.mem_singleton.mp he ▸ rfl
      · cases he
  | _ => exact .plain (by simp [Obs.plain, throwRun, returnRun])

theorem attributed_of_step (h : Step wrap w label w' events) : Attributed w w' events := by
  cases ending_of_step h with
  | plain h => exact .of_plain h
  | cancel fd faults => exact .of_cancel faults
  | expire faults hControl hPick hDue => exact .of_expireTimer _ _ _ hDue
  | ready => exact .of_onReady (settling_onReady ..)

/-- A wait that ends with `false` was cancelled, or its timer was due at the clock
reading of `expire_timers`. -/
theorem cause_of_false (h : Step wrap w label w' events) {token : Nat}
    (hMem : .completed token fd event false ∈ events) :
    (∃ faults, label = .cancel fd faults) ∨
      ∃ timer ∈ w.timers, timer.token = token ∧ ∃ now second, w.control = .expire now second ∧
      timer.deadline ≤ now := by
  cases ending_of_step h with
  | plain h => exact nomatch h hMem
  | cancel other faults =>
    obtain ⟨last, hEq, hThrew⟩ := toUser_events (w.cancel faults other)
    rw [hEq, List.mem_cons, List.mem_append] at hMem
    rcases hMem with hEq | hMem | hMem
    · cases hEq
    · rcases cancel_events hMem with ⟨f, hEq⟩ | ⟨direction, waitSlot, -, hEq⟩
      · cases hEq
      · cases hEq
        exact .inl ⟨faults, rfl⟩
    · obtain ⟨x, hEq⟩ := hThrew _ hMem
      cases hEq
  | @expire _ now second pick timer faults hControl hPick hDue =>
    refine .inr ⟨timer, List.mem_of_getElem? hPick, ?_, now, second, hControl, hDue⟩
    rcases (settling_expireTimer ..).rest hMem rfl with hEq | ⟨waitSlot, hSlot, hEq⟩
    · cases hEq
    · cases hEq
      by_cases hActive : World.timerActive { w with timers := w.timers.eraseIdx pick } timer = true
      · have hToken : w.timerActive timer = true := hActive
        simp only [timerActive, hSlot, Option.any_some, decide_eq_true_eq] at hToken
        exact hToken.symm
      · simp [expireTimer, hActive, within] at hMem
  | ready => rcases (settling_onReady ..).rest hMem rfl with hEq | ⟨waitSlot, -, hEq⟩ <;> cases hEq

end Attribution

/-- 64-bit tokens are all different while they last. -/
theorem injOn_word {n : Nat} (h : n ≤ 2 ^ 64) : Set.InjOn Wrap.word.token (Set.Iio n) := by
  intro i hi j hj hEq
  rw [Set.mem_Iio] at hi hj
  have hMod : i % 2 ^ 64 = j % 2 ^ 64 := hEq
  omega

/-- Along every run, as long as no stored token was issued twice. -/
theorem tokens_of_reaches (h : (machine wrap).Reaches w trace)
    (hWrap : Set.InjOn wrap.token (Set.Iio w.nextToken)) : Tokens wrap w trace := by
  revert hWrap
  apply h.invariant (P := fun w trace => Set.InjOn wrap.token (Set.Iio w.nextToken) →
    Tokens wrap w trace)
  · intro _
    have hNone {token : Nat} {fd : Int} {event : Event}
        (hMem : Mentions World.create [] token fd event) : False := by
      rcases hMem with hMem | ⟨result, hMem⟩ | ⟨waitSlot, hSlot, -⟩
      · cases hMem
      · cases hMem
      · cases hSlot
    exact ⟨fun hMem => (hNone hMem).elim, fun hMem => (hNone hMem).elim,
      (fun _ hMem => nomatch hMem), List.nodup_nil, List.nodup_nil⟩
  · intro w w' trace events label _ ih hNext hWrap
    have hStep := step_of_next hNext
    exact (ih (hWrap.mono (Set.Iio_subset_Iio (nextToken_le_of_step hStep)))).step hStep hWrap

/-- Waits are told apart by their tokens, each is completed at most once and where
it was armed, and every transition from here attributes its completions. -/
structure CompletedOnce (wrap : Wrap) (w : World) (trace : List Obs) : Prop where
  armed : (armings trace).Nodup
  completed : (completions trace).Nodup
  home : ∀ {token fd event fd' event' result}, .armed token fd event ∈ trace →
    .completed token fd' event' result ∈ trace → fd' = fd ∧ event' = event
  next : ∀ {label w' events}, w.next wrap label = some (w', events) → Attributed w w' events

theorem completedOnce_of_reaches (h : (machine wrap).Reaches w trace)
    (hWrap : Set.InjOn wrap.token (Set.Iio w.nextToken)) : CompletedOnce wrap w trace := by
  have inv := tokens_of_reaches h hWrap
  exact {
    armed := inv.armedOnce
    completed := inv.completedOnce
    home := fun hArmed hCompleted => inv.home (.inr (.inl ⟨_, hCompleted⟩)) (.inl hArmed)
    next := fun hNext => attributed_of_step (step_of_next hNext) }

/-- Every wait is completed at most once and for a reason of its own: for tokens
that are counted without end, and for 64-bit tokens while they last. -/
theorem wait_completed_once :
    (∀ w trace, (machine .unbounded).Reaches w trace → CompletedOnce .unbounded w trace) ∧
    (∀ w trace, (machine .word).Reaches w trace → w.nextToken ≤ 2 ^ 64 →
      CompletedOnce .word w trace) := by
  constructor
  · intro w trace h
    exact completedOnce_of_reaches h Function.injective_id.injOn
  · intro w trace h hTokens
    exact completedOnce_of_reaches h (injOn_word hTokens)

/-- Readiness ends a wait with a timeout; the next wait on the same descriptor and
direction outlives the old timer and is ended by its own. -/
theorem wait_completed_once_stale_timer :
    ∃ (w : World) (trace : _), (machine .word).Reaches w trace ∧
      trace = [.created 0, .resumed 0, .armed 1 3 .read, .suspended 0, .onReady 3 .read,
        .completed 1 3 .read true, .resumed 0, .armed 2 3 .read, .suspended 0,
        .timerPopped ⟨5000000, 1, 3, .read⟩ 10000000, .timerPopped ⟨5000000, 2, 3, .read⟩ 10000000,
        .completed 2 3 .read false] ∧ CompletedOnce .word w trace := by
  let go : Label := .advance 0 none .none
  let labels : List Label :=
    [.create 0, .spawn (some 0) false, .run, go, go, .wait 3 .read 5 100 .none, go, go, go,
      .change 3 ⟨true, false, false, false, false⟩ false, .advance 0 (some [3]) .none, go, go, go,
      go, go, go,
      .wait 3 .read 5 100 .none, go, .tick 10000000, go, go, go]
  have hRun : ((machine .word).run (machine .word).start labels).map
      (fun r => (r.2, decide (r.1.nextToken ≤ 2 ^ 64))) =
        some ([.created 0, .resumed 0, .armed 1 3 .read, .suspended 0, .onReady 3 .read,
          .completed 1 3 .read true, .resumed 0, .armed 2 3 .read, .suspended 0,
          .timerPopped ⟨5000000, 1, 3, .read⟩ 10000000, .timerPopped ⟨5000000, 2, 3, .read⟩
          10000000,
          .completed 2 3 .read false], true) := by decide +kernel
  obtain ⟨⟨w, trace⟩, hRun, hEq⟩ := Option.map_eq_some_iff.mp hRun
  obtain ⟨rfl, hTokens⟩ := Prod.mk.inj hEq
  have hReaches := Machine.Reaches.start.run hRun
  exact ⟨w, _, hReaches, rfl, wait_completed_once.2 w _ hReaches (of_decide_eq_true hTokens)⟩

end Tinycoro.Io
