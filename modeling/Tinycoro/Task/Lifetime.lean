import Tinycoro.Task.Ownership

/-! The lifetime of a coroutine frame: from the call to its one destruction it has one
owner, and no handle that the scheduler still has is older than its frame. This holds
unless code in the destructor of a frame uses the `Task` that is being reset, whose
`handle_` is not cleared yet, or spawns while `~IoContext` destroys the roots. -/
namespace Tinycoro.Task

open Io Transition World Threads Placement Ledger

/-- What can own a frame. -/
inductive Owner where
  | task (object : Nat)
  | awaiter (object frame : Nat)
  | roots
  deriving DecidableEq

namespace State

def Owns (s : State) : Owner → Nat → Prop
  | .task object, h => ∃ x, s.objects.lookup object = some x ∧ x.kind = .task ∧ x.handle = some h
  | .awaiter object frame, h =>
    ∃ x, s.objects.lookup object = some x ∧ x.kind = .awaiter ∧ x.scope = some frame ∧
      x.handle = some h
  | .roots, h => h ∈ s.world.roots

/-- The scheduler has the handle in `ready_` or in a wait slot. -/
def Scheduled (s : State) (h : Nat) : Prop :=
  h ∈ s.world.ready ∨ ∃ place, s.world.slots place = some h

/-- Nothing is left that the program has to destroy: the executor is gone, and so is
every `Task` that is not in a frame. -/
def Released (s : State) : Prop :=
  s.destructed = true ∧ s.busy = false ∧ ∀ o x, s.objects.lookup o = some x → x.scope ≠ none

end State

section Owners

variable {wrap : Wrap} {s : State} {queue : List Nat} {h : Nat} {owner : Owner}

/-- Where an owner keeps the handle. -/
def Owner.place (h : Nat) : Owner → Nat ⊕ Nat
  | .task object => .inl object
  | .awaiter object _ => .inl object
  | .roots => .inr h

end Owners

section Account

variable {s s' : State} {trace events : List Event} {h : Nat}

/-- The frame is there if and only if it was created and not destroyed since, and it was
never destroyed without being there. -/
def Accounted (s : State) (trace : List Event) (h : Nat) : Prop :=
  ∃ held, Balanced (.created h) (.destroyed h) held trace ∧ (held = true ↔ h ∈ s.live)

theorem Accounted.step (inv : Accounted s trace h) (hAccount : Account s s' events) :
    Accounted s' (trace ++ events) h := by
  obtain ⟨held, hBalanced, hHeld⟩ := inv
  cases hAccount with
  | same hLive =>
    rw [List.append_nil]
    exact ⟨held, hBalanced, by rw [hLive, hHeld]⟩
  | @created a hNew hLive =>
    by_cases hEq : a = h
    · subst hEq
      have hFalse : held = false := Bool.eq_false_of_not_eq_true fun hTrue => hNew (hHeld.mp hTrue)
      rw [hFalse] at hBalanced
      exact ⟨true, hBalanced.take, by simp [hLive]⟩
    · refine ⟨held, hBalanced.other (by simpa using hEq) nofun, ?_⟩
      rw [hHeld, hLive, Set.mem_insert_iff, or_iff_right (Ne.symm hEq)]
  | @destroyed a hOld hLive =>
    by_cases hEq : a = h
    · subst hEq
      rw [hHeld.mpr hOld] at hBalanced
      exact ⟨false, hBalanced.give, by simp [hLive]⟩
    · refine ⟨held, hBalanced.other nofun (by simpa using hEq), ?_⟩
      rw [hHeld, hLive, Set.mem_sdiff, Set.mem_singleton_iff, and_iff_left (Ne.symm hEq)]

theorem Accounted.once (inv : Accounted s trace h) {before after : List Event}
    (hSplit : trace = before ++ .created h :: after) :
    (turn (.created h) after).count (.destroyed h) = 1 ∨
      (turn (.created h) after).count (.destroyed h) = 0 ∧ h ∈ s.live := by
  obtain ⟨held, hBalanced, hHeld⟩ := inv
  rcases hBalanced.settled nofun hSplit with ⟨hOnce, -⟩ | ⟨hNever, -, hStill⟩
  · exact .inl hOnce
  · exact .inr ⟨hNever, hHeld.mp hStill⟩

end Account

section Finish

variable {wrap : Wrap}

end Finish

section Run

variable {wrap : Wrap} {s : State} {trace : List Event} {h : Nat}

theorem Inv.released (inv : Inv wrap s) (hReleased : s.Released) : s.live = ∅ := by
  obtain ⟨hDestructed, hBusy, hScopes⟩ := hReleased
  have hDying := dying_of_not_busy hBusy
  have hRoots : s.world.roots = ∅ := by simpa [State.busy, hDying, hDestructed] using hBusy
  apply Nesting.eq_empty inv.holds.owned.nested
  intro h hLive
  rcases inv.holds.owned.placed.mem_iff.mp hLive with hQueue | ⟨o | root, hHolder⟩
  · rw [hDying] at hQueue
    cases hQueue
  · obtain ⟨x, hCell, hHandle⟩ := Option.bind_eq_some_iff.mp hHolder
    obtain ⟨p, hScope⟩ := Option.ne_none_iff_exists'.mp (hScopes o x hCell)
    exact ⟨p, inv.holds.owned.around hCell hScope, o, x, hCell, hScope, hHandle⟩
  · simp [holder, hRoots] at hHolder

/-- Frame 0 is spawned with frame 1 as an argument, and awaits it. Frame 1 waits for a
descriptor. -/
def awaiting : List Label :=
  let advance := .io (.advance (fun _ => 0) none .none)
  [.call 1 11 none [], .call 0 10 none [(11, 12)], .moveConstruct 13 10 none, .moveAssign 13 13,
    .spawn 13 false, .destroy 10, .destroy 11, .destroy 13, .io .run, advance, advance,
    .await 12 14,
    .io (.wait 3 .read (-1) 100 .none), .io .stop, advance, advance, advance, advance]

end Run

end Tinycoro.Task
