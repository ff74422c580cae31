import Mathlib.Data.List.TakeWhile
import Tinycoro.Library.Alternation

/-! Accounts of a resource that is taken and given back again and again. The two events
take turns, and the account says whether the resource is held now. -/
namespace Ledger

variable {ε : Type*} {taken returned : ε} {held : Bool} {trace events : List ε}

/-- The account after a trace. -/
inductive Balanced (taken returned : ε) : Bool → List ε → Prop where
  | nil : Balanced taken returned false []
  | other {held : Bool} {trace : List ε} {e : ε} (prior : Balanced taken returned held trace)
      (hTaken : e ≠ taken) (hReturned : e ≠ returned) : Balanced taken returned held (trace ++ [e])
  | take {trace : List ε} (prior : Balanced taken returned false trace) :
      Balanced taken returned true (trace ++ [taken])
  | give {trace : List ε} (prior : Balanced taken returned true trace) :
      Balanced taken returned false (trace ++ [returned])

theorem Balanced.others (h : Balanced taken returned held trace)
    (hEvents : ∀ e ∈ events, e ≠ taken ∧ e ≠ returned) :
    Balanced taken returned held (trace ++ events) := by
  induction events generalizing trace with
  | nil => rwa [List.append_nil]
  | cons e events ih =>
    rw [List.append_cons]
    obtain ⟨hTaken, hReturned⟩ := hEvents e List.mem_cons_self
    exact ih (h.other hTaken hReturned) fun x hx => hEvents x (List.mem_cons_of_mem e hx)

section Since

variable [DecidableEq ε]

/-- What happens until the resource is taken again. -/
def turn (taken : ε) (after : List ε) : List ε := after.takeWhile (· ≠ taken)

theorem turn_of_notMem {after : List ε} (h : taken ∉ after) : turn taken after = after := by
  refine List.takeWhile_eq_self_iff.mpr fun e he => decide_eq_true ?_
  rintro rfl
  exact h he

/-- Once the resource was taken again, the turn is over. -/
theorem turn_append_of_mem {after : List ε} (h : taken ∈ after) (later : List ε) :
    turn taken (after ++ later) = turn taken after := by
  induction after with
  | nil => cases h
  | cons e after ih =>
    unfold turn at ih ⊢
    by_cases hSame : e = taken
    · simp [hSame]
    · have hMem : taken ∈ after := (List.mem_cons.mp h).resolve_left (Ne.symm hSame)
      rw [List.cons_append, List.takeWhile_cons_of_pos (by simpa using hSame), ih hMem,
        List.takeWhile_cons_of_pos (by simpa using hSame)]

/-- Where the resource was taken, it was given back once before it was taken again, or
it is the last time and the resource is still held. -/
theorem Balanced.settled (h : Balanced taken returned held trace) (hNe : taken ≠ returned)
    {before after : List ε} (hSplit : trace = before ++ taken :: after) :
    (turn taken after).count returned = 1 ∧ (taken ∉ after → held = false) ∨
      (turn taken after).count returned = 0 ∧ taken ∉ after ∧ held = true := by
  induction h generalizing after with
  | nil => simp at hSplit
  | @other held trace e prior hTaken hReturned ih =>
    rcases Alternation.snoc_eq_split hSplit with ⟨hEq, -⟩ | ⟨rest, rfl, hTrace⟩
    · exact absurd hEq.symm hTaken
    · rcases ih hTrace with ⟨hOnce, hFree⟩ | ⟨hNever, hLast, hHeld⟩
      · left
        by_cases hMem : taken ∈ rest
        · exact ⟨by rw [turn_append_of_mem hMem, hOnce], fun hNot => absurd (List.mem_append_left _
            hMem) hNot⟩
        · rw [turn_of_notMem hMem] at hOnce
          rw [turn_of_notMem (by simp [hMem, hTaken.symm])]
          exact ⟨by simp [List.count_append, hOnce, hReturned], fun _ => hFree hMem⟩
      · right
        rw [turn_of_notMem hLast] at hNever
        rw [turn_of_notMem (by simp [hLast, hTaken.symm])]
        exact ⟨by simp [List.count_append, hNever, hReturned], by simp [hLast, hTaken.symm], hHeld⟩
  | @take trace prior ih =>
    rcases Alternation.snoc_eq_split hSplit with ⟨-, -, rfl⟩ | ⟨rest, rfl, hTrace⟩
    · exact .inr ⟨rfl, List.not_mem_nil, rfl⟩
    · rcases ih hTrace with ⟨hOnce, -⟩ | ⟨-, -, hHeld⟩
      · refine .inl ⟨?_, fun hNot => absurd (by simp) hNot⟩
        by_cases hMem : taken ∈ rest
        · rw [turn_append_of_mem hMem, hOnce]
        · rw [turn_of_notMem hMem] at hOnce
          have hTurn : turn taken (rest ++ [taken]) = rest := by
            have hRest := turn_of_notMem hMem
            unfold turn at hRest ⊢
            rw [List.takeWhile_append, hRest]
            simp
          rw [hTurn, hOnce]
      · cases hHeld
  | @give trace prior ih =>
    rcases Alternation.snoc_eq_split hSplit with ⟨hEq, -⟩ | ⟨rest, rfl, hTrace⟩
    · exact absurd hEq hNe
    · rcases ih hTrace with ⟨hOnce, hFree⟩ | ⟨hNever, hLast, -⟩
      · by_cases hMem : taken ∈ rest
        · exact .inl ⟨by rw [turn_append_of_mem hMem, hOnce], fun _ => rfl⟩
        · cases hFree hMem
      · left
        rw [turn_of_notMem hLast] at hNever
        rw [turn_of_notMem (by simp [hLast, hNe])]
        exact ⟨by simp [List.count_append, hNever], fun _ => rfl⟩

end Since

end Ledger
