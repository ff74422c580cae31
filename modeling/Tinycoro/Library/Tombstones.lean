import Mathlib.Data.List.Perm.Basic
import Mathlib.Order.Lattice

/-! A priority queue from which entries are taken lazily. An entry that is no
longer wanted stays until it comes to the top and is popped there. Which of
several least entries is on top is left open. -/
namespace Tombstones

variable {α κ : Type*} [LinearOrder κ]

/-- The entry at this index can be the one on top. -/
def Top (key : α → κ) (entries : List α) (i : Nat) : Prop :=
  ∃ e, entries[i]? = some e ∧ ∀ other ∈ entries, key e ≤ key other

/-- A choice of the top in every queue that has one. -/
def Picks (key : α → κ) (pick : List α → Nat) : Prop :=
  ∀ entries, entries ≠ [] → Top key entries (pick entries)

/-- Pop what is not live until something live is on top. -/
def prune (live : α → Bool) (pick : List α → Nat) : Nat → List α → List α
  | 0, entries => entries
  | n + 1, entries =>
    match entries[pick entries]? with
    | none => entries
    | some e => if live e then entries else prune live pick n (entries.eraseIdx (pick entries))

variable {key : α → κ} {live : α → Bool} {pick : List α → Nat}

variable {i : Nat}

theorem length_eraseIdx_of_some {entries : List α} {e : α} (h : entries[i]? = some e) :
    (entries.eraseIdx i).length + 1 = entries.length := by
  obtain ⟨hLt, -⟩ := List.getElem?_eq_some_iff.mp h
  rw [List.length_eraseIdx_of_lt hLt]
  omega

theorem perm_cons_eraseIdx {entries : List α} {e : α} (h : entries[i]? = some e) :
    entries.Perm (e :: entries.eraseIdx i) := by
  obtain ⟨hLt, rfl⟩ := List.getElem?_eq_some_iff.mp h
  exact (List.getElem_cons_eraseIdx_perm hLt).symm

/-- An entry that is popped is missed only where it was counted. -/
theorem filter_eraseIdx {entries : List α} {e : α} (h : entries[i]? = some e) {p : α → Bool}
    (hOut : p e = false) : (entries.eraseIdx i).filter p = entries.filter p := by
  obtain ⟨hLt, rfl⟩ := List.getElem?_eq_some_iff.mp h
  rw [List.eraseIdx_eq_take_drop_succ, List.filter_append]
  conv_rhs => rw [← List.take_append_drop i entries, List.filter_append, List.drop_eq_getElem_cons
    hLt, List.filter_cons_of_neg (by simpa using hOut)]

/-- Only entries that are not live are popped. -/
theorem exists_popped (live : α → Bool) (pick : List α → Nat) (n : Nat) (entries : List α) :
    ∃ popped, entries.Perm (popped ++ prune live pick n entries) ∧
    ∀ e ∈ popped, live e = false := by
  induction n generalizing entries with
  | zero => exact ⟨[], .refl _, nofun⟩
  | succ n ih =>
    unfold prune
    cases hTop : entries[pick entries]? with
    | none => exact ⟨[], .refl _, nofun⟩
    | some e =>
      dsimp only
      cases hLive : live e with
      | true =>
        rw [if_pos rfl]
        exact ⟨[], .refl _, nofun⟩
      | false =>
        rw [if_neg Bool.false_ne_true]
        obtain ⟨popped, hPerm, hPopped⟩ := ih (entries.eraseIdx (pick entries))
        refine ⟨e :: popped, (perm_cons_eraseIdx hTop).trans (hPerm.cons e), ?_⟩
        rintro x (_ | ⟨_, hx⟩)
        · exact hLive
        · exact hPopped x hx

theorem sublist_prune (live : α → Bool) (pick : List α → Nat) (n : Nat) (entries : List α) :
    (prune live pick n entries).Sublist entries := by
  induction n generalizing entries with
  | zero => exact .refl _
  | succ n ih =>
    unfold prune
    split
    · exact .refl _
    · split_ifs
      · exact .refl _
      · exact (ih _).trans (List.eraseIdx_sublist ..)

/-- What is counted of the live entries only is not changed by pruning. -/
theorem filter_prune {n : Nat} {entries : List α} {p : α → Bool}
    (h : ∀ e ∈ entries, live e = false → p e = false) :
    (prune live pick n entries).filter p = entries.filter p := by
  induction n generalizing entries with
  | zero => rfl
  | succ n ih =>
    unfold prune
    cases hTop : entries[pick entries]? with
    | none => rfl
    | some e =>
      dsimp only
      cases hLive : live e with
      | true => rw [if_pos rfl]
      | false =>
        rw [if_neg Bool.false_ne_true, ih (fun other hOther =>
          h other (List.mem_of_mem_eraseIdx hOther))]
        exact filter_eraseIdx hTop (h e (List.mem_of_getElem? hTop) hLive)

/-- With enough rounds, something live is on top unless nothing is left. -/
theorem live_of_top {n : Nat} {entries : List α} (hRounds : entries.length ≤ n) {e : α}
    (h : (prune live pick n entries)[pick (prune live pick n entries)]? = some e) :
    live e = true := by
  induction n generalizing entries with
  | zero =>
    rw [List.length_eq_zero_iff.mp (Nat.le_zero.mp hRounds)] at h
    simp [prune] at h
  | succ n ih =>
    unfold prune at h
    cases hTop : entries[pick entries]? with
    | none => simp [hTop] at h
    | some top =>
      simp only [hTop] at h
      cases hLive : live top with
      | true =>
        simp only [hLive, if_true, hTop, Option.some.injEq] at h
        exact h ▸ hLive
      | false =>
        simp only [hLive, Bool.false_eq_true, if_false] at h
        have hLength := length_eraseIdx_of_some hTop
        exact ih (by omega) h

/-- What is on top after pruning: nothing, if nothing was live, or the least of
the live entries. -/
theorem prune_top (live : α → Bool) (hPick : Picks key pick) (entries : List α) :
    ((prune live pick entries.length entries)[pick (prune live pick entries.length entries)]? =
      none ∧ ∀ e ∈ entries, live e = false) ∨
    ∃ e, (prune live pick entries.length entries)[pick (prune live pick entries.length entries)]? =
      some e ∧ e ∈ entries ∧ live e = true ∧ ∀ other ∈ entries, live other = true →
      key e ≤ key other := by
  obtain ⟨popped, hPerm, hPopped⟩ := exists_popped live pick entries.length entries
  generalize hLeft : prune live pick entries.length entries = left at hPerm ⊢
  cases hEmpty : left with
  | nil =>
    left
    rw [hEmpty, List.append_nil] at hPerm
    exact ⟨rfl, fun e he => hPopped e (hPerm.mem_iff.mp he)⟩
  | cons =>
    right
    rw [← hEmpty]
    obtain ⟨e, hTop, hLeast⟩ := hPick left (by simp [hEmpty])
    refine ⟨e, hTop, hPerm.mem_iff.mpr (List.mem_append_right _ (List.mem_of_getElem? hTop)), ?_,
      ?_⟩
    · rw [← hLeft] at hTop
      exact live_of_top (Nat.le_refl _) hTop
    · intro other hOther hLive
      rcases List.mem_append.mp (hPerm.mem_iff.mp hOther) with hGone | hThere
      · rw [hPopped other hGone] at hLive
        cases hLive
      · exact hLeast other hThere

end Tombstones
