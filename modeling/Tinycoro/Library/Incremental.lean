import Mathlib.Data.List.Basic

/-! Deterministic consumers of a sequence that arrives in pieces. A consumer
reads one unit from the front of what has arrived, waits for more, or stops
with a result. Nothing here fixes the alphabet, the state or the result. -/
namespace Incremental

/-- What one look at the available input decides. -/
inductive Verdict (σ ρ α : Type*) where
  | wait
  | step (state : σ) (rest : List α)
  | stop (result : ρ) (state : σ) (rest : List α)

/-- A consumer whose steps shorten the input and do not depend on what comes
after the unit they read. Waiting and stopping carry no such promise. -/
structure Consumer (σ ρ α : Type*) where
  advance : σ → List α → Verdict σ ρ α
  progress : ∀ {s xs s' rest}, advance s xs = .step s' rest → rest.length < xs.length
  step_append : ∀ {s xs s' rest} (ys : List α), advance s xs = .step s' rest →
    advance s (xs ++ ys) = .step s' (rest ++ ys)

namespace Consumer

variable {σ ρ α : Type*} (M : Consumer σ ρ α)

/-- Take steps until the consumer waits (`none`) or stops. -/
def run (s : σ) (xs : List α) : Option ρ × σ × List α :=
  match _h : M.advance s xs with
  | .wait => (none, s, xs)
  | .stop result s' rest => (some result, s', rest)
  | .step s' rest => run s' rest
termination_by xs.length
decreasing_by exact M.progress _h

variable {M}

theorem run_of_wait {s : σ} {xs : List α} (h : M.advance s xs = .wait) :
    M.run s xs = (none, s, xs) := by
  rw [run]
  split <;> simp_all

theorem run_of_stop {s s' : σ} {xs rest : List α} {result : ρ}
    (h : M.advance s xs = .stop result s' rest) : M.run s xs = (some result, s', rest) := by
  rw [run]
  split <;> simp_all

theorem run_of_step {s s' : σ} {xs rest : List α} (h : M.advance s xs = .step s' rest) :
    M.run s xs = M.run s' rest := by
  rw [run]
  split <;> simp_all

/-- A consumer that waits has only taken steps. More input is then read from
where it stands, as if all of it had been there from the start. -/
theorem run_append_of_wait {s s' : σ} {xs rest : List α} (h : M.run s xs = (none, s', rest))
    (ys : List α) : M.run s (xs ++ ys) = M.run s' (rest ++ ys) := by
  induction hn : xs.length using Nat.strongRecOn generalizing s xs with
  | _ n ih =>
    cases hAdvance : M.advance s xs with
    | wait =>
      rw [run_of_wait hAdvance] at h
      cases h
      rfl
    | stop =>
      rw [run_of_stop hAdvance] at h
      cases h
    | step =>
      rw [run_of_step hAdvance] at h
      rw [run_of_step (M.step_append ys hAdvance)]
      exact ih _ (hn ▸ M.progress hAdvance) h rfl

variable (M) in
/-- A result that later input cannot revoke. -/
def Settled (result : ρ) : Prop :=
  ∀ ⦃s xs s' rest⦄, M.advance s xs = .stop result s' rest →
    ∀ ys, M.advance s (xs ++ ys) = .stop result s' (rest ++ ys)

theorem run_append_of_stop {s s' : σ} {xs rest : List α} {result : ρ} (hSettled : M.Settled result)
    (h : M.run s xs = (some result, s', rest)) (ys : List α) :
    M.run s (xs ++ ys) = (some result, s', rest ++ ys) := by
  induction hn : xs.length using Nat.strongRecOn generalizing s xs with
  | _ n ih =>
    cases hAdvance : M.advance s xs with
    | wait =>
      rw [run_of_wait hAdvance] at h
      cases h
    | stop =>
      rw [run_of_stop hAdvance] at h
      cases h
      exact run_of_stop (hSettled hAdvance ys)
    | step =>
      rw [run_of_step hAdvance] at h
      rw [run_of_step (M.step_append ys hAdvance)]
      exact ih _ (hn ▸ M.progress hAdvance) h rfl

/-- Every run ends in a state where the consumer waits or stops, and a
property kept by the steps holds there. -/
theorem run_induction {P : σ → List α → Prop} {Q : Option ρ × σ × List α → Prop}
    (hStep : ∀ {s xs s' rest}, P s xs → M.advance s xs = .step s' rest → P s' rest)
    (hWait : ∀ {s xs}, P s xs → M.advance s xs = .wait → Q (none, s, xs))
    (hStop : ∀ {s xs result s' rest}, P s xs → M.advance s xs = .stop result s' rest →
      Q (some result, s', rest)) {s : σ} {xs : List α} (h : P s xs) : Q (M.run s xs) := by
  induction hn : xs.length using Nat.strongRecOn generalizing s xs with
  | _ n ih =>
    cases hAdvance : M.advance s xs with
    | wait =>
      rw [run_of_wait hAdvance]
      exact hWait h hAdvance
    | stop =>
      rw [run_of_stop hAdvance]
      exact hStop h hAdvance
    | step =>
      rw [run_of_step hAdvance]
      exact ih _ (hn ▸ M.progress hAdvance) (hStep h hAdvance) rfl

variable (M) in
/-- Hand over the pieces one at a time and let the consumer run after each, up
to its first result. What was not consumed is returned with the pieces that
were not handed over. -/
def feed (s : σ) (xs : List α) : List (List α) → Option ρ × σ × List α
  | [] => (none, s, xs)
  | chunk :: chunks =>
    match M.run s (xs ++ chunk) with
    | (none, s', rest) => feed s' rest chunks
    | (some result, s', rest) => (some result, s', rest ++ chunks.flatten)

/-- Where the pieces are cut does not matter as long as the result, if there is
one, is settled. -/
theorem feed_eq_run {s : σ} {xs : List α} (chunk : List α) (chunks : List (List α))
    (h : ∀ result, (M.feed s xs (chunk :: chunks)).1 = some result → M.Settled result) :
    M.feed s xs (chunk :: chunks) = M.run s (xs ++ (chunk :: chunks).flatten) := by
  induction chunks generalizing s xs chunk with
  | nil =>
    rw [feed, List.flatten_singleton]
    split <;> simp_all [feed]
  | cons next chunks ih =>
    rw [List.flatten_cons, ← List.append_assoc]
    rw [feed] at h ⊢
    rcases hRun : M.run s (xs ++ chunk) with ⟨result, s', rest⟩
    cases result with
    | none =>
      simp only [hRun] at h ⊢
      rw [run_append_of_wait hRun]
      exact ih next h
    | some result =>
      simp only [hRun] at h ⊢
      exact (run_append_of_stop (h result rfl) hRun _).symm

/-- A result of the piecewise run is the result on some first pieces. -/
theorem feed_stop {s s' : σ} {xs rest : List α} {chunks : List (List α)} {result : ρ}
    (h : M.feed s xs chunks = (some result, s', rest)) :
    ∃ fed unfed left, chunks = fed ++ unfed ∧
      M.run s (xs ++ fed.flatten) = (some result, s', left) ∧ rest = left ++ unfed.flatten := by
  induction chunks generalizing s xs with
  | nil => cases h
  | cons chunk chunks ih =>
    rw [feed] at h
    rcases hRun : M.run s (xs ++ chunk) with ⟨result', s'', left⟩
    cases result' with
    | none =>
      simp only [hRun] at h
      obtain ⟨fed, unfed, left', rfl, hFed, rfl⟩ := ih h
      refine ⟨chunk :: fed, unfed, left', rfl, ?_, rfl⟩
      rw [List.flatten_cons, ← List.append_assoc, run_append_of_wait hRun, hFed]
    | some =>
      simp only [hRun] at h
      cases h
      exact ⟨[chunk], chunks, left, rfl, by simpa using hRun, rfl⟩

/-- If no choice of first pieces has another result, and the last choice has
this one, then so has the piecewise run, perhaps earlier. -/
theorem feed_result {s : σ} {xs : List α} {fed : List (List α)} (unfed : List (List α)) {result : ρ}
    (hFed : fed ≠ []) (hLast : (M.run s (xs ++ fed.flatten)).1 = some result)
    (hOther : ∀ first, first <+: fed → ∀ other, (M.run s (xs ++ first.flatten)).1 = some other →
      other = result) : (M.feed s xs (fed ++ unfed)).1 = some result := by
  induction fed generalizing s xs with
  | nil => exact absurd rfl hFed
  | cons chunk fed ih =>
    rw [List.cons_append, feed]
    rcases hRun : M.run s (xs ++ chunk) with ⟨other, s', rest⟩
    cases other with
    | some other =>
      have hChunk : (M.run s (xs ++ [chunk].flatten)).1 = some other := by simp [hRun]
      exact congrArg some (hOther [chunk] ⟨fed, rfl⟩ other hChunk)
    | none =>
      have hMove : ∀ first : List (List α),
          M.run s (xs ++ (chunk :: first).flatten) = M.run s' (rest ++ first.flatten) := by
        intro first
        rw [List.flatten_cons, ← List.append_assoc, run_append_of_wait hRun]
      dsimp only
      rw [hMove] at hLast
      cases fed with
      | nil =>
        -- The choice was this piece alone, on which the consumer waits.
        have hAgain := hMove []
        simp only [List.flatten_singleton, hRun] at hAgain
        rw [← hAgain] at hLast
        cases hLast
      | cons =>
        refine ih (by simp) hLast ?_
        intro first hFirst other hOtherRun
        refine hOther (chunk :: first) (List.cons_prefix_cons.mpr ⟨rfl, hFirst⟩) other ?_
        rw [hMove, hOtherRun]

end Consumer
end Incremental
