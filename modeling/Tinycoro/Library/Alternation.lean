import Mathlib.Data.List.Basic

/-! Traces in which every use needs an opening of its own: between two uses there
is an opening. -/
namespace Alternation

variable {ε : Type*} {opens uses : ε → Prop} {trace events : List ε}

/-- The last opening has not been used. -/
def Fresh (opens uses : ε → Prop) (trace : List ε) : Prop :=
  ∃ before opening after, trace = before ++ opening :: after ∧ opens opening ∧ ∀ e ∈ after, ¬uses e

def Alternates (opens uses : ε → Prop) (trace : List ε) : Prop :=
  ∀ before first between second after, trace = before ++ first :: (between ++ second :: after) →
    uses first → uses second → ∃ opening ∈ between, opens opening

theorem Fresh.append (h : Fresh opens uses trace) (hQuiet : ∀ e ∈ events, ¬uses e) :
    Fresh opens uses (trace ++ events) := by
  obtain ⟨before, opening, after, rfl, hOpens, hAfter⟩ := h
  refine ⟨before, opening, after ++ events, by simp, hOpens, fun e he => ?_⟩
  exact (List.mem_append.mp he).elim (hAfter e) (hQuiet e)

theorem Fresh.open (trace : List ε) {opening : ε} (hOpens : opens opening) :
    Fresh opens uses (trace ++ [opening]) :=
  ⟨trace, opening, [], rfl, hOpens, fun _ he => nomatch he⟩

theorem Alternates.nil : Alternates opens uses [] := by
  intro before first between second after hEq
  simp at hEq

/-- The last event of a trace is behind a given one, or is it. -/
theorem snoc_eq_split {e middle : ε} {before after : List ε}
    (h : trace ++ [e] = before ++ middle :: after) :
    (middle = e ∧ before = trace ∧ after = []) ∨ ∃ rest, after = rest ++ [e] ∧
      trace = before ++ middle :: rest := by
  rcases List.eq_nil_or_concat after with rfl | ⟨rest, last, rfl⟩
  · obtain ⟨hTrace, hLast⟩ := List.append_inj' h rfl
    exact .inl ⟨(List.singleton_inj.mp hLast).symm, hTrace.symm, rfl⟩
  · have hSplit : trace ++ [e] = (before ++ middle :: rest) ++ [last] := by simpa using h
    obtain ⟨hTrace, hLast⟩ := List.append_inj' hSplit rfl
    exact .inr ⟨rest, by rw [List.singleton_inj.mp hLast, List.concat_eq_append], hTrace⟩

/-- A use that is not behind the opening is before it. -/
theorem opening_mem {before between left right : List ε} {first opening : ε}
    (h : before ++ first :: between = left ++ opening :: right) (hNe : first ≠ opening)
    (hRight : first ∉ right) : opening ∈ between := by
  induction before generalizing left with
  | nil =>
    cases left with
    | nil => exact absurd (List.cons.inj h).1 hNe
    | cons _ left => exact (List.cons.inj h).2 ▸ List.mem_append_right left List.mem_cons_self
  | cons _ before ih =>
    cases left with
    | nil =>
        exact absurd ((List.cons.inj h).2 ▸ List.mem_append_right before List.mem_cons_self) hRight
    | cons => exact ih (List.cons.inj h).2

theorem Alternates.quiet (h : Alternates opens uses trace) {e : ε} (hQuiet : ¬uses e) :
    Alternates opens uses (trace ++ [e]) := by
  intro before first between second after hEq hFirst hSecond
  rw [← List.cons_append, ← List.append_assoc] at hEq
  rcases snoc_eq_split hEq with ⟨rfl, -⟩ | ⟨rest, -, hTrace⟩
  · exact absurd hSecond hQuiet
  · exact h _ _ _ _ _ (by simpa using hTrace) hFirst hSecond

theorem Alternates.append (h : Alternates opens uses trace) (hQuiet : ∀ e ∈ events, ¬uses e) :
    Alternates opens uses (trace ++ events) := by
  induction events generalizing trace with
  | nil => rwa [List.append_nil]
  | cons e events ih =>
    rw [List.append_cons]
    exact ih (h.quiet (hQuiet e List.mem_cons_self))
      (fun x hx => hQuiet x (List.mem_cons_of_mem e hx))

/-- A fresh opening may be used. -/
theorem Alternates.use (h : Alternates opens uses trace) (hFresh : Fresh opens uses trace)
    (hApart : ∀ {e}, opens e → ¬uses e) (use : ε) : Alternates opens uses (trace ++ [use]) := by
  intro before first between second after hEq hFirst hSecond
  rw [← List.cons_append, ← List.append_assoc] at hEq
  rcases snoc_eq_split hEq with ⟨-, hTrace, -⟩ | ⟨rest, -, hTrace⟩
  · obtain ⟨left, opening, right, rfl, hOpens, hRight⟩ := hFresh
    refine ⟨opening, opening_mem hTrace ?_ (fun hMem => hRight first hMem hFirst), hOpens⟩
    rintro rfl
    exact hApart hOpens hFirst
  · exact h _ _ _ _ _ (by simpa using hTrace) hFirst hSecond

end Alternation
