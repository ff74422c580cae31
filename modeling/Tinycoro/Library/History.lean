import Mathlib.Data.List.Basic

/-! Properties of a trace that relate each event to the events before it. -/
namespace History

variable {ε : Type*} {R : List ε → ε → Prop} {trace events : List ε}

/-- Every event stands in `R` to its past. -/
def Each (R : List ε → ε → Prop) (trace : List ε) : Prop :=
  ∀ before e after, trace = before ++ e :: after → R before e

@[simp] theorem each_nil : Each R [] := by
  intro before e after hEq
  simp at hEq

@[simp] theorem each_cons {e : ε} :
    Each R (e :: events) ↔ R [] e ∧ Each (fun past => R (e :: past)) events := by
  constructor
  · intro h
    refine ⟨h [] e events rfl, ?_⟩
    rintro before e' after rfl
    exact h (e :: before) e' after rfl
  · rintro ⟨hFirst, hLater⟩ before e' after hEq
    cases before with
    | nil =>
      cases hEq
      exact hFirst
    | cons first before =>
      cases hEq
      exact hLater before e' after rfl

/-- New events are judged with the old ones as their past. -/
theorem each_append :
    Each R (trace ++ events) ↔ Each R trace ∧ Each (fun past => R (trace ++ past)) events := by
  induction trace generalizing R with
  | nil => simp
  | cons e trace ih => simp only [List.cons_append, each_cons, ih, and_assoc]

theorem Each.imp {R' : List ε → ε → Prop} (h : Each R trace)
    (hImp : ∀ past e, R past e → R' past e) : Each R' trace :=
  fun before e after hEq => hImp before e (h before e after hEq)

end History
