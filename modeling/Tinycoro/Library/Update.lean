import Mathlib.Logic.Function.Basic

/-! Partial maps that change at one place. -/
namespace Update

variable {α β : Type*} [DecidableEq α] {f : α → Option β} {x c : α} {a b : β}

/-- An entry behind a change is the one put there, or an old one elsewhere. -/
theorem some_cases (h : Function.update f x (some a) c = some b) :
    c = x ∧ a = b ∨ c ≠ x ∧ f c = some b := by
  by_cases hEq : c = x
  · rw [hEq, Function.update_self] at h
    exact .inl ⟨hEq, Option.some.inj h⟩
  · rw [Function.update_of_ne hEq] at h
    exact .inr ⟨hEq, h⟩

/-- An entry behind a removal is an old one elsewhere. -/
theorem of_none (h : Function.update f x none c = some b) : c ≠ x ∧ f c = some b := by
  by_cases hEq : c = x
  · rw [hEq, Function.update_self] at h
    cases h
  · rw [Function.update_of_ne hEq] at h
    exact ⟨hEq, h⟩

end Update
