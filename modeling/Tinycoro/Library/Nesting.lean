import Mathlib.Order.WellFounded

/-! Things inside each other. `inside a b` says that `b` is directly in `a`; nothing is in
itself, however deep. Changes keep this as long as what is put somewhere is not around the
place it is put in. -/
namespace Nesting

variable {α : Type*} {inside inside' : α → α → Prop}

/-- Things of an outer layer, which are only in things of that layer, receive things that
are not of the layer. -/
theorem layered (wf : WellFounded inside) (outer : α → Prop)
    (hUp : ∀ {a b}, inside a b → outer b → outer a)
    (hNew : ∀ {a b}, inside' a b → inside a b ∨ outer a ∧ ¬outer b) : WellFounded inside' := by
  have hOuter : ∀ b, outer b → Acc inside' b := by
    intro b
    induction b using wf.induction with
    | _ b ih =>
      intro hb
      refine ⟨b, fun a hInside => ?_⟩
      rcases hNew hInside with hOld | ⟨-, hNot⟩
      · exact ih a hOld (hUp hOld hb)
      · exact absurd hb hNot
  refine ⟨fun b => ?_⟩
  induction b using wf.induction with
  | _ b ih =>
    refine ⟨b, fun a hInside => ?_⟩
    rcases hNew hInside with hOld | ⟨ha, -⟩
    · exact ih a hOld
    · exact hOuter a ha

/-- Something that is in nothing receives something else. -/
theorem receive (wf : WellFounded inside) {a b : α} (hFree : ∀ c, ¬inside c a) (hNe : b ≠ a)
    (hNew : ∀ {c d}, inside' c d → inside c d ∨ c = a ∧ d = b) : WellFounded inside' := by
  refine layered wf (· = a) (fun h hEq => absurd (hEq ▸ h) (hFree _)) fun h => (hNew h).imp_right ?_
  rintro ⟨rfl, rfl⟩
  exact ⟨rfl, hNe⟩

/-- What is in something of a set, or in nothing, is not there if the set has only things
that are in others. -/
theorem eq_empty (wf : WellFounded inside) (members : Set α)
    (h : ∀ b ∈ members, ∃ a ∈ members, inside a b) : members = ∅ := by
  refine Set.eq_empty_of_forall_notMem fun b => ?_
  induction b using wf.induction with
  | _ b ih =>
    intro hMem
    obtain ⟨a, ha, hInside⟩ := h b hMem
    exact ih a hInside ha

end Nesting
