import Mathlib.Logic.Relation
import Mathlib.Logic.Function.Basic

/-! Threads of control made of calls. Each node calls at most one other and is
called by at most one, so that from a node nobody calls one thread leads to a
node that calls nobody, its tip. Threads grow and shrink at the tip only. -/
namespace Threads

variable {α : Type*}

/-- The second node is on the thread below the first. -/
def Leads (callee : α → Option α) : α → α → Prop :=
  Relation.ReflTransGen (fun caller node => callee caller = some node)

variable {callee : α → Option α} {a b c root root' tip tip' : α}

theorem Leads.refl (a : α) : Leads callee a a := Relation.ReflTransGen.refl

theorem Leads.call (h : Leads callee a b) (hCall : callee b = some c) : Leads callee a c :=
  Relation.ReflTransGen.tail h hCall

theorem Leads.tip_eq (h : Leads callee tip a) (hTip : callee tip = none) : a = tip := by
  rcases Relation.ReflTransGen.cases_head h with rfl | ⟨b, hCall, -⟩
  · rfl
  · rw [hTip] at hCall
    cases hCall

/-- A thread has one tip. -/
theorem tip_unique (h : Leads callee a tip) (h' : Leads callee a tip') (hTip : callee tip = none)
    (hTip' : callee tip' = none) : tip = tip' := by
  have hRight : Relator.RightUnique (fun caller node => callee caller = some node) := by
    intro x y z hy hz
    rw [hy] at hz
    exact Option.some.inj hz
  rcases h.total_of_right_unique hRight h' with hLeads | hLeads
  · exact (Leads.tip_eq hLeads hTip).symm
  · exact Leads.tip_eq hLeads hTip'

/-- What a node is to the others: on no thread, at the head of one, or called. -/
inductive Role (α : Type*) where
  | free
  | root
  | child (parent : α)
  deriving DecidableEq

/-- Calls and roles agree, every root heads a thread with a tip, and every child
is on the thread of a root. -/
structure Hung (callee : α → Option α) (role : α → Option (Role α)) : Prop where
  linked : ∀ {parent a}, callee parent = some a ↔ role a = some (.child parent)
  tip : ∀ {root}, role root = some .root → ∃ tip, Leads callee root tip ∧ callee tip = none
  owned : ∀ {a parent}, role a = some (.child parent) → ∃ root, role root = some .root ∧
    Leads callee root a

namespace Hung

variable {role : α → Option (Role α)}

theorem empty : Hung (fun _ : α => none) (fun _ => none) where
  linked := by simp
  tip h := nomatch h
  owned h := nomatch h

theorem not_called (h : Hung callee role) (hRoot : role root = some .root) (a : α) :
    callee a ≠ some root := by
  intro hCall
  rw [h.linked, hRoot] at hCall
  cases hCall

/-- A node is on one thread only. -/
theorem root_unique (h : Hung callee role) (hRoot : role root = some .root)
    (hRoot' : role root' = some .root) (hLeads : Leads callee root a)
    (hLeads' : Leads callee root' a) : root = root' := by
  -- both threads are walked back from the shared node
  induction hLeads with
  | refl =>
    rcases Relation.ReflTransGen.cases_tail hLeads' with hEq | ⟨b, -, hCall⟩
    · exact hEq
    · exact absurd hCall (h.not_called hRoot b)
  | tail _ hCall ih =>
    rcases Relation.ReflTransGen.cases_tail hLeads' with hEq | ⟨b, hLeads', hCall'⟩
    · rw [hEq] at hCall
      exact absurd hCall (h.not_called hRoot' _)
    · have hSame := h.linked.mp hCall'
      rw [h.linked.mp hCall] at hSame
      cases hSame
      exact ih hLeads'

end Hung

variable [DecidableEq α]

/-- A call at a tip keeps what was on the threads. -/
theorem Leads.extend (h : Leads callee a b) (hTip : callee c = none) (node : α) :
    Leads (Function.update callee c (some node)) a b := by
  induction h with
  | refl => exact .refl a
  | @tail x y _ hCall ih =>
    have hNe : x ≠ c := by
      rintro rfl
      rw [hTip] at hCall
      cases hCall
    exact ih.call ((Function.update_of_ne hNe ..).trans hCall)

/-- A return to the caller of a tip keeps all but the tip. -/
theorem Leads.retract (h : Leads callee a b) {caller : α} (hCall : callee caller = some tip)
    (hTip : callee tip = none) (hNe : b ≠ tip) :
    Leads (Function.update callee caller none) a b := by
  induction h with
  | refl => exact .refl a
  | @tail x y _ hStep ih =>
    have hInner : x ≠ tip := by
      rintro rfl
      rw [hTip] at hStep
      cases hStep
    have hOther : x ≠ caller := by
      rintro rfl
      rw [hCall] at hStep
      exact hNe (Option.some.inj hStep).symm
    exact (ih hInner).call ((Function.update_of_ne hOther ..).trans hStep)

namespace Hung

variable {role : α → Option (Role α)}

/-- A node that calls nobody takes another role, comes or goes, but a child stays
a child. -/
theorem assign (h : Hung callee role) (hTip : callee a = none) {new : Option (Role α)}
    (hChild : ∀ {parent}, new = some (.child parent) ↔ role a = some (.child parent)) :
    Hung callee (Function.update role a new) := by
  have hLinked {parent x : α} :
      role x = some (.child parent) ↔ Function.update role a new x = some (.child parent) := by
    by_cases hEq : x = a
    · rw [hEq, Function.update_self, hChild]
    · rw [Function.update_of_ne hEq]
  constructor
  · exact fun {_ _} => h.linked.trans hLinked
  · intro root hRoot
    by_cases hEq : root = a
    · exact ⟨root, .refl root, hEq ▸ hTip⟩
    · rw [Function.update_of_ne hEq] at hRoot
      exact h.tip hRoot
  · intro x parent hRole
    obtain ⟨root, hRoot, hLeads⟩ := h.owned (hLinked.mpr hRole)
    have hNe : root ≠ a := by
      -- a root that changes is a tip, so the child would be that root
      rintro rfl
      obtain rfl := hLeads.tip_eq hTip
      rw [← hLinked, hRoot] at hRole
      cases hRole
    exact ⟨root, (Function.update_of_ne hNe ..).trans hRoot, hLeads⟩

/-- A node at its tip calls a free one. -/
theorem call (h : Hung callee role) (hTip : callee a = none)
    (hStarted : role a ≠ none ∧ role a ≠ some .free) (hFree : role c = some .free)
    (hTip' : callee c = none) :
    Hung (Function.update callee a (some c)) (Function.update role c (some (.child a))) := by
  have hNe : a ≠ c := fun hEq => hStarted.2 (hEq ▸ hFree)
  have hRoots {x : α} : Function.update role c (some (.child a)) x = some .root ↔
      role x = some .root := by
    by_cases hEq : x = c
    · simp [hEq, hFree]
    · rw [Function.update_of_ne hEq]
  have hCalled {root : α} (hLeads : Leads callee root a) : Leads (Function.update callee a (some c))
      root c :=
    (hLeads.extend hTip c).call (Function.update_self ..)
  constructor
  · intro parent x
    by_cases hC : x = c
    · subst hC
      rw [Function.update_self, Option.some.injEq, Role.child.injEq]
      by_cases hA : parent = a
      · simp [hA]
      · rw [Function.update_of_ne hA, h.linked, hFree]
        simp [Ne.symm hA]
    · rw [Function.update_of_ne hC]
      by_cases hA : parent = a
      · subst hA
        rw [Function.update_self, ← h.linked, hTip]
        simp [Ne.symm hC]
      · rw [Function.update_of_ne hA, h.linked]
  · intro root hRoot
    obtain ⟨tip, hLeads, hEnd⟩ := h.tip (hRoots.mp hRoot)
    by_cases hEq : tip = a
    · subst hEq
      exact ⟨c, hCalled hLeads, (Function.update_of_ne hNe.symm ..).trans hTip'⟩
    · exact ⟨tip, hLeads.extend hTip c, (Function.update_of_ne hEq ..).trans hEnd⟩
  · intro x parent hRole
    by_cases hC : x = c
    · subst hC
      obtain ⟨root, hRoot, hLeads⟩ : ∃ root, role root = some .root ∧ Leads callee root a := by
        cases hRole : role a with
        | none => exact absurd hRole hStarted.1
        | some r =>
          cases r with
          | free => exact absurd hRole hStarted.2
          | root => exact ⟨a, hRole, .refl a⟩
          | child => exact h.owned hRole
      exact ⟨root, hRoots.mpr hRoot, hCalled hLeads⟩
    · rw [Function.update_of_ne hC] at hRole
      obtain ⟨root, hRoot, hLeads⟩ := h.owned hRole
      exact ⟨root, hRoots.mpr hRoot, hLeads.extend hTip c⟩

/-- The node at the tip of a thread ends and its caller becomes the tip. -/
theorem ret (h : Hung callee role) {caller : α} (hCall : callee caller = some tip)
    (hTip : callee tip = none) :
    Hung (Function.update callee caller none) (Function.update role tip none) := by
  have hRole := h.linked.mp hCall
  have hNe : caller ≠ tip := by
    rintro rfl
    rw [hTip] at hCall
    cases hCall
  have hRoots {x : α} : Function.update role tip none x = some .root ↔ role x = some .root := by
    by_cases hEq : x = tip
    · simp [hEq, hRole]
    · rw [Function.update_of_ne hEq]
  constructor
  · intro parent x
    by_cases hX : x = tip
    · subst hX
      rw [Function.update_self]
      by_cases hP : parent = caller
      · simp [hP]
      · rw [Function.update_of_ne hP, h.linked, hRole]
        simp [Ne.symm hP]
    · rw [Function.update_of_ne hX]
      by_cases hP : parent = caller
      · subst hP
        rw [Function.update_self, ← h.linked, hCall]
        simp [Ne.symm hX]
      · rw [Function.update_of_ne hP, h.linked]
  · intro root hRoot
    obtain ⟨last, hLeads, hEnd⟩ := h.tip (hRoots.mp hRoot)
    by_cases hEq : last = tip
    · subst hEq
      refine ⟨caller, ?_, Function.update_self ..⟩
      rcases Relation.ReflTransGen.cases_tail hLeads with hSame | ⟨b, hLeads', hCall'⟩
      · rw [hSame, hRoots.mp hRoot] at hRole
        cases hRole
      · have hSame := h.linked.mp hCall'
        rw [hRole] at hSame
        cases hSame
        exact Leads.retract hLeads' hCall hTip hNe
    · refine ⟨last, hLeads.retract hCall hTip hEq, ?_⟩
      by_cases hLast : last = caller
      · rw [hLast, Function.update_self]
      · rw [Function.update_of_ne hLast, hEnd]
  · intro x parent hChild
    have hX : x ≠ tip := by
      rintro rfl
      rw [Function.update_self] at hChild
      cases hChild
    rw [Function.update_of_ne hX] at hChild
    obtain ⟨root, hRoot, hLeads⟩ := h.owned hChild
    exact ⟨root, hRoots.mpr hRoot, hLeads.retract hCall hTip hX⟩

end Hung

end Threads
