import Tinycoro.Library.Update
import Tinycoro.Task.Coroutine
import Tinycoro.Task.Roles

/-! Every frame has the code that belongs to it: it stands where the executor takes it to
stand, its `Task` variables are the only ones with their handles, and it works for the
root at the head of its thread. -/
namespace Tinycoro.Coroutine

open Io Transition Calls World Threads

variable {ε : Type} {φ : ε → Type} {υ : Type}

section Held

variable {tasks : List (Option Nat)} {c i x : Nat}

theorem held_set (tasks : List (Option Nat)) (x i : Nat) :
    held (tasks.set x none) i = if i = x then none else held tasks i := by
  unfold held
  rw [List.getElem?_set]
  by_cases hEq : i = x
  · subst hEq
    rw [if_pos rfl, if_pos rfl]
    split_ifs <;> rfl
  · rw [if_neg (Ne.symm hEq), if_neg hEq]

theorem held_of_set : held (tasks.set x none) i = some c ↔ i ≠ x ∧ held tasks i = some c := by
  rw [held_set]
  split_ifs with hEq
  · simp [hEq]
  · simp [hEq]

theorem held_of_append {f : Nat} (h : held (tasks ++ [some f]) i = some c) :
    held tasks i = some c ∨ i = tasks.length ∧ c = f := by
  unfold held at h ⊢
  rcases Nat.lt_trichotomy i tasks.length with hLess | hEq | hMore
  · rw [List.getElem?_append_left hLess] at h
    exact .inl h
  · subst hEq
    rw [List.getElem?_concat_length] at h
    exact .inr ⟨rfl, (Option.some.inj h).symm⟩
  · rw [List.getElem?_eq_none (by simp; omega)] at h
    cases h

theorem held_append {f : Option Nat} (h : held tasks i = some c) :
    held (tasks ++ [f]) i = some c := by
  unfold held at h ⊢
  have hLess : i < tasks.length := by
    by_contra hMore
    rw [List.getElem?_eq_none (by omega)] at h
    cases h
  rwa [List.getElem?_append_left hLess]

theorem held_of_dropLast :
    held tasks.dropLast i = some c ↔ i ≠ tasks.length - 1 ∧ held tasks i = some c := by
  unfold held
  rw [List.getElem?_dropLast]
  split_ifs with hLess
  · exact ⟨fun h => ⟨by omega, h⟩, And.right⟩
  · refine ⟨fun h => (by cases h), fun ⟨hIndex, h⟩ => ?_⟩
    rw [List.getElem?_eq_none (by omega)] at h
    cases h

theorem held_last {t : Option Nat} (h : tasks.getLast? = some t) :
    held tasks (tasks.length - 1) = t := by
  rw [List.getLast?_eq_getElem?] at h
  rw [held, h]
  rfl

end Held

/-- What the body has still to do, unless it waits for a child. -/
def Point.body : Point φ υ → Option (Body φ υ)
  | .at body => some body
  | .asked request rest => some (.ask request rest)
  | .ended result => some (.finish result)
  | .awaits .. => none

namespace Activation

/-- The executor's view of a frame and its code. -/
def Fits (a : Activation φ υ) (status : Status) : Prop :=
  match a.point with
  | .at _ => status = .created ∧ a.tasks = [] ∨ status = .running
  | .asked .. => status = .suspended ∨ status = .running
  | .awaits child _ => status = .awaiting child
  | .ended _ => status = .done

variable {a : Activation φ υ} {status : Status}

theorem Fits.at_of_created (h : a.Fits status) (hCreated : status = .created) :
    (∃ body, a.point = .at body) ∧ a.tasks = [] := by
  subst hCreated
  unfold Fits at h
  split at h
  · rename_i body hPoint
    rcases h with ⟨-, hTasks⟩ | hRunning
    · exact ⟨⟨body, hPoint⟩, hTasks⟩
    · cases hRunning
  · rcases h with h | h <;> cases h
  · cases h
  · cases h

theorem Fits.awaiting {child : Nat} {rest : Option (Result υ) → Body φ υ} (h : a.Fits status)
    (hPoint : a.point = .awaits child rest) : status = .awaiting child := by
  unfold Fits at h
  rw [hPoint] at h
  exact h

theorem Fits.awaits {child : Nat} (h : a.Fits (.awaiting child)) :
    ∃ rest, a.point = .awaits child rest := by
  unfold Fits at h
  split at h
  · rcases h with ⟨h, -⟩ | h <;> cases h
  · rcases h with h | h <;> cases h
  · rename_i rest hPoint
    cases h
    exact ⟨rest, hPoint⟩
  · cases h

theorem Fits.ended (h : a.Fits .done) : ∃ result, a.point = .ended result := by
  unfold Fits at h
  split at h
  · rcases h with ⟨h, -⟩ | h <;> cases h
  · rcases h with h | h <;> cases h
  · cases h
  · exact ⟨_, by assumption⟩

theorem Fits.done {result : Result υ} (h : a.Fits status) (hPoint : a.point = .ended result) :
    status = .done := by
  unfold Fits at h
  rw [hPoint] at h
  exact h

end Activation

/-- The code of the frames. -/
structure Frames (code : Nat → Option (Activation φ υ)) (nodes : Nat → Option Node)
  (spawned : Nat) : Prop where
  live : ∀ {h}, code h = none ↔ nodes h = none
  fits : ∀ {h a node}, code h = some a → nodes h = some node → a.Fits node.status
  owned : ∀ {h a i c}, code h = some a → held a.tasks i = some c →
    roles nodes c = some .free ∧ ∃ b, code c = some b ∧ b.root = a.root
  sole : ∀ {h a i h' a' i' c}, code h = some a → held a.tasks i = some c → code h' = some a' →
    held a'.tasks i' = some c → h = h' ∧ i = i'
  kin : ∀ {h a parent}, code h = some a → roles nodes h = some (.child parent) →
    ∃ b, code parent = some b ∧ b.root = a.root
  numbered : ∀ {h a}, code h = some a → a.root < spawned
  roots : ∀ {h a h' a'}, code h = some a → code h' = some a' → roles nodes h = some .root →
    roles nodes h' = some .root → a.root = a'.root → h = h'

namespace Frames

variable {code : Nat → Option (Activation φ υ)} {nodes : Nat → Option Node} {spawned : Nat}
  {h : Nat} {a b : Activation φ υ} {node : Node}

theorem empty : Frames (fun _ => none : Nat → Option (Activation φ υ)) (fun _ => none) 0 where
  live := by simp
  fits h := by cases h
  owned h := by cases h
  sole h := by cases h
  kin h := by cases h
  numbered h := by cases h
  roots h := by cases h

theorem node_of_code (inv : Frames code nodes spawned) (hCode : code h = some a) :
    ∃ node, nodes h = some node := by
  apply Option.ne_none_iff_exists'.mp
  rw [Ne, ← inv.live, hCode]
  simp

theorem code_of_node (inv : Frames code nodes spawned) (hNode : nodes h = some node) :
    ∃ a, code h = some a := by
  apply Option.ne_none_iff_exists'.mp
  rw [Ne, inv.live, hNode]
  simp

/-- The code and the status of one frame change, with variables it may have. -/
theorem set (inv : Frames code nodes spawned) (hCode : code h = some a)
    (hNode : nodes h = some node) (new : Activation φ υ) (status : Status)
    (hRoot : new.root = a.root) (hFits : new.Fits status)
    (hOwned : ∀ {i c}, held new.tasks i = some c → roles nodes c = some .free ∧
      ∃ b, code c = some b ∧ b.root = a.root)
    (hSole : ∀ {i c h' a' i'}, held new.tasks i = some c → h' ≠ h → code h' = some a' →
      held a'.tasks i' ≠ some c)
    (hOnce : ∀ {i i' c}, held new.tasks i = some c → held new.tasks i' = some c → i = i') :
    Frames (Function.update code h (some new))
      (Function.update nodes h (some { node with status })) spawned := by
  have hRoles : roles (Function.update nodes h (some { node with status })) = roles nodes := by
    rw [roles_update]
    refine Eq.trans ?_ (Function.update_eq_self h (roles nodes))
    rw [roles_of_node hNode]
    rfl
  have hOld {c : Nat} {x : Activation φ υ} (hx : Function.update code h (some new) c = some x) :
      ∃ y, code c = some y ∧ y.root = x.root := by
    rcases Update.some_cases hx with ⟨rfl, rfl⟩ | ⟨-, hx⟩
    · exact ⟨a, hCode, hRoot.symm⟩
    · exact ⟨x, hx, rfl⟩
  have hNew {c : Nat} {x : Activation φ υ} (hx : code c = some x) :
      ∃ y, Function.update code h (some new) c = some y ∧ y.root = x.root := by
    by_cases hEq : c = h
    · subst hEq
      cases hCode.symm.trans hx
      exact ⟨new, Function.update_self .., hRoot⟩
    · exact ⟨x, (Function.update_of_ne hEq ..).trans hx, rfl⟩
  constructor
  · intro c
    by_cases hEq : c = h
    · subst hEq
      simp
    · rw [Function.update_of_ne hEq, Function.update_of_ne hEq, inv.live]
  · intro c x other hx hOther
    by_cases hEq : c = h
    · subst hEq
      rw [Function.update_self] at hx hOther
      cases hx
      cases hOther
      exact hFits
    · rw [Function.update_of_ne hEq] at hx hOther
      exact inv.fits hx hOther
  · intro c x i d hx hHeld
    rw [hRoles]
    rcases Update.some_cases hx with ⟨rfl, rfl⟩ | ⟨-, hx⟩
    · obtain ⟨hFree, b, hb, hKin⟩ := hOwned hHeld
      obtain ⟨b', hb', hSame⟩ := hNew hb
      exact ⟨hFree, b', hb', hSame.trans (hKin.trans hRoot.symm)⟩
    · obtain ⟨hFree, b, hb, hKin⟩ := inv.owned hx hHeld
      obtain ⟨b', hb', hSame⟩ := hNew hb
      exact ⟨hFree, b', hb', hSame.trans hKin⟩
  · intro c x i c' x' i' d hx hHeld hx' hHeld'
    by_cases hEq : c = h <;> by_cases hEq' : c' = h
    · subst hEq hEq'
      rw [Function.update_self] at hx hx'
      cases hx
      cases hx'
      exact ⟨rfl, hOnce hHeld hHeld'⟩
    · subst hEq
      rw [Function.update_self] at hx
      rw [Function.update_of_ne hEq'] at hx'
      cases hx
      exact absurd hHeld' (hSole hHeld hEq' hx')
    · subst hEq'
      rw [Function.update_self] at hx'
      rw [Function.update_of_ne hEq] at hx
      cases hx'
      exact absurd hHeld (hSole hHeld' hEq hx)
    · rw [Function.update_of_ne hEq] at hx
      rw [Function.update_of_ne hEq'] at hx'
      exact inv.sole hx hHeld hx' hHeld'
  · intro c x parent hx hRole
    rw [hRoles] at hRole
    obtain ⟨y, hy, hSame⟩ := hOld hx
    obtain ⟨b, hb, hKin⟩ := inv.kin hy hRole
    obtain ⟨b', hb', hSame'⟩ := hNew hb
    exact ⟨b', hb', hSame'.trans (hKin.trans hSame)⟩
  · intro c x hx
    obtain ⟨y, hy, hSame⟩ := hOld hx
    exact hSame ▸ inv.numbered hy
  · intro c x c' x' hx hx' hRole hRole' hEq
    rw [hRoles] at hRole hRole'
    obtain ⟨y, hy, hSame⟩ := hOld hx
    obtain ⟨y', hy', hSame'⟩ := hOld hx'
    exact inv.roots hy hy' hRole hRole' (hSame.trans (hEq.trans hSame'.symm))

/-- The same, with no variable that was not there before. -/
theorem shrink (inv : Frames code nodes spawned) (hCode : code h = some a)
    (hNode : nodes h = some node) (new : Activation φ υ) (status : Status)
    (hRoot : new.root = a.root) (hFits : new.Fits status)
    (hTasks : ∀ {i c}, held new.tasks i = some c → held a.tasks i = some c) :
    Frames (Function.update code h (some new))
      (Function.update nodes h (some { node with status })) spawned := by
  refine inv.set hCode hNode new status hRoot hFits ?_ ?_ ?_
  · exact fun hHeld => inv.owned hCode (hTasks hHeld)
  · intro i c h' a' i' hHeld hNe hCode' hHeld'
    exact hNe (inv.sole hCode' hHeld' hCode (hTasks hHeld)).1
  · exact fun hHeld hHeld' => (inv.sole hCode (hTasks hHeld) hCode (hTasks hHeld')).2

/-- A frame goes that no variable and no child refers to. -/
theorem remove (inv : Frames code nodes spawned)
    (hLoose : ∀ {c x i}, c ≠ h → code c = some x → held x.tasks i ≠ some h)
    (hChildless : ∀ {c}, roles nodes c ≠ some (.child h)) :
    Frames (Function.update code h none) (Function.update nodes h none) spawned := by
  have hCode {c : Nat} {x : Activation φ υ} (hx : Function.update code h none c = some x) :
      c ≠ h ∧ code c = some x := by
    obtain ⟨hEq, hx⟩ := Update.of_none hx
    exact ⟨hEq, hx⟩
  have hRole {c : Nat} (hNe : c ≠ h) : roles (Function.update nodes h none) c = roles nodes c := by
    rw [roles_update, Function.update_of_ne hNe]
  constructor
  · intro c
    by_cases hEq : c = h
    · subst hEq
      simp
    · rw [Function.update_of_ne hEq, Function.update_of_ne hEq, inv.live]
  · intro c x other hx hOther
    obtain ⟨hNe, hx⟩ := hCode hx
    rw [Function.update_of_ne hNe] at hOther
    exact inv.fits hx hOther
  · intro c x i d hx hHeld
    obtain ⟨hNe, hx₀⟩ := hCode hx
    obtain ⟨hFree, b, hb, hKin⟩ := inv.owned hx₀ hHeld
    have hOther : d ≠ h := by
      rintro rfl
      exact hLoose hNe hx₀ hHeld
    exact ⟨(hRole hOther).trans hFree, b, (Function.update_of_ne hOther ..).trans hb, hKin⟩
  · intro c x i c' x' i' d hx hHeld hx' hHeld'
    exact inv.sole (hCode hx).2 hHeld (hCode hx').2 hHeld'
  · intro c x parent hx hChild
    obtain ⟨hNe, hx⟩ := hCode hx
    rw [hRole hNe] at hChild
    obtain ⟨b, hb, hKin⟩ := inv.kin hx hChild
    have hOther : parent ≠ h := by
      rintro rfl
      exact hChildless hChild
    exact ⟨b, (Function.update_of_ne hOther ..).trans hb, hKin⟩
  · intro c x hx
    exact inv.numbered (hCode hx).2
  · intro c x c' x' hx hx' hRoot hRoot' hEq
    obtain ⟨hNe, hx⟩ := hCode hx
    obtain ⟨hNe', hx'⟩ := hCode hx'
    rw [hRole hNe] at hRoot
    rw [hRole hNe'] at hRoot'
    exact inv.roots hx hx' hRoot hRoot' hEq

/-- A coroutine is called: there is a new frame, of a `Task` or of a root with a number of
its own. -/
theorem add (inv : Frames code nodes spawned) (hNew : nodes h = none) (body : Body φ υ)
    {n spawned' : Nat} {role : Role Nat} (last : Option Nat) (hNumber : n < spawned')
    (hMore : spawned ≤ spawned') (hRole : role = .free ∨ role = .root ∧ spawned ≤ n) :
    Frames (Function.update code h (some ⟨.at body, [], n⟩))
      (Function.update nodes h (some ⟨role, .created, last⟩)) spawned' := by
  have hNone : code h = none := inv.live.mpr hNew
  have hCode {c : Nat} {x : Activation φ υ} (hx : Function.update code h (some ⟨.at body, [], n⟩)
      c = some x) : c = h ∧ x = ⟨.at body, [], n⟩ ∨ c ≠ h ∧ code c = some x := by
    by_cases hEq : c = h
    · subst hEq
      rw [Function.update_self] at hx
      exact .inl ⟨rfl, (Option.some.inj hx).symm⟩
    · rw [Function.update_of_ne hEq] at hx
      exact .inr ⟨hEq, hx⟩
  have hSame {c : Nat} (hNe : c ≠ h) :
      roles (Function.update nodes h (some ⟨role, .created, last⟩)) c = roles nodes c := by
    rw [roles_update, Function.update_of_ne hNe]
  have hSelf : roles (Function.update nodes h (some ⟨role, .created, last⟩)) h = some role := by
    rw [roles_update, Function.update_self]
    rfl
  have hOther {c : Nat} {x : Activation φ υ} (hx : code c = some x) : c ≠ h := by
    rintro rfl
    rw [hNone] at hx
    cases hx
  constructor
  · intro c
    by_cases hEq : c = h
    · subst hEq
      simp
    · rw [Function.update_of_ne hEq, Function.update_of_ne hEq, inv.live]
  · intro c x other hx hNode
    rcases hCode hx with ⟨rfl, rfl⟩ | ⟨hNe, hx⟩
    · rw [Function.update_self] at hNode
      cases hNode
      exact .inl ⟨rfl, rfl⟩
    · rw [Function.update_of_ne hNe] at hNode
      exact inv.fits hx hNode
  · intro c x i d hx hHeld
    rcases hCode hx with ⟨rfl, rfl⟩ | ⟨hNe, hx⟩
    · simp [held] at hHeld
    · obtain ⟨hFree, b, hb, hKin⟩ := inv.owned hx hHeld
      exact ⟨(hSame (hOther hb)).trans hFree, b, (Function.update_of_ne (hOther hb) ..).trans hb,
        hKin⟩
  · intro c x i c' x' i' d hx hHeld hx' hHeld'
    rcases hCode hx with ⟨rfl, rfl⟩ | ⟨hNe, hx⟩
    · simp [held] at hHeld
    · rcases hCode hx' with ⟨rfl, rfl⟩ | ⟨hNe', hx'⟩
      · simp [held] at hHeld'
      · exact inv.sole hx hHeld hx' hHeld'
  · intro c x parent hx hChild
    rcases hCode hx with ⟨rfl, rfl⟩ | ⟨hNe, hx⟩
    · rw [hSelf] at hChild
      rcases hRole with rfl | ⟨rfl, -⟩ <;> cases hChild
    · rw [hSame hNe] at hChild
      obtain ⟨b, hb, hKin⟩ := inv.kin hx hChild
      exact ⟨b, (Function.update_of_ne (hOther hb) ..).trans hb, hKin⟩
  · intro c x hx
    rcases hCode hx with ⟨rfl, rfl⟩ | ⟨hNe, hx⟩
    · exact hNumber
    · exact Nat.lt_of_lt_of_le (inv.numbered hx) hMore
  · -- a number that is new is nobody else's
    have hFresh {c : Nat} {x : Activation φ υ} (hx : code c = some x)
        (hRoot : some role = some (.root : Role Nat)) : x.root ≠ n := by
      rcases hRole with rfl | ⟨-, hLe⟩
      · cases hRoot
      · exact Nat.ne_of_lt (Nat.lt_of_lt_of_le (inv.numbered hx) hLe)
    intro c x c' x' hx hx' hRoot hRoot' hEq
    rcases hCode hx with ⟨rfl, rfl⟩ | ⟨hNe, hx₀⟩ <;> rcases hCode hx' with ⟨rfl, rfl⟩ | ⟨hNe', hx₀'⟩
    · rfl
    · rw [hSelf] at hRoot
      exact absurd hEq.symm (hFresh hx₀' hRoot)
    · rw [hSelf] at hRoot'
      exact absurd hEq (hFresh hx₀ hRoot')
    · rw [hSame hNe] at hRoot
      rw [hSame hNe'] at hRoot'
      exact inv.roots hx₀ hx₀' hRoot hRoot' hEq

/-- A `Task` that no variable has any more is started. -/
theorem start (inv : Frames code nodes spawned) (hCode : code h = some a)
    (hNode : nodes h = some node) (hCreated : node.status = .created) {parent : Nat}
    (hParent : code parent = some b) (hKin : b.root = a.root)
    (hLoose : ∀ {c x i}, code c = some x → held x.tasks i ≠ some h) :
    Frames code (Function.update nodes h (some { node with role := .child parent, status :=
      .running })) spawned := by
  have hSame {c : Nat} (hNe : c ≠ h) :
      roles (Function.update nodes h (some { node with role := .child parent, status := .running }))
        c = roles nodes c := by
    rw [roles_update, Function.update_of_ne hNe]
  have hSelf : roles (Function.update nodes h (some { node with role := .child parent, status :=
      .running })) h = some (.child parent) := by
    rw [roles_update, Function.update_self]
    rfl
  have hRoot {c : Nat}
      (hRole : roles (Function.update nodes h (some { node with role := .child parent, status :=
        .running })) c = some .root) : roles nodes c = some .root := by
    by_cases hEq : c = h
    · subst hEq
      rw [hSelf] at hRole
      cases hRole
    · rwa [hSame hEq] at hRole
  constructor
  · intro c
    by_cases hEq : c = h
    · subst hEq
      rw [hCode, Function.update_self]
      simp
    · rw [Function.update_of_ne hEq, inv.live]
  · intro c x other hx hOther
    rcases Update.some_cases hOther with ⟨rfl, rfl⟩ | ⟨-, hOther⟩
    · cases hCode.symm.trans hx
      obtain ⟨⟨body, hPoint⟩, -⟩ := (inv.fits hCode hNode).at_of_created hCreated
      unfold Activation.Fits
      rw [hPoint]
      exact .inr rfl
    · exact inv.fits hx hOther
  · intro c x i d hx hHeld
    obtain ⟨hRole, hOwner⟩ := inv.owned hx hHeld
    have hNe : d ≠ h := by
      rintro rfl
      exact hLoose hx hHeld
    exact ⟨(hSame hNe).trans hRole, hOwner⟩
  · exact inv.sole
  · intro c x p hx hRole
    by_cases hEq : c = h
    · subst hEq
      rw [hSelf] at hRole
      cases hRole
      cases hCode.symm.trans hx
      exact ⟨b, hParent, hKin⟩
    · rw [hSame hEq] at hRole
      exact inv.kin hx hRole
  · exact inv.numbered
  · intro c x c' x' hx hx' hRole hRole' hEq
    exact inv.roots hx hx' (hRoot hRole) (hRoot hRole') hEq

end Frames

/-- The code of all frames is as their status says. -/
abbrev State.Framed (s : State φ υ) : Prop := Frames s.code s.world.nodes s.spawned

end Tinycoro.Coroutine
