import Tinycoro.Task.Roles
import Tinycoro.Library.Nesting

/-! Who owns a frame: an object, `roots_`, or the code that has just taken its handle from
one of the two. What an operation does to the owners is put together from a few moves of
one handle. -/
namespace Tinycoro.Task

open Io Threads Placement

section Definitions

variable (role : Nat → Option (Role Nat)) (roots : Finset Nat) (objects : Nat → Option Object)
  (detached : Finset Nat)

/-- The frames that are there. -/
def live : Set Nat := { h | role h ≠ none ∨ h ∈ detached }

/-- The frame was started, or spawned. -/
def Begun (h : Nat) : Prop := h ∈ detached ∨ ∃ r, role h = some r ∧ r ≠ .free

/-- An object in the first frame owns the second. -/
def Inside (outer inner : Nat) : Prop :=
  ∃ o x, objects o = some x ∧ x.scope = some outer ∧ x.handle = some inner

/-- The handles in the objects and in `roots_`. -/
def holder : Nat ⊕ Nat → Option Nat
  | .inl o => (objects o).bind Object.handle
  | .inr h => if h ∈ roots then some h else none

end Definitions

/-- Frames and owners. A `Task` owns a coroutine that was not started. An awaiter is in a
frame that was, and owns a child of it. -/
structure Owned (role : Nat → Option (Role Nat)) (roots : Finset Nat) (objects : Nat →
    Option Object) (detached : Finset Nat) (queue : List Nat) : Prop where
  placed : Placed (holder roots objects) queue (live role detached)
  around : ∀ {o x p}, objects o = some x → x.scope = some p → p ∈ live role detached
  task : ∀ {o x h}, objects o = some x → x.kind = .task → x.handle = some h → role h = some .free
  awaiter : ∀ {o x}, objects o = some x → x.kind = .awaiter → ∃ p, x.scope = some p ∧
    Begun role detached p ∧ ∀ {h}, x.handle = some h → h ∈ detached ∨ role h = some (.child p)
  nested : WellFounded (Inside objects)
  apart : ∀ {h}, h ∈ detached → role h = none

section Holder

variable {roots : Finset Nat} {objects : Nat → Option Object}

theorem holder_object (o : Nat) (x : Option Object) :
    holder roots (Function.update objects o x) =
      Function.update (holder roots objects) (.inl o) (x.bind Object.handle) := by
  funext place
  cases place with
  | inl a =>
    by_cases hEq : a = o
    · subst hEq
      simp [holder]
    · rw [Function.update_of_ne (by simpa using hEq)]
      simp [holder, hEq]
  | inr =>
    rw [Function.update_of_ne Sum.inr_ne_inl]
    rfl

theorem holder_insert (h : Nat) :
    holder (insert h roots) objects = Function.update (holder roots objects) (.inr h) (some h) := by
  funext place
  cases place with
  | inl =>
    rw [Function.update_of_ne Sum.inl_ne_inr]
    rfl
  | inr a =>
    by_cases hEq : a = h
    · subst hEq
      simp [holder]
    · rw [Function.update_of_ne (by simpa using hEq)]
      simp [holder, hEq]

theorem holder_erase (h : Nat) :
    holder (roots.erase h) objects = Function.update (holder roots objects) (.inr h) none := by
  funext place
  cases place with
  | inl =>
    rw [Function.update_of_ne Sum.inl_ne_inr]
    rfl
  | inr a =>
    by_cases hEq : a = h
    · subst hEq
      simp [holder]
    · rw [Function.update_of_ne (by simpa using hEq)]
      simp [holder, hEq]

end Holder

namespace Owned

variable {role : Nat → Option (Role Nat)} {roots : Finset Nat} {objects : Nat → Option Object}
  {detached : Finset Nat} {queue : List Nat} {o h p : Nat} {x : Object}

theorem empty : Owned (fun _ => none) ∅ (fun _ => none) ∅ [] where
  placed := by
    have hHolder : holder ∅ (fun _ => none) = fun _ => none := by
      funext place
      cases place <;> rfl
    have hLive : live (fun _ => none) ∅ = ∅ := by simp [live]
    rw [hHolder, hLive]
    exact .empty
  around h := nomatch h
  task h := nomatch h
  awaiter h := nomatch h
  nested := ⟨fun _ => ⟨_, fun _ ⟨_, _, hObject, _⟩ => nomatch hObject⟩⟩
  apart h := absurd h (Finset.notMem_empty _)

theorem begun_not_free (inv : Owned role roots objects detached queue)
    (hBegun : Begun role detached h) : role h ≠ some .free := by
  rcases hBegun with hDetached | ⟨r, hRole, hNe⟩
  · rw [inv.apart hDetached]
    nofun
  · rw [hRole]
    simpa using hNe

theorem begun_live (hBegun : Begun role detached h) : h ∈ live role detached := by
  rcases hBegun with hDetached | ⟨r, hRole, -⟩
  · exact .inr hDetached
  · exact .inl (by rw [hRole]; nofun)

/-- What owns a coroutine that was started is in one that was started. -/
theorem not_free_of_inside (inv : Owned role roots objects detached queue)
    (hInside : Inside objects p h) (hStarted : role h ≠ some .free) : role p ≠ some .free := by
  obtain ⟨o, x, hObject, hScope, hHandle⟩ := hInside
  cases hKind : x.kind with
  | task => exact absurd (inv.task hObject hKind hHandle) hStarted
  | awaiter =>
    obtain ⟨p', hScope', hBegun, -⟩ := inv.awaiter hObject hKind
    rw [hScope] at hScope'
    cases hScope'
    exact inv.begun_not_free hBegun

theorem not_held (inv : Owned role roots objects detached (h :: queue))
    (hObject : objects o = some x) : x.handle ≠ some h := by
  intro hHandle
  refine inv.placed.apart (i := .inl o) ?_ List.mem_cons_self
  rw [holder, hObject]
  exact hHandle

section Objects

/-- What the objects are after one has changed. -/
theorem update_object {new : Option Object} {a : Nat} {y : Object}
    (hNew : Function.update objects o new a = some y) :
    (a = o ∧ new = some y) ∨ (a ≠ o ∧ objects a = some y) := by
  by_cases hEq : a = o
  · subst hEq
    rw [Function.update_self] at hNew
    exact .inl ⟨rfl, hNew⟩
  · rw [Function.update_of_ne hEq] at hNew
    exact .inr ⟨hEq, hNew⟩

/-- An object that changes or goes, and holds nothing new. -/
theorem shrink (inv : Owned role roots objects detached queue) {new : Option Object}
    {queue' : List Nat}
    (hPlaced : Placed (Function.update (holder roots objects) (.inl o)
      (new.bind Object.handle)) queue' (live role detached))
    (hNew : ∀ {y}, new = some y → ∃ x, objects o = some x ∧ x.kind = y.kind ∧ x.scope = y.scope ∧
      y.handle = none) : Owned role roots (Function.update objects o new) detached queue' := by
  have hBack {a : Nat} {y : Object} (hUpdate : Function.update objects o new a = some y) :
      ∃ z, objects a = some z ∧ z.kind = y.kind ∧ z.scope = y.scope ∧ ∀ {f}, y.handle = some f →
      z.handle = some f := by
    rcases update_object hUpdate with ⟨rfl, hEq⟩ | ⟨-, hOld⟩
    · obtain ⟨x, hObject, hKind, hScope, hEmpty⟩ := hNew hEq
      refine ⟨x, hObject, hKind, hScope, fun hHandle => ?_⟩
      rw [hEmpty] at hHandle
      cases hHandle
    · exact ⟨y, hOld, rfl, rfl, id⟩
  constructor
  · rw [holder_object]
    exact hPlaced
  · intro a y p hUpdate hScope
    obtain ⟨z, hOld, -, hSame, -⟩ := hBack hUpdate
    exact inv.around hOld (hSame.trans hScope)
  · intro a y f hUpdate hKind hHandle
    obtain ⟨z, hOld, hSame, -, hHeld⟩ := hBack hUpdate
    exact inv.task hOld (hSame.trans hKind) (hHeld hHandle)
  · intro a y hUpdate hKind
    obtain ⟨z, hOld, hSame, hScope, hHeld⟩ := hBack hUpdate
    obtain ⟨p, hP, hBegun, hChild⟩ := inv.awaiter hOld (hSame.trans hKind)
    exact ⟨p, hScope.symm.trans hP, hBegun, fun hHandle => hChild (hHeld hHandle)⟩
  · refine Subrelation.wf ?_ inv.nested
    rintro a b ⟨c, y, hUpdate, hScope, hHandle⟩
    obtain ⟨z, hOld, -, hSame, hHeld⟩ := hBack hUpdate
    exact ⟨c, z, hOld, hSame.trans hScope, hHeld hHandle⟩
  · exact inv.apart

/-- The object lets go of its handle. -/
theorem take (inv : Owned role roots objects detached queue) (hObject : objects o = some x)
    (hHandle : x.handle = some h) :
    Owned role roots (Function.update objects o (some { x with handle := none })) detached
      (h :: queue) := by
  apply inv.shrink
  · exact inv.placed.take (by rw [holder, hObject]; exact hHandle)
  · rintro _ ⟨⟩
    exact ⟨x, hObject, rfl, rfl, rfl⟩

/-- An empty object goes. -/
theorem erase (inv : Owned role roots objects detached queue) (hObject : objects o = some x)
    (hEmpty : x.handle = none) :
    Owned role roots (Function.update objects o none) detached queue := by
  apply inv.shrink
  · have hNone : holder roots objects (.inl o) = none := by rw [holder, hObject]; exact hEmpty
    rw [show (none : Option Object).bind Object.handle = holder roots objects (.inl o)
      from hNone.symm, Function.update_eq_self]
    exact inv.placed
  · exact fun hNew => nomatch hNew

/-- A new empty object. -/
theorem declare (inv : Owned role roots objects detached queue) (hNew : objects o = none)
    (hEmpty : x.handle = none) (hScope : ∀ {p}, x.scope = some p → p ∈ live role detached)
    (hAwaiter : x.kind = .awaiter → ∃ p, x.scope = some p ∧ Begun role detached p) :
    Owned role roots (Function.update objects o (some x)) detached queue := by
  constructor
  · have hNone : holder roots objects (.inl o) = none := by rw [holder, hNew]; rfl
    rw [holder_object, show (some x).bind Object.handle = holder roots objects (.inl o)
      from hEmpty.trans hNone.symm, Function.update_eq_self]
    exact inv.placed
  · intro a y p hUpdate hP
    rcases update_object hUpdate with ⟨-, hEq⟩ | ⟨-, hOld⟩
    · cases hEq
      exact hScope hP
    · exact inv.around hOld hP
  · intro a y f hUpdate hKind hHandle
    rcases update_object hUpdate with ⟨-, hEq⟩ | ⟨-, hOld⟩
    · cases hEq
      rw [hEmpty] at hHandle
      cases hHandle
    · exact inv.task hOld hKind hHandle
  · intro a y hUpdate hKind
    rcases update_object hUpdate with ⟨-, hEq⟩ | ⟨-, hOld⟩
    · cases hEq
      obtain ⟨p, hP, hBegun⟩ := hAwaiter hKind
      refine ⟨p, hP, hBegun, fun hHandle => ?_⟩
      rw [hEmpty] at hHandle
      cases hHandle
    · exact inv.awaiter hOld hKind
  · refine Subrelation.wf ?_ inv.nested
    rintro a b ⟨c, y, hUpdate, hP, hHandle⟩
    rcases update_object hUpdate with ⟨-, hEq⟩ | ⟨-, hOld⟩
    · cases hEq
      rw [hEmpty] at hHandle
      cases hHandle
    · exact ⟨c, y, hOld, hP, hHandle⟩
  · exact inv.apart

/-- An empty object gets the handle that was taken last. -/
theorem place (inv : Owned role roots objects detached (h :: queue)) (hObject : objects o = some x)
    (hEmpty : x.handle = none) (hTask : x.kind = .task → role h = some .free)
    (hAwaiter : x.kind = .awaiter → ∀ {p}, x.scope = some p → h ∈ detached ∨
      role h = some (.child p))
    (hNested : WellFounded
      (Inside (Function.update objects o (some { x with handle := some h })))) :
    Owned role roots (Function.update objects o (some { x with handle := some h }))
      detached queue := by
  constructor
  · rw [holder_object]
    exact inv.placed.put (by rw [holder, hObject]; exact hEmpty)
  · intro a y p hUpdate hP
    rcases update_object hUpdate with ⟨-, hEq⟩ | ⟨-, hOld⟩
    · cases hEq
      exact inv.around hObject hP
    · exact inv.around hOld hP
  · intro a y f hUpdate hKind hHandle
    rcases update_object hUpdate with ⟨-, hEq⟩ | ⟨-, hOld⟩
    · cases hEq
      cases hHandle
      exact hTask hKind
    · exact inv.task hOld hKind hHandle
  · intro a y hUpdate hKind
    rcases update_object hUpdate with ⟨-, hEq⟩ | ⟨-, hOld⟩
    · cases hEq
      obtain ⟨p, hP, hBegun, -⟩ := inv.awaiter hObject hKind
      refine ⟨p, hP, hBegun, ?_⟩
      rintro _ ⟨⟩
      exact hAwaiter hKind hP
    · exact inv.awaiter hOld hKind
  · exact hNested
  · exact inv.apart

/-- The new place is in the scope of the object. -/
theorem inside_update {a b : Nat}
    (hInside : Inside (Function.update objects o (some { x with handle := some h })) a b) :
    Inside objects a b ∨ x.scope = some a ∧ b = h := by
  obtain ⟨c, y, hUpdate, hP, hHandle⟩ := hInside
  rcases update_object hUpdate with ⟨-, hEq⟩ | ⟨-, hOld⟩
  · cases hEq
    cases hHandle
    exact .inr ⟨hP, rfl⟩
  · exact .inl ⟨c, y, hOld, hP, hHandle⟩

/-- A coroutine that was not started can be put into one that was. -/
theorem nested_begun (inv : Owned role roots objects detached queue) (hFree : role h = some .free)
    (hScope : ∀ {p}, x.scope = some p → Begun role detached p) :
    WellFounded (Inside (Function.update objects o (some { x with handle := some h }))) := by
  refine Nesting.layered inv.nested (role · ≠ some .free) inv.not_free_of_inside fun hInside => ?_
  refine (inside_update hInside).imp_right ?_
  rintro ⟨hP, rfl⟩
  exact ⟨inv.begun_not_free (hScope hP), not_not.mpr hFree⟩

/-- It can be put into one that nobody owns yet. -/
theorem nested_new (inv : Owned role roots objects detached (h :: queue))
    (hScope : x.scope = some p) (hNew : p ∈ queue) :
    WellFounded (Inside (Function.update objects o (some { x with handle := some h }))) := by
  refine Nesting.receive inv.nested (a := p) (b := h) ?_ ?_ fun hInside => ?_
  · rintro c ⟨a, y, hHolds, -, hHandle⟩
    refine inv.placed.apart (i := .inl a) ?_ (List.mem_cons_of_mem h hNew)
    rw [holder, hHolds]
    exact hHandle
  · rintro rfl
    exact (List.nodup_cons.mp inv.placed.nodup).1 hNew
  · refine (inside_update hInside).imp_right ?_
    rintro ⟨hP, rfl⟩
    rw [hScope] at hP
    cases hP
    exact ⟨rfl, rfl⟩

/-- A `Task` gets the handle of a coroutine that was not started. -/
theorem put (inv : Owned role roots objects detached (h :: queue)) (hObject : objects o = some x)
    (hEmpty : x.handle = none) (hKind : x.kind = .task) (hFree : role h = some .free)
    (hScope : ∀ {p}, x.scope = some p → Begun role detached p ∨ p ∈ queue) :
    Owned role roots (Function.update objects o (some { x with handle := some h }))
      detached queue := by
  apply inv.place hObject hEmpty (fun _ => hFree)
  · rw [hKind]
    exact nofun
  · by_cases hNew : ∃ p, x.scope = some p ∧ p ∈ queue
    · obtain ⟨p, hP, hQueue⟩ := hNew
      exact inv.nested_new hP hQueue
    · exact inv.nested_begun hFree fun hP => (hScope hP).resolve_right fun hQueue =>
        hNew ⟨_, hP, hQueue⟩

variable {handle scope : Option Nat}

/-- The object lets go of its handle, if it has one. -/
theorem release (inv : Owned role roots objects detached queue) (hObject : objects o = some x) :
    Owned role roots (Function.update objects o (some { x with handle := none })) detached
    (x.handle.toList ++ queue) := by
  obtain ⟨kind, scope, handle⟩ := x
  cases handle with
  | none =>
    rw [← hObject, Function.update_eq_self]
    exact inv
  | some => exact inv.take hObject rfl

/-- The object goes, and its handle with it. -/
theorem discard (inv : Owned role roots objects detached queue) (hObject : objects o = some x) :
    Owned role roots (Function.update objects o none) detached (x.handle.toList ++ queue) := by
  have hErased := (inv.release hObject).erase (Function.update_self ..) rfl
  rwa [Function.update_idem] at hErased

/-- An empty `Task` gets a handle, or stays empty. -/
theorem store (inv : Owned role roots objects detached (handle.toList ++ queue))
    (hObject : objects o = some x) (hEmpty : x.handle = none) (hKind : x.kind = .task)
    (hFree : ∀ {h}, handle = some h → role h = some .free)
    (hScope : ∀ {p}, x.scope = some p → Begun role detached p ∨ p ∈ queue) :
    Owned role roots (Function.update objects o (some { x with handle })) detached queue := by
  cases handle with
  | none =>
    rw [show { x with handle := none } = x by rw [← hEmpty], ← hObject, Function.update_eq_self]
    exact inv
  | some => exact inv.put hObject hEmpty hKind (hFree rfl) hScope

/-- A new `Task` with a handle, or an empty one. -/
theorem construct (inv : Owned role roots objects detached (handle.toList ++ queue))
    (hNew : objects o = none) (hFree : ∀ {h}, handle = some h → role h = some .free)
    (hScope : ∀ {p}, scope = some p → Begun role detached p ∨ p ∈ queue) :
    Owned role roots (Function.update objects o (some ⟨.task, scope, handle⟩)) detached queue := by
  have hLive {p : Nat} (hP : scope = some p) : p ∈ live role detached := by
    rcases hScope hP with hBegun | hQueue
    · exact begun_live hBegun
    · exact inv.placed.mem_iff.mpr (.inl (List.mem_append_right _ hQueue))
  have hDeclared := inv.declare (x := ⟨.task, scope, none⟩) hNew rfl hLive nofun
  have hStored := hDeclared.store (Function.update_self ..) rfl rfl hFree hScope
  rwa [Function.update_idem] at hStored

end Objects

section Frames

theorem live_update {new : Option (Role Nat)} (hLive : h ∈ live role detached) (hNew : new ≠ none) :
    live (Function.update role h new) detached = live role detached := by
  ext a
  by_cases hEq : a = h
  · subst hEq
    simp [live, hNew] at hLive ⊢
    tauto
  · simp [live, hEq]

theorem begun_update {new : Role Nat} (hNew : new ≠ .free) (hBegun : Begun role detached p) :
    Begun (Function.update role h (some new)) detached p := by
  rcases hBegun with hDetached | ⟨r, hRole, hNe⟩
  · exact .inl hDetached
  · refine .inr ?_
    by_cases hEq : p = h
    · exact ⟨new, by rw [hEq, Function.update_self], hNew⟩
    · exact ⟨r, by rw [Function.update_of_ne hEq, hRole], hNe⟩

/-- A coroutine whose handle is in hand is started or spawned. -/
theorem recast (inv : Owned role roots objects detached (h :: queue)) (hFree : role h = some .free)
    (new : Role Nat) (hNew : new ≠ .free) :
    Owned (Function.update role h (some new)) roots objects detached (h :: queue) := by
  have hLive : h ∈ live role detached := .inl (by rw [hFree]; nofun)
  have hKeep {a f : Nat} {y : Object} (hObject : objects a = some y) (hHandle : y.handle = some f) :
      f ≠ h := by
    rintro rfl
    exact inv.not_held hObject hHandle
  constructor
  · rw [live_update hLive (Option.some_ne_none _)]
    exact inv.placed
  · rw [live_update hLive (Option.some_ne_none _)]
    exact inv.around
  · intro a y f hObject hKind hHandle
    rw [Function.update_of_ne (hKeep hObject hHandle)]
    exact inv.task hObject hKind hHandle
  · intro a y hObject hKind
    obtain ⟨p, hP, hBegun, hChild⟩ := inv.awaiter hObject hKind
    refine ⟨p, hP, begun_update hNew hBegun, fun hHandle => ?_⟩
    rw [Function.update_of_ne (hKeep hObject hHandle)]
    exact hChild hHandle
  · exact inv.nested
  · intro a hDetached
    have hNe : a ≠ h := by
      rintro rfl
      rw [inv.apart hDetached] at hFree
      cases hFree
    rw [Function.update_of_ne hNe]
    exact inv.apart hDetached

/-- An awaiter gets the handle of a coroutine and starts it. -/
theorem adopt (inv : Owned role roots objects detached (h :: queue)) (hObject : objects o = some x)
    (hEmpty : x.handle = none) (hKind : x.kind = .awaiter) (hFree : role h = some .free)
    (hP : x.scope = some p) :
    Owned (Function.update role h (some (.child p))) roots
      (Function.update objects o (some { x with handle := some h })) detached queue := by
  obtain ⟨p', hP', hBegun, -⟩ := inv.awaiter hObject hKind
  rw [hP] at hP'
  cases hP'
  refine (inv.recast hFree (.child p) nofun).place hObject hEmpty ?_ ?_ (inv.nested_begun hFree ?_)
  · rw [hKind]
    exact nofun
  · intro _ q hQ
    rw [hP] at hQ
    cases hQ
    exact .inr (Function.update_self ..)
  · intro q hQ
    rw [hP] at hQ
    cases hQ
    exact hBegun

/-- `roots_` gets the handle. -/
theorem root (inv : Owned role roots objects detached (h :: queue)) (hNew : h ∉ roots) :
    Owned role (insert h roots) objects detached queue := by
  refine ⟨?_, inv.around, inv.task, inv.awaiter, inv.nested, inv.apart⟩
  rw [holder_insert]
  exact inv.placed.put (if_neg hNew)

/-- The handle is taken from `roots_`. -/
theorem unroot (inv : Owned role roots objects detached queue) (hRoot : h ∈ roots) :
    Owned role (roots.erase h) objects detached (h :: queue) := by
  refine ⟨?_, inv.around, inv.task, inv.awaiter, inv.nested, inv.apart⟩
  rw [holder_erase]
  exact inv.placed.take (if_pos hRoot)

theorem live_create :
    live (Function.update role h (some .free)) detached = insert h (live role detached) := by
  ext a
  by_cases hEq : a = h
  · simp [live, hEq]
  · simp [live, hEq]

/-- A new frame is owned by the call that made it. -/
theorem create (inv : Owned role roots objects detached queue) (hNew : h ∉ live role detached) :
    Owned (Function.update role h (some .free)) roots objects detached (h :: queue) := by
  have hOther {a : Nat} (hMem : a ∈ live role detached) : Function.update role h (some .free) a =
      role a := by
    refine Function.update_of_ne ?_ ..
    rintro rfl
    exact hNew hMem
  have hHeld {a f : Nat} {y : Object} (hObject : objects a = some y) (hHandle : y.handle = some f) :
      f ∈ live role detached := by
    refine inv.placed.mem_of_slot (i := .inl a) ?_
    rw [holder, hObject]
    exact hHandle
  have hBegun {a : Nat} (hOld : Begun role detached a) : Begun (Function.update role h (some .free))
      detached a := by
    rw [Begun, hOther (begun_live hOld)]
    exact hOld
  constructor
  · rw [live_create]
    exact (inv.placed.enqueue hNew).perm (List.perm_append_singleton h queue)
  · intro a y p hObject hP
    rw [live_create]
    exact Set.mem_insert_of_mem h (inv.around hObject hP)
  · intro a y f hObject hKind hHandle
    rw [hOther (hHeld hObject hHandle)]
    exact inv.task hObject hKind hHandle
  · intro a y hObject hKind
    obtain ⟨p, hP, hB, hChild⟩ := inv.awaiter hObject hKind
    refine ⟨p, hP, hBegun hB, fun hHandle => ?_⟩
    rw [hOther (hHeld hObject hHandle)]
    exact hChild hHandle
  · exact inv.nested
  · intro a hDetached
    rw [hOther (.inr hDetached)]
    exact inv.apart hDetached

theorem child_detach {r : Role Nat} (hOr : p ∈ detached ∨ role p = some r) :
    p ∈ insert h detached ∨ Function.update role h none p = some r := by
  by_cases hEq : p = h
  · exact .inl (hEq ▸ Finset.mem_insert_self ..)
  · rw [Function.update_of_ne hEq]
    exact hOr.imp_left (Finset.mem_insert_of_mem ·)

theorem begun_detach (hBegun : Begun role detached p) :
    Begun (Function.update role h none) (insert h detached) p := by
  rcases hBegun with hDetached | ⟨r, hRole, hNe⟩
  · exact .inl (Finset.mem_insert_of_mem hDetached)
  · exact (child_detach (.inr hRole)).imp_right fun hRole => ⟨r, hRole, hNe⟩

theorem live_detach (hLive : h ∈ live role detached) :
    live (Function.update role h none) (insert h detached) = live role detached := by
  ext a
  by_cases hEq : a = h
  · subst hEq
    exact ⟨fun _ => hLive, fun _ => .inr (Finset.mem_insert_self ..)⟩
  · simp [live, hEq]

/-- The executor lets go of a frame that no `Task` owns. -/
theorem detach (inv : Owned role roots objects detached queue) (hLive : h ∈ live role detached)
    (hTask : ∀ {o x}, objects o = some x → x.kind = .task → x.handle ≠ some h) :
    Owned (Function.update role h none) roots objects (insert h detached) queue := by
  constructor
  · rw [live_detach hLive]
    exact inv.placed
  · rw [live_detach hLive]
    exact inv.around
  · intro a y f hObject hKind hHandle
    have hNe : f ≠ h := by
      rintro rfl
      exact hTask hObject hKind hHandle
    rw [Function.update_of_ne hNe]
    exact inv.task hObject hKind hHandle
  · intro a y hObject hKind
    obtain ⟨p, hP, hBegun, hChild⟩ := inv.awaiter hObject hKind
    exact ⟨p, hP, begun_detach hBegun, fun hHandle => child_detach (hChild hHandle)⟩
  · exact inv.nested
  · intro a hDetached
    by_cases hEq : a = h
    · rw [hEq, Function.update_self]
    · rw [Function.update_of_ne hEq]
      exact inv.apart (Finset.mem_of_mem_insert_of_ne hDetached hEq)

theorem live_free (inv : Owned role roots objects detached queue) (hDetached : h ∈ detached) :
    live role (detached.erase h) = live role detached \ {h} := by
  ext a
  by_cases hEq : a = h
  · simp [live, hEq, inv.apart hDetached]
  · simp [live, hEq]

/-- The last object of a frame is gone, and the frame goes. -/
theorem free (inv : Owned role roots objects detached (h :: queue)) (hDetached : h ∈ detached)
    (hVacant : ∀ {o x}, objects o = some x → x.scope ≠ some h) :
    Owned role roots objects (detached.erase h) queue := by
  have hLive := inv.live_free hDetached
  have hScope {a p : Nat} {y : Object} (hObject : objects a = some y) (hP : y.scope = some p) :
      p ≠ h := by
    rintro rfl
    exact hVacant hObject hP
  constructor
  · rw [hLive]
    exact inv.placed.dequeue
  · intro a y p hObject hP
    rw [hLive]
    exact ⟨inv.around hObject hP, hScope hObject hP⟩
  · exact inv.task
  · intro a y hObject hKind
    obtain ⟨p, hP, hBegun, hChild⟩ := inv.awaiter hObject hKind
    refine ⟨p, hP, hBegun.imp_left (Finset.mem_erase_of_ne_of_mem (hScope hObject hP)),
      fun hHandle => ?_⟩
    refine (hChild hHandle).imp_left (Finset.mem_erase_of_ne_of_mem ?_)
    rintro rfl
    exact inv.not_held hObject hHandle
  · exact inv.nested
  · exact fun hMem => inv.apart (Finset.mem_of_mem_erase hMem)

end Frames

end Owned

end Tinycoro.Task
