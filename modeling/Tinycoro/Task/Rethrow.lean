import Tinycoro.Task.Rooted

/-! The exception of a root: it waits in the promise, `drain_completed` takes it out and destroys
the root, and `run` throws it. -/
namespace Tinycoro.Coroutine

open Io Transition Effect Calls World Threads

variable {ε : Type} {φ : ε → Type} {υ : Type}

/-- Only `drain_completed` makes `run` throw the exception of a task. -/
theorem drain_of_thrown {w w' : World} {e : Nat} {wrap : Wrap} {label : Io.Label}
    {events : List Obs} (h : Step wrap w label w' events) (hThrown : .runThrew (.task e) ∈ events) :
    ∃ left, w.control = .drain (some e) left := by
  rcases own_of_step h hThrown rfl with ⟨n, left, hEq, hControl⟩ | ⟨hEq, -⟩
  · cases hEq
    exact ⟨left, hControl⟩
  · cases hEq

section Rethrown

variable {short : Prop} {wrap : Wrap} {s s' : State φ υ} {trace events : List (Event φ υ)}
  {actor : Option Nat} {h n e left : Nat} {a : Activation φ υ} {node : Node} {result : Result υ}

theorem Current.draining (hCurrent : Current s h a node) (sched : Scheduled short s.world) :
    s.world.control.draining = false := by
  have hActive := (sched.threaded.active_eq hCurrent.frame).mpr hCurrent.running
  cases hControl : s.world.control with
  | drain =>
    rw [hControl] at hActive
    cases hActive
  | _ => rfl

/-- No coroutine has the thread in `drain_completed`. -/
theorem Moved.draining (hMoved : Moved s actor s' events) (sched : Scheduled short s.world)
    (hDraining : s.world.control.draining = true) : actor = none := by
  cases hActor : actor with
  | none => rfl
  | some =>
    obtain ⟨a, node, hCurrent⟩ := hMoved.current hActor
    rw [hCurrent.draining sched] at hDraining
    cases hDraining

/-- Only its own last step makes a root done. -/
theorem done_of_moved {t : Nat} (hMoved : Moved s actor s' events)
    (hDone : statuses s'.world.nodes t = some .done)
    (hNew : statuses s.world.nodes t ≠ some .done) :
    ∃ (left : Nat) (b : Activation φ υ) (result : Result υ), s'.world.control = .drain none left ∧
      s'.code t = some b ∧ b.point = .ended result ∧ promised s'.world t = result.exception ∧
      Event.completed b.root result ∈ events := by
  have hUpdate {nodes : Nat → Option Node} {x : Nat} {new : Option Node}
      (hOld : statuses nodes t ≠ some .done)
      (hStatus : new.map Node.status ≠ some .done) : statuses (Function.update nodes x new) t ≠
        some .done := by
    rw [statuses_update, Function.update_apply]
    split_ifs
    · exact hStatus
    · exact hOld
  cases hMoved with
  | @idle w obs hNodes =>
    change statuses w.nodes t = _ at hDone
    rw [hNodes] at hDone
    exact absurd hDone hNew
  | @resumed w h node obs hNode hParked hNodes | @spawned w frame body obs hFresh hNodes =>
    change statuses w.nodes t = _ at hDone
    rw [hNodes] at hDone
    exact absurd hDone (hUpdate hNew (by simp))
  | @drained w root node obs hNode hRootDone hNodes =>
    rw [State.put_world, hNodes] at hDone
    exact absurd hDone (hUpdate hNew (by simp))
  | @went w h a new node status body body' obs acts hCurrent hBody hBody' hRoot hFits hLive hTasks
    hStep hNodes =>
    rw [State.put_world, hNodes] at hDone
    exact absurd hDone (hUpdate hNew (by simpa using hLive))
  | @made w h frame a node callee rest obs hCurrent hPoint hFresh hNodes
  | @dropped w h child x a node tasks body rest obs hCurrent hPoint hHeld hTasks hStep hNodes =>
    rw [State.put_world, State.put_world, hNodes] at hDone
    exact absurd hDone (hUpdate hNew (by simp))
  | @awaited w h child x a node task rest obs hCurrent hPoint hHeld hChild hNodes =>
    rw [State.put_world, hNodes] at hDone
    exact absurd hDone (hUpdate (hUpdate hNew (by simp)) (by simp))
  | @returned w h parent a p node caller result rest obs hCurrent hPoint hTasks hRole hCaller
    hParent hAwaits hNodes =>
    rw [State.put_world, State.put_world, hNodes] at hDone
    exact absurd hDone (hUpdate (hUpdate hNew (by simp)) (by simp))
  | @completed w h a node result obs hCurrent hPoint hTasks hRole hNodes left hAfter hPromised =>
    by_cases hEq : t = h
    · subst hEq
      exact ⟨left, { a with point := .ended result }, result, hAfter, State.put_self .., rfl,
        hPromised, by simp⟩
    · rw [State.put_world, hNodes, statuses_update, Function.update_of_ne hEq] at hDone
      exact absurd hDone hNew

/-- How far the executor is with the roots that have ended. -/
structure Settling (s : State φ υ) (trace : List (Event φ υ)) : Prop where
  begun : ∀ {n}, n < s.spawned → ∃ body, Event.spawned n body ∈ trace
  once : ∀ {n result}, Event.completed n result ∈ trace → n < s.spawned ∧
    resultOf n trace = some result
  head : ∀ {h}, s.world.completedHead = some h → ∃ (left : Nat) (a : Activation φ υ)
    (result : Result υ), s.world.control = .drain none left ∧ s.code h = some a ∧
      a.point = .ended result ∧ promised s.world h = result.exception ∧
      Event.completed a.root result ∈ trace
  error : ∀ {e left}, s.world.control = .drain (some e) left → s.world.completedHead = none ∧
    ∃ n, Event.completed n (.threw e) ∈ trace ∧ Event.destroyed n ∈ trace
  thrown : ∀ {n e}, Event.completed n (.threw e) ∈ trace → .io (.runThrew (.task e)) ∈ trace ∨
    (∃ left, s.world.control = .drain (some e) left) ∨
      ∃ h, s.world.completedHead = some h ∧ promised s.world h = some e

namespace Settling

theorem begun_moved (settling : Settling s trace) (hMoved : Moved s actor s' events)
    (hNumber : n < s'.spawned) : ∃ body, Event.spawned n body ∈ trace ++ events := by
  have hOld (hLess : n < s.spawned) : ∃ body, Event.spawned n body ∈ trace ++ events := by
    obtain ⟨body, hMem⟩ := settling.begun hLess
    exact ⟨body, List.mem_append_left _ hMem⟩
  cases hMoved with
  | @spawned w frame body =>
    rcases Nat.lt_succ_iff_lt_or_eq.mp hNumber with hLess | rfl
    · exact hOld hLess
    · exact ⟨body, by simp⟩
  | _ => exact hOld hNumber

/-- A coroutine that runs works for a root that has not ended. -/
theorem not_over (told : Told wrap s trace) (settling : Settling s trace)
    (hCurrent : Current s h a node) : resultOf a.root trace = none := by
  obtain ⟨body, hSpawned⟩ := settling.begun (told.frames.numbered hCurrent.code)
  cases told.stories hSpawned with
  | alive hResult => exact hResult
  | ended hResult hRuns hDone =>
      exact absurd rfl (Story.number_ne hCurrent told.scheduled told.frames hDone)

theorem once_moved (told : Told wrap s trace) (settling : Settling s trace)
    (hMoved : Moved s actor s' events) (hMem : Event.completed n result ∈ trace ++ events) :
    n < s'.spawned ∧ resultOf n (trace ++ events) = some result := by
  rcases List.mem_append.mp hMem with hPast | hNow
  · obtain ⟨hNumber, hResult⟩ := settling.once hPast
    refine ⟨Nat.lt_of_lt_of_le hNumber (spawned_le hMoved), ?_⟩
    rw [resultOf_append, hResult]
    rfl
  · cases hMoved with
    | @completed w h a node result' obs hCurrent =>
      simp only [List.mem_append, List.mem_map, reduceCtorEq, and_false, exists_false,
        List.mem_singleton, Event.completed.injEq, false_or] at hNow
      obtain ⟨rfl, rfl⟩ := hNow
      refine ⟨told.frames.numbered hCurrent.code, ?_⟩
      rw [resultOf_append, settling.not_over told hCurrent, resultOf_append, resultOf_io]
      simp [resultOf]
    | _ => simp at hNow

/-- The completed root at the head of the list has its result in its promise. -/
theorem head_moved (told : Told wrap s trace) (told' : Told wrap s' (trace ++ events))
    (settling : Settling s trace) (hMoved : Moved s actor s' events) {t : Nat}
    (hHead : s'.world.completedHead = some t) :
    ∃ (left : Nat) (a : Activation φ υ) (result : Result υ), s'.world.control = .drain none left ∧
      s'.code t = some a ∧ a.point = .ended result ∧ promised s'.world t = result.exception ∧
        Event.completed a.root result ∈ trace ++ events := by
  have hDone' := told'.scheduled.threaded.done.mpr hHead
  by_cases hDone : statuses s.world.nodes t = some .done
  · have hOld := told.scheduled.threaded.done.mp hDone
    obtain ⟨left, a, result, hControl, hCode, hPoint, hPromised, hMem⟩ := settling.head hOld
    have hDraining : s'.world.control.draining ≠ false := by
      intro hFalse
      rw [told'.scheduled.head hFalse] at hHead
      cases hHead
    have hBusy : s.world.control.draining = true := by
      rw [hControl]
      rfl
    cases hMoved.draining told.scheduled hBusy
    cases hMoved with
    | idle obs hNodes hPasses =>
      cases hPasses with
      | stays hSame hSame' =>
        exact ⟨left, a, result, hSame.trans hControl, hCode,
          hPoint, by rw [← hPromised]; exact congrFun hSame' t, List.mem_append_left _ hMem⟩
      | apart hBefore hAfter | leaves hBefore hAfter | throws hBefore hAfter =>
        exact absurd hAfter hDraining
    | resumed obs hNode hParked hNodes hBefore hAfter | spawned obs hFresh hNodes hBefore hAfter =>
      exact absurd hAfter hDraining
    | @drained w root node obs hNode hRootDone hNodes =>
      have hRoot := (told.scheduled.threaded.completed_eq hNode).mpr hRootDone
      cases hOld.symm.trans hRoot
      rw [State.put_world, hNodes, statuses_update, Function.update_self] at hDone'
      cases hDone'
  · obtain ⟨left, b, result, hControl, hCode, hPoint, hPromised, hMem⟩ := done_of_moved hMoved
      hDone' hDone
    exact ⟨left, b, result, hControl, hCode, hPoint, hPromised, List.mem_append_right _ hMem⟩

/-- A root found done stays so until `drain_completed` destroys it. -/
theorem completedHead_eq (sched : Scheduled short s.world) (sched' : Scheduled short s'.world)
    (hNodes : s'.world.nodes = s.world.nodes) : s'.world.completedHead = s.world.completedHead := by
  have hIff (t : Nat) : s'.world.completedHead = some t ↔ s.world.completedHead = some t := by
    rw [← sched'.threaded.done, ← sched.threaded.done, hNodes]
  exact Option.ext hIff

/-- The exception that `drain_completed` holds is that of a root it has destroyed. -/
theorem error_moved (told : Told wrap s trace) (told' : Told wrap s' (trace ++ events))
    (settling : Settling s trace) (hMoved : Moved s actor s' events)
    (hControl : s'.world.control = .drain (some e) left) :
    s'.world.completedHead = none ∧
      ∃ n, Event.completed n (.threw e) ∈ trace ++ events ∧
      Event.destroyed n ∈ trace ++ events := by
  have hDraining : s'.world.control.draining ≠ false := by
    rw [hControl]
    simp [Control.draining]
  cases hMoved with
  | idle obs hNodes hPasses =>
    cases hPasses with
    | stays hSame =>
      obtain ⟨hNone, n, hCompleted, hDestroyed⟩ := settling.error (hSame.symm.trans hControl)
      exact ⟨(completedHead_eq told.scheduled told'.scheduled hNodes).trans hNone, n,
        List.mem_append_left _ hCompleted, List.mem_append_left _ hDestroyed⟩
    | apart hBefore hAfter | leaves hBefore hAfter | throws hBefore hAfter =>
      exact absurd hAfter hDraining
  | resumed obs hNode hParked hNodes hBefore hAfter | spawned obs hFresh hNodes hBefore hAfter =>
    exact absurd hAfter hDraining
  | @drained w root node obs hNode hRootDone hNodes left' found hBefore hAfter =>
    have hHead := (told.scheduled.threaded.completed_eq hNode).mpr hRootDone
    obtain ⟨left'', a, result, hFound, hCode, hPoint, hPromised, hMem⟩ := settling.head hHead
    rw [hBefore] at hFound
    cases hFound
    change w.control = _ at hControl
    rw [hAfter, hPromised] at hControl
    cases result with
    | returned => cases hControl
    | threw =>
      cases hControl
      refine ⟨?_, a.root, List.mem_append_left _ hMem, by simp [hCode]⟩
      cases hHead' : w.completedHead with
      | none => exact hHead'
      | some =>
        have hDone' := told'.scheduled.threaded.done.mpr hHead'
        rw [State.put_world, hNodes, statuses_update, Function.update_apply] at hDone'
        split_ifs at hDone' with hEq
        · cases hDone'
        · exact absurd (Option.some.inj ((told.scheduled.threaded.done.mp hDone').symm.trans hHead))
            hEq
  | went obs acts hCurrent hBody hBody' hRoot hFits hLive hTasks hStep hNodes hCalm
  | made obs hCurrent hPoint hNew hNodes hCalm
  | dropped obs hCurrent hPoint hHeld hTasks hStep hNodes hCalm
  | awaited obs hCurrent hPoint hHeld hChild hNodes hCalm => exact absurd hControl (hCalm _ _)
  | returned obs hCurrent hPoint hTasks hRole hCaller hParent hAwaits hNodes hBefore hAfter
  | completed obs hCurrent hPoint hTasks hRole hNodes hAfter => cases hAfter.symm.trans hControl

/-- The exception of an ended root waits in its promise, then in `drain_completed`, and leaves
with `run`. -/
theorem thrown_moved (told : Told wrap s trace) (told' : Told wrap s' (trace ++ events))
    (settling : Settling s trace) (hMoved : Moved s actor s' events)
    (hMem : Event.completed n (.threw e) ∈ trace ++ events) :
    .io (.runThrew (.task e)) ∈ trace ++ events ∨ (∃ left, s'.world.control = .drain (some e) left)
      ∨ ∃ h, s'.world.completedHead = some h ∧ promised s'.world h = some e := by
  rcases List.mem_append.mp hMem with hPast | hNow
  · rcases settling.thrown hPast with hThrown | ⟨left, hControl⟩ | ⟨t, hHead, hPromised⟩
    · exact .inl (List.mem_append_left _ hThrown)
    · cases hMoved.draining told.scheduled (by rw [hControl]; rfl)
      cases hMoved with
      | idle obs hNodes hPasses =>
        cases hPasses with
        | stays hSame => exact .inr (.inl ⟨left, hSame.trans hControl⟩)
        | apart hBefore => simp [hControl, Control.draining] at hBefore
        | leaves hBefore => cases hControl.symm.trans hBefore
        | throws hBefore hAfter hThrown =>
          cases hControl.symm.trans hBefore
          exact .inl (List.mem_append_right _ (List.mem_map_of_mem hThrown))
      | resumed obs hNode hParked hNodes hBefore | spawned obs hFresh hNodes hBefore => simp [hControl, Control.draining] at hBefore
      | drained obs hNode hRootDone =>
        have hHead := (told.scheduled.threaded.completed_eq hNode).mpr hRootDone
        rw [(settling.error hControl).1] at hHead
        cases hHead
    · obtain ⟨left, a, result, hControl, hCode, hPoint, hException, hCompleted⟩ :=
        settling.head hHead
      cases hMoved.draining told.scheduled (by rw [hControl]; rfl)
      cases hMoved with
      | idle obs hNodes hPasses =>
        have hHead' := (completedHead_eq told.scheduled told'.scheduled hNodes).trans hHead
        cases hPasses with
        | stays hSame hSame' => exact .inr (.inr ⟨t, hHead', (congrFun hSame' t).trans hPromised⟩)
        | apart hBefore => simp [hControl, Control.draining] at hBefore
        | leaves hBefore hAfter => cases (told'.scheduled.head hAfter).symm.trans hHead'
        | throws hBefore => cases hControl.symm.trans hBefore
      | resumed obs hNode hParked hNodes hBefore | spawned obs hFresh hNodes hBefore => simp [hControl, Control.draining] at hBefore
      | drained obs hNode hRootDone hNodes hBefore hAfter =>
        cases hHead.symm.trans ((told.scheduled.threaded.completed_eq hNode).mpr hRootDone)
        cases hControl.symm.trans hBefore
        rw [hPromised] at hAfter
        exact .inr (.inl ⟨left, hAfter⟩)
  · cases hMoved with
    | @completed w h a node result obs hCurrent hPoint hTasks hRole hNodes left hAfter hPromised =>
      simp only [List.mem_append, List.mem_map, reduceCtorEq, and_false, exists_false,
        List.mem_singleton, Event.completed.injEq, false_or] at hNow
      obtain ⟨rfl, rfl⟩ := hNow
      refine .inr (.inr ⟨h, told'.scheduled.threaded.done.mp ?_, hPromised⟩)
      rw [State.put_world, hNodes, statuses_update, Function.update_self]
      rfl
    | _ => simp at hNow

theorem start : Settling (State.create : State φ υ) [] where
  begun hLess := absurd hLess (Nat.not_lt_zero _)
  once hMem := absurd hMem (List.not_mem_nil)
  head hHead := by cases hHead
  error hControl := by cases hControl
  thrown hMem := absurd hMem (List.not_mem_nil)

theorem moved (told : Told wrap s trace) (told' : Told wrap s' (trace ++ events))
    (settling : Settling s trace) (hMoved : Moved s actor s' events) :
    Settling s' (trace ++ events) where
  begun := settling.begun_moved hMoved
  once := settling.once_moved told hMoved
  head := settling.head_moved told told' hMoved
  error := settling.error_moved told told' hMoved
  thrown := settling.thrown_moved told told' hMoved

end Settling

theorem settling_of_reaches (hReaches : (machine φ υ wrap).Reaches s trace) : Settling s trace :=
  invariant_of_moves (P := Settling) .start (fun told settling hMoved told' => settling.moved told
  told' hMoved) hReaches

/-- `run` throws the exception of a root that has ended with it and is gone, with every
coroutine that worked for it. Every root that ends with an exception makes `run` throw it:
until then it is in the promise of the root, or `drain_completed` has it. -/
theorem run_rethrows (hReaches : (machine φ υ wrap).Reaches s trace) :
    (∀ {label s' events e}, (machine φ υ wrap).next s (.io label) = some (s', events) →
      .io (.runThrew (.task e)) ∈ events → ∃ n body, Event.spawned n body ∈ trace ∧
        Runs [] body (actsOf n trace) (some (.threw e)) ∧ Event.destroyed n ∈ trace ∧
          ∀ {h a}, s.code h = some a → a.root ≠ n) ∧
    ∀ {n e}, Event.completed n (.threw e) ∈ trace → .io (.runThrew (.task e)) ∈ trace ∨
      (∃ left, s.world.control = .drain (some e) left) ∨
        ∃ h, s.world.completedHead = some h ∧ promised s.world h = some e := by
  have told := told_of_reaches hReaches
  have settling := settling_of_reaches hReaches
  refine ⟨fun {label s' events e} hNext hThrown => ?_, settling.thrown⟩
  obtain ⟨left, hControl⟩ : ∃ left, s.world.control = .drain (some e) left := by
    simp only [machine, State.next] at hNext
    split_ifs at hNext with hAllows
    simp only [State.io, Option.bind_eq_bind, Option.bind_eq_some_iff] at hNext
    obtain ⟨⟨w, obs⟩, hStep, hNext⟩ := hNext
    refine drain_of_thrown (step_of_next hStep) ?_
    split at hNext
    · cases hNext
      simpa using hThrown
    · cases hNext
      simpa using hThrown
  obtain ⟨hHead, n, hCompleted, hDestroyed⟩ := settling.error hControl
  obtain ⟨hNumber, hResult⟩ := settling.once hCompleted
  obtain ⟨body, hSpawned⟩ := settling.begun hNumber
  have story := told.stories hSpawned
  refine ⟨n, body, hSpawned, hResult ▸ story.runs, hDestroyed, fun {h a} hCode hRoot => ?_⟩
  obtain ⟨root, hMem, r, hr, hKin⟩ := (kept_of_reaches hReaches).rooted told.scheduled told.frames
    hCode
  cases story with
  | alive hNone => cases hNone.symm.trans hResult
  | ended hResult' hRuns hDone =>
    have hRole := told.scheduled.threaded.roots.mp hMem
    cases hHead.symm.trans (told.scheduled.threaded.done.mp (hDone hr (hKin.trans hRoot) hRole))

end Rethrown

namespace Failing

/-- A coroutine that yields and then throws. -/
def body : Body Nested.Reply Nat := .ask .yield (fun _ => .finish (.threw 5))

/-- The root ends, and `drain_completed` destroys it. -/
def labels : List (Label Nested.Reply Nat) :=
  let advance := .io (.advance (fun _ => 0) none Faults.none)
  let go := .go 1 0 Faults.none (fun _ => ())
  [.spawn body 0 false, .io .run, advance, advance, go, advance, advance, advance,
    .io (.advance (fun _ => 0) (some []) Faults.none), advance, advance, advance, advance, go, go,
    advance]

end Failing

theorem run_rethrows_failing : ∃ s trace, (machine Nested.Reply Nat .unbounded).Reaches s trace ∧
    ∃ n body, Event.spawned n body ∈ trace ∧ Runs [] body (actsOf n trace) (some (.threw 5)) ∧
      Event.destroyed n ∈ trace ∧ ∀ {h a}, s.code h = some a → a.root ≠ n := by
  have hRun : (((machine Nested.Reply Nat .unbounded).run .create Failing.labels).bind (fun r =>
      ((machine Nested.Reply Nat .unbounded).next r.1
        (.io (.advance (fun _ => 0) none Faults.none))).map (fun q => obsOf q.2))) =
        some [.runThrew (.task 5)] := by decide +kernel
  obtain ⟨⟨s, trace⟩, hRun, hLast⟩ := Option.bind_eq_some_iff.mp hRun
  obtain ⟨⟨s', events⟩, hNext, hObs⟩ := Option.map_eq_some_iff.mp hLast
  have hThrown : .io (.runThrew (.task 5)) ∈ events :=
    mem_of_obsOf (hObs ▸ List.mem_singleton_self _)
  have hReaches := Machine.Reaches.start.run hRun
  exact ⟨s, _, hReaches, (run_rethrows hReaches).1 hNext hThrown⟩

end Tinycoro.Coroutine
