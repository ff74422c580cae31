import Tinycoro.Task.DirectStyle

/-! No coroutine outlives the root it works for: a coroutine that has not started is held by a
`Task` variable of one that has, and those hang on a root. -/
namespace Tinycoro.Coroutine

open Io Transition Calls World Threads

variable {ε : Type} {φ : ε → Type} {υ : Type}

/-- A coroutine that has not started is in a `Task` variable, and one that has ended has left
none behind. -/
structure Kept (code : Nat → Option (Activation φ υ)) (nodes : Nat → Option Node) : Prop where
  holder : ∀ {c}, roles nodes c = some .free → ∃ h a i, code h = some a ∧ held a.tasks i = some c
  bare : ∀ {h a result}, code h = some a → a.point = .ended result → a.tasks = []

namespace Kept

variable {code : Nat → Option (Activation φ υ)} {nodes nodes' : Nat → Option Node} {h frame : Nat}
  {a : Activation φ υ} {new : Option (Activation φ υ)}

/-- One coroutine goes on, or goes. -/
theorem put (kept : Kept code nodes) (hCode : code h = some a)
    (hFree : ∀ {c}, roles nodes' c = some .free → roles nodes c = some .free)
    (hTasks : ∀ {c i}, roles nodes' c = some .free → held a.tasks i = some c →
      ∃ b j, new = some b ∧ held b.tasks j = some c)
    (hBare : ∀ {b result}, new = some b → b.point = .ended result → b.tasks = []) :
    Kept (Function.update code h new) nodes' where
  holder {c} hRole := by
    obtain ⟨t, b, i, hb, hHeld⟩ := kept.holder (hFree hRole)
    by_cases hEq : t = h
    · subst hEq
      cases hCode.symm.trans hb
      obtain ⟨b', j, hNew, hHeld'⟩ := hTasks hRole hHeld
      exact ⟨t, b', j, (Function.update_self ..).trans hNew, hHeld'⟩
    · exact ⟨t, b, i, (Function.update_of_ne hEq ..).trans hb, hHeld⟩
  bare {t b result} hb hPoint := by
    by_cases hEq : t = h
    · subst hEq
      rw [Function.update_self] at hb
      exact hBare hb hPoint
    · rw [Function.update_of_ne hEq] at hb
      exact kept.bare hb hPoint

/-- A coroutine that holds nothing goes on, or goes. -/
theorem put_bare (kept : Kept code nodes) (hCode : code h = some a) (hTasks : a.tasks = [])
    (hFree : ∀ {c}, roles nodes' c = some .free → roles nodes c = some .free)
    (hBare : ∀ {b result}, new = some b → b.point = .ended result → b.tasks = []) :
    Kept (Function.update code h new) nodes' := by
  refine kept.put hCode hFree (fun _ hHeld => ?_) hBare
  rw [hTasks] at hHeld
  cases hHeld

theorem add (kept : Kept code nodes) (hNew : code frame = none) (body : Body φ υ) (n : Nat)
    (node : Node)
    (hHolder : node.role = .free → ∃ h a i, code h = some a ∧ held a.tasks i = some frame) :
    Kept (Function.update code frame (some ⟨.at body, [], n⟩))
      (Function.update nodes frame (some node)) where
  holder {c} hRole := by
    have hOld : ∃ h a i, code h = some a ∧ held a.tasks i = some c := by
      rw [roles_update, Function.update_apply] at hRole
      split_ifs at hRole with hEq
      · rw [hEq]
        exact hHolder (Option.some.inj hRole)
      · exact kept.holder hRole
    obtain ⟨t, b, i, hb, hHeld⟩ := hOld
    have hNe : t ≠ frame := by
      rintro rfl
      cases hNew.symm.trans hb
    exact ⟨t, b, i, (Function.update_of_ne hNe ..).trans hb, hHeld⟩
  bare {t b result} hb hPoint := by
    rcases Update.some_cases hb with ⟨rfl, rfl⟩ | ⟨-, hb⟩
    · rfl
    · exact kept.bare hb hPoint

end Kept

section Moves

variable {short : Prop} {s s' : State φ υ} {trace events : List (Event φ υ)} {actor : Option Nat}
  {h : Nat} {a : Activation φ υ} {node : Node}

theorem free_of_setStatus {nodes : Nat → Option Node} {c : Nat} {status : Status}
    (hNode : nodes h = some node)
    (hRole : roles (Function.update nodes h (some { node with status })) c = some .free) :
    roles nodes c = some .free := by
  rw [roles_update, Function.update_apply] at hRole
  split_ifs at hRole with hEq
  · rw [hEq, roles_of_node hNode]
    exact hRole
  · exact hRole

theorem free_of_update {nodes : Nat → Option Node} {c : Nat} {new : Option Node}
    (hNew : new.map Node.role ≠ some .free)
    (hRole : roles (Function.update nodes h new) c = some .free) :
    c ≠ h ∧ roles nodes c = some .free := by
  rw [roles_update, Function.update_apply] at hRole
  split_ifs at hRole with hEq
  · exact absurd hRole hNew
  · exact ⟨hEq, hRole⟩

theorem bare_of_live {b : Activation φ υ} {result : Result υ}
    (hLive : ∀ result, a.point ≠ .ended result) (hEq : some a = some b)
    (hPoint : b.point = .ended result) : b.tasks = [] := by
  cases hEq
  exact absurd hPoint (hLive result)

/-- Every move keeps the coroutines that have not started in `Task` variables. -/
theorem kept_of_moved (sched : Scheduled short s.world)
    (frames : s.Framed) (kept : Kept s.code s.world.nodes)
    (hMoved : Moved s actor s' events) : Kept s'.code s'.world.nodes := by
  cases hMoved with
  | @idle w obs hNodes =>
    change Kept s.code w.nodes
    rw [hNodes]
    exact kept
  | @resumed w h node obs hNode hParked hNodes =>
    change Kept s.code w.nodes
    rw [hNodes]
    exact ⟨fun hRole => kept.holder (free_of_setStatus hNode hRole), kept.bare⟩
  | @drained w root node obs hNode hDone hNodes =>
    change Kept (Function.update s.code root none) w.nodes
    rw [hNodes]
    obtain ⟨a, hCode⟩ := frames.code_of_node hNode
    obtain ⟨result, hPoint⟩ := (hDone ▸ frames.fits hCode hNode).ended
    exact kept.put_bare hCode (kept.bare hCode hPoint)
      (fun hRole => (free_of_update (by simp) hRole).2) (by simp)
  | @spawned w frame body obs hNew hNodes =>
    change Kept (Function.update s.code frame _) w.nodes
    rw [hNodes]
    exact kept.add (frames.live.mpr hNew) body s.spawned _ (by simp)
  | @went w h a new node status body body' obs acts hCurrent hBody hBody' hRoot hFits hLive hTasks
    hStep hNodes =>
    change Kept (Function.update s.code h (some new)) w.nodes
    rw [hNodes]
    refine kept.put hCurrent.code (free_of_setStatus hCurrent.frame)
      (fun _ hHeld => ⟨new, _, rfl, hTasks.mpr hHeld⟩) (fun hEq hPoint => ?_)
    cases hEq
    exact absurd (hFits.done hPoint) hLive
  | @made w h frame a node callee rest obs hCurrent hPoint hNew hNodes =>
    have hNe : frame ≠ h := by
      rintro rfl
      cases hNew.symm.trans hCurrent.frame
    change Kept (Function.update (Function.update s.code frame _) h _) w.nodes
    rw [hNodes, Function.update_comm hNe]
    have hSet : Kept (Function.update s.code h
        (some { a with point := .at rest, tasks := a.tasks ++ [some frame] })) s.world.nodes := by
      refine kept.put hCurrent.code id (fun {c i} _ hHeld => ⟨_, i, rfl, ?_⟩)
        (bare_of_live (by simp))
      exact held_append hHeld
    refine hSet.add ?_ callee a.root _ (fun _ => ⟨h, _, a.tasks.length, Function.update_self ..,
      ?_⟩)
    · exact (Function.update_of_ne hNe ..).trans (frames.live.mpr hNew)
    · simp [held]
  | @dropped w h child x a node tasks body rest obs hCurrent hPoint hHeld hTasks hStep hNodes =>
    have hNe := hCurrent.ne_of_held sched frames hCurrent.code hHeld
    change Kept (Function.update (Function.update s.code child none) h _) w.nodes
    rw [hNodes, Function.update_comm hNe]
    obtain ⟨b, task, hb, -, hTask, hCreated⟩ := Current.held_node frames sched hCurrent.code hHeld
    have hSet : Kept (Function.update s.code h (some { a with point := .at rest, tasks }))
        (Function.update s.world.nodes child none) := by
      refine kept.put hCurrent.code (fun hRole => (free_of_update (by simp) hRole).2)
        (fun {c i} hRole hOther => ⟨_, i, rfl, hTasks.mpr ⟨?_, hOther⟩⟩) (bare_of_live (by simp))
      rintro rfl
      cases hHeld.symm.trans hOther
      exact (free_of_update (by simp) hRole).1 rfl
    exact hSet.put_bare ((Function.update_of_ne hNe ..).trans hb)
      ((frames.fits hb hTask).at_of_created hCreated).2 id (by simp)
  | @awaited w h child x a node task rest obs hCurrent hPoint hHeld hChild hNodes =>
    change Kept (Function.update s.code h _) w.nodes
    rw [hNodes]
    refine kept.put hCurrent.code
      (fun hRole => free_of_setStatus hCurrent.frame (free_of_update (by simp) hRole).2)
      (fun {c i} hRole hOther => ⟨_, i, rfl, held_of_set.mpr ⟨?_, hOther⟩⟩) (bare_of_live (by simp))
    rintro rfl
    cases hHeld.symm.trans hOther
    exact (free_of_update (by simp) hRole).1 rfl
  | @returned w h parent a b node caller result rest obs hCurrent hPoint hTasks hRole hCaller
    hParent hAwaits hNodes =>
    have hNe : parent ≠ h := by
      rintro rfl
      cases hParent.symm.trans hCurrent.code
      rw [hPoint] at hAwaits
      cases hAwaits
    change Kept (Function.update (Function.update s.code h none) parent _) w.nodes
    rw [hNodes]
    have hGone : Kept (Function.update s.code h none)
        (Function.update (Function.update s.world.nodes parent
        (some { caller with status := .running })) h none) :=
      kept.put_bare hCurrent.code hTasks
        (fun hRole' => free_of_setStatus hCaller (free_of_update (by simp) hRole').2) (by simp)
    exact hGone.put ((Function.update_of_ne hNe ..).trans hParent) id
      (fun _ hOther => ⟨_, _, rfl, hOther⟩) (bare_of_live (by simp))
  | @completed w h a node result obs hCurrent hPoint hTasks hRole hNodes =>
    change Kept (Function.update s.code h _) w.nodes
    rw [hNodes]
    refine kept.put_bare hCurrent.code hTasks (free_of_setStatus hCurrent.frame) (fun hEq _ => ?_)
    cases hEq
    exact hTasks

/-- Every coroutine works for a root that is still there. -/
theorem Kept.rooted (kept : Kept s.code s.world.nodes) (sched : Scheduled short s.world)
    (frames : s.Framed) (hCode : s.code h = some a) :
    ∃ root ∈ s.world.roots, ∃ r, s.code root = some r ∧ r.root = a.root := by
  have hStarted {t : Nat} {b : Activation φ υ} (hb : s.code t = some b)
      (hRole : roles s.world.nodes t ≠ some .free) : ∃ root ∈ s.world.roots, ∃ r, s.code root =
      some r ∧ r.root = b.root := by
    obtain ⟨root, r, hr, hNumber, hRoot, -⟩ := frames.rooted sched hb hRole
    exact ⟨root, sched.threaded.roots.mpr hRoot, r, hr, hNumber⟩
  by_cases hFree : roles s.world.nodes h = some .free
  · obtain ⟨t, b, i, hb, hHeld⟩ := kept.holder hFree
    obtain ⟨-, x, hx, hNumber⟩ := frames.owned hb hHeld
    cases hCode.symm.trans hx
    rw [hNumber]
    -- what has not started holds nothing
    refine hStarted hb (fun hFree' => ?_)
    obtain ⟨node, hNode⟩ := frames.node_of_code hb
    have hTasks := ((frames.fits hb hNode).at_of_created
        (created_of_free sched.threaded hFree' hNode)).2
    rw [hTasks] at hHeld
    cases hHeld
  · exact hStarted hCode hFree

end Moves

theorem kept_of_reaches {wrap : Wrap} {s : State φ υ} {trace : List (Event φ υ)}
    (hReaches : (machine φ υ wrap).Reaches s trace) : Kept s.code s.world.nodes :=
  invariant_of_moves (P := fun s _ => Kept s.code s.world.nodes)
    ⟨fun hRole => (by cases hRole), fun hCode => (by cases hCode)⟩
    (fun told kept hMoved _ => kept_of_moved told.scheduled told.frames kept hMoved) hReaches

/-- Every coroutine works for a root in `roots_`, so none is left when that is empty. -/
theorem frames_rooted {wrap : Wrap} {s : State φ υ} {trace : List (Event φ υ)}
    (hReaches : (machine φ υ wrap).Reaches s trace) :
    (∀ {h a}, s.code h = some a → ∃ root ∈ s.world.roots, ∃ r, s.code root = some r ∧
      r.root = a.root) ∧ (s.world.roots = ∅ → ∀ h, s.world.frames h = none) := by
  have told := told_of_reaches hReaches
  have hRooted {h : Nat} {a : Activation φ υ} (hCode : s.code h = some a) :=
    (kept_of_reaches hReaches).rooted told.scheduled told.frames hCode
  refine ⟨hRooted, fun hEmpty h => ?_⟩
  have hNone : s.code h = none := by
    cases hCode : s.code h with
    | none => rfl
    | some =>
      obtain ⟨root, hRoot, -⟩ := hRooted hCode
      rw [hEmpty] at hRoot
      exact absurd hRoot (Finset.notMem_empty root)
  exact Option.map_eq_none_iff.mp (told.frames.live.mp hNone)

theorem frames_rooted_nested : ∃ s trace, (machine Nested.Reply Nat .unbounded).Reaches s trace ∧
    resultOf 0 trace = some (.returned none) ∧ ∀ h, s.world.frames h = none := by
  have hRun : ((machine Nested.Reply Nat .unbounded).run .create
      (.spawn Nested.body 0 false :: Nested.alone ++
      [.io (.advance (fun _ => 0) none Faults.none)])).map
        (fun r => (r.1.world.roots, resultOf 0 r.2)) =
        some (∅, some (.returned none)) := by decide +kernel
  obtain ⟨⟨s, trace⟩, hRun, hEq⟩ := Option.map_eq_some_iff.mp hRun
  simp only [Prod.mk.injEq] at hEq
  have hReaches := Machine.Reaches.start.run hRun
  exact ⟨s, _, hReaches, hEq.2, (frames_rooted hReaches).2 hEq.1⟩

end Tinycoro.Coroutine
