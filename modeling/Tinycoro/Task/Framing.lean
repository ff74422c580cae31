import Tinycoro.Task.Moves

/-! What a move does to frames it does not concern: nothing. The frames keep the code that
belongs to them, and a coroutine that waits finds its variables as it left them. -/
namespace Tinycoro.Coroutine

open Io Effect Transition Calls World Threads

variable {ε : Type} {φ : ε → Type} {υ : Type}

section Nodes

variable {nodes : Nat → Option Node} {roots : Finset Nat} {active completed : Option Nat}
  {h c : Nat} {node : Node}

theorem created_of_free (inv : Threaded nodes roots active completed)
    (hRole : roles nodes c = some .free) (hNode : nodes c = some node) :
    node.status = .created := by
  rw [roles_of_node hNode, Option.some.injEq] at hRole
  exact (inv.sound hNode).free hRole

theorem ne_of_free (inv : Threaded nodes roots active completed)
    (hRole : roles nodes c = some .free) (hNode : nodes h = some node)
    (hStatus : node.status ≠ .created) : c ≠ h := by
  rintro rfl
  exact hStatus (created_of_free inv hRole hNode)

/-- Only a coroutine that awaits has a child. -/
theorem childless (inv : Threaded nodes roots active completed) (hNode : nodes h = some node)
    (hStatus : node.status.callee = none) : roles nodes c ≠ some (.child h) := by
  rw [Ne, ← inv.hung.linked, callees_of_node hNode, hStatus]
  simp

end Nodes

namespace Current

variable {s : State φ υ} {h c x : Nat} {a : Activation φ υ} {node : Node} {short : Prop}

theorem ne_of_held (hCurrent : Current s h a node) (sched : Scheduled short s.world)
    (frames : s.Framed) {t i : Nat} {b : Activation φ υ}
    (hCode : s.code t = some b) (hHeld : held b.tasks i = some c) : c ≠ h := by
  refine ne_of_free sched.threaded (frames.owned hCode hHeld).1 hCurrent.frame ?_
  rw [hCurrent.running]
  simp

theorem held_node (frames : s.Framed) (sched : Scheduled short s.world)
    (hCode : s.code h = some a) (hHeld : held a.tasks x = some c) :
    ∃ b task, s.code c = some b ∧ b.root = a.root ∧ s.world.nodes c = some task ∧
      task.status = .created := by
  obtain ⟨hFree, b, hb, hKin⟩ := frames.owned hCode hHeld
  obtain ⟨task, hTask⟩ := frames.node_of_code hb
  exact ⟨b, task, hb, hKin, hTask, created_of_free sched.threaded hFree hTask⟩

end Current

section Preservation

variable {short : Prop} {s s' : State φ υ} {events : List (Event φ υ)}
  {h x child parent frame : Nat} {a b : Activation φ υ} {node : Node}

/-- A coroutine is called: the caller holds the new `Task`. -/
theorem frames_made (frames : s.Framed) (hCurrent : Current s h a node)
    (callee rest : Body φ υ) (hNew : s.world.nodes frame = none) :
    Frames (Function.update (Function.update s.code frame (some ⟨.at callee, [], a.root⟩)) h
        (some { a with point := .at rest, tasks := a.tasks ++ [some frame] }))
      (Function.update s.world.nodes frame (some ⟨.free, .created, none⟩)) s.spawned := by
  have hNe : h ≠ frame := by
    rintro rfl
    rw [hCurrent.frame] at hNew
    cases hNew
  have hAdded := frames.add hNew callee none (frames.numbered hCurrent.code) le_rfl (.inl rfl)
  have hCode := (Function.update_of_ne hNe (some ⟨.at callee, [], a.root⟩) s.code).trans
      hCurrent.code
  have hNode := (Function.update_of_ne hNe (some ⟨.free, .created, none⟩) s.world.nodes).trans
      hCurrent.frame
  -- nothing could hold the new frame before
  have hUnheld {t i : Nat} {x : Activation φ υ}
      (hx : Function.update s.code frame (some ⟨.at callee, [], a.root⟩) t = some x) :
      held x.tasks i ≠ some frame := by
    rcases Update.some_cases hx with ⟨rfl, rfl⟩ | ⟨-, hx⟩
    · simp [held]
    · intro hHeld
      obtain ⟨-, y, hy, -⟩ := frames.owned hx hHeld
      rw [frames.live.mpr hNew] at hy
      cases hy
  have hSet := hAdded.set hCode hNode { a with point := .at rest, tasks := a.tasks ++ [some frame] }
    .running rfl (.inr rfl) ?_ ?_ ?_
  · rw [← hCurrent.running, ← hNode, Function.update_eq_self] at hSet
    exact hSet
  · intro i c hHeld
    rcases held_of_append hHeld with hOld | ⟨-, rfl⟩
    · exact hAdded.owned hCode hOld
    · refine ⟨?_, _, Function.update_self .., rfl⟩
      rw [roles_update, Function.update_self]
      rfl
  · intro i c t x j hHeld hOther hx hHeld'
    rcases held_of_append hHeld with hOld | ⟨-, rfl⟩
    · exact hOther (hAdded.sole hx hHeld' hCode hOld).1
    · exact hUnheld hx hHeld'
  · intro i j c hHeld hHeld'
    rcases held_of_append hHeld with hOld | ⟨hIndex, hEq⟩
      <;> rcases held_of_append hHeld' with hOld' | ⟨hIndex', hEq'⟩
    · exact (hAdded.sole hCode hOld hCode hOld').2
    · exact absurd (hEq' ▸ hOld) (hUnheld hCode)
    · exact absurd (hEq ▸ hOld') (hUnheld hCode)
    · exact hIndex.trans hIndex'.symm

theorem frames_dropped (sched : Scheduled short s.world)
    (frames : s.Framed) (hCurrent : Current s h a node)
    (rest : Body φ υ) (hHeld : held a.tasks x = some child) {tasks : List (Option Nat)}
    (hTasks : ∀ {i c}, held tasks i = some c → i ≠ x ∧ held a.tasks i = some c) :
    Frames (Function.update (Function.update s.code child none) h
      (some { a with point := .at rest, tasks }))
        (Function.update s.world.nodes child none) s.spawned := by
  have hNe := hCurrent.ne_of_held sched frames hCurrent.code hHeld
  obtain ⟨b, task, -, -, hTask, hCreated⟩ := Current.held_node frames sched hCurrent.code hHeld
  have hSet := frames.shrink hCurrent.code hCurrent.frame { a with point := .at rest, tasks }
    .running rfl (.inr rfl) (fun hOther => (hTasks hOther).2)
  rw [← hCurrent.nodes_self] at hSet
  rw [Function.update_comm hNe]
  refine hSet.remove (fun {c y i} hOther hy hHeld' => ?_)
    (childless sched.threaded hTask (by rw [hCreated]; rfl))
  rcases Update.some_cases hy with ⟨rfl, rfl⟩ | ⟨hEq, hy⟩
  · exact (hTasks hHeld').1 (frames.sole hCurrent.code (hTasks hHeld').2 hCurrent.code hHeld).2
  · exact hEq (frames.sole hy hHeld' hCurrent.code hHeld).1

theorem frames_awaited (sched : Scheduled short s.world) (frames : s.Framed)
    (hCurrent : Current s h a node) (rest : Option (Result υ) → Body φ υ)
    (hHeld : held a.tasks x = some child) {task : Node} (hTask : s.world.nodes child = some task) :
    Frames (Function.update s.code h
      (some { a with point := .awaits child rest, tasks := a.tasks.set x none }))
      (Function.update (Function.update s.world.nodes h
        (some { node with status := .awaiting child })) child
        (some { task with role := .child h, status := .running })) s.spawned := by
  have hNe := hCurrent.ne_of_held sched frames hCurrent.code hHeld
  obtain ⟨hFree, b, hb, hKin⟩ := frames.owned hCurrent.code hHeld
  have hSet := frames.shrink hCurrent.code hCurrent.frame
    { a with point := .awaits child rest, tasks := a.tasks.set x none } (.awaiting child) rfl rfl
    (fun hOther => (held_of_set.mp hOther).2)
  refine hSet.start ((Function.update_of_ne hNe ..).trans hb)
    ((Function.update_of_ne hNe ..).trans hTask)
    (created_of_free sched.threaded hFree hTask) (Function.update_self ..) hKin.symm
      (fun {c y i} hy hHeld' => ?_)
  rcases Update.some_cases hy with ⟨rfl, rfl⟩ | ⟨hEq, hy⟩
  · obtain ⟨hIndex, hOld⟩ := held_of_set.mp hHeld'
    exact hIndex (frames.sole hCurrent.code hOld hCurrent.code hHeld).2
  · exact hEq (frames.sole hy hHeld' hCurrent.code hHeld).1

theorem frames_returned (sched : Scheduled short s.world) (frames : s.Framed)
    (hCurrent : Current s h a node) {caller : Node} (hCaller : s.world.nodes parent = some caller)
    (hParent : s.code parent = some b) (hNe : h ≠ parent) (body : Body φ υ) :
    Frames (Function.update (Function.update s.code h none) parent
      (some { b with point := .at body }))
      (Function.update (Function.update s.world.nodes parent
        (some { caller with status := .running })) h none)
      s.spawned := by
  have hSet := frames.shrink hParent hCaller { b with point := .at body } .running rfl (.inr rfl) id
  rw [Function.update_comm hNe]
  refine hSet.remove (fun {c y i} hOther hy hHeld => ?_) ?_
  · rcases Update.some_cases hy with ⟨rfl, rfl⟩ | ⟨-, hy⟩
    · exact hCurrent.ne_of_held sched frames hParent hHeld rfl
    · exact hCurrent.ne_of_held sched frames hy hHeld rfl
  · intro c
    rw [roles_update, Option.map_some, ← roles_of_node hCaller, Function.update_eq_self]
    exact childless sched.threaded hCurrent.frame (by rw [hCurrent.running]; rfl)

/-- Every move keeps the code of the frames as their status says. -/
theorem frames_of_moved (sched : Scheduled short s.world) (frames : s.Framed) {actor : Option Nat}
    (hMoved : Moved s actor s' events) : s'.Framed := by
  have hThreaded := sched.threaded
  cases hMoved with
  | @idle w obs hNodes =>
    change Frames s.code w.nodes s.spawned
    rw [hNodes]
    exact frames
  | @resumed w h node obs hNode hParked hNodes =>
    obtain ⟨a, hCode⟩ := frames.code_of_node hNode
    have hFits : a.Fits .running := by
      have hOld := frames.fits hCode hNode
      unfold Activation.Fits at hOld ⊢
      rcases hParked with hStatus | ⟨hStatus, -⟩ <;> rw [hStatus] at hOld <;> split at hOld
        <;> simp_all
    have hKept := frames.shrink hCode hNode a .running rfl hFits id
    rw [← hCode, Function.update_eq_self, ← hNodes] at hKept
    exact hKept
  | @drained w root node obs hNode hDone hNodes =>
    change Frames _ w.nodes s.spawned
    rw [hNodes]
    refine frames.remove (fun _ hCode hHeld => ?_) (childless hThreaded hNode (by rw [hDone]; rfl))
    exact ne_of_free hThreaded (frames.owned hCode hHeld).1 hNode (by rw [hDone]; simp) rfl
  | @spawned w frame body obs hNew hNodes =>
    change Frames _ w.nodes (s.spawned + 1)
    rw [hNodes]
    exact frames.add hNew body none (Nat.lt_succ_self s.spawned) (Nat.le_succ s.spawned)
      (.inr ⟨rfl, le_rfl⟩)
  | @went w h a new node status body body' obs acts hCurrent hBody hBody' hRoot hFits hLive hTasks
    hStep hNodes =>
    change Frames _ w.nodes s.spawned
    rw [hNodes]
    exact frames.shrink hCurrent.code hCurrent.frame new status hRoot hFits hTasks.mp
  | @made w h frame a node callee rest obs hCurrent hPoint hNew hNodes =>
    change Frames _ w.nodes s.spawned
    rw [hNodes]
    exact frames_made frames hCurrent callee rest hNew
  | @dropped w h child x a node tasks body rest obs hCurrent hPoint hHeld hTasks hStep hNodes =>
    change Frames _ w.nodes s.spawned
    rw [hNodes]
    exact frames_dropped sched frames hCurrent rest hHeld hTasks.mp
  | @awaited w h child x a node task rest obs hCurrent hPoint hHeld hChild hNodes =>
    change Frames _ w.nodes s.spawned
    rw [hNodes]
    exact frames_awaited sched frames hCurrent rest hHeld hChild
  | @returned w h parent a b node caller result rest obs hCurrent hPoint hTasks hRole hCaller
    hParent hAwaits hNodes =>
    change Frames _ w.nodes s.spawned
    rw [hNodes]
    refine frames_returned sched frames hCurrent hCaller hParent ?_ _
    rintro rfl
    cases hCurrent.code.symm.trans hParent
    rw [hPoint] at hAwaits
    cases hAwaits
  | @completed w h a node result obs hCurrent hPoint hTasks hRole hNodes =>
    change Frames _ w.nodes s.spawned
    rw [hNodes]
    exact frames.shrink hCurrent.code hCurrent.frame { a with point := .ended result } .done rfl rfl
      id

end Preservation

section Frame

variable {short : Prop} {s s' : State φ υ} {events : List (Event φ υ)} {actor : Option Nat}
  {n h t : Nat} {a b : Activation φ υ} {node : Node}

/-- A frame is as it was, and so are the programs in its variables. -/
structure Untouched (s s' : State φ υ) (t : Nat) (b : Activation φ υ) : Prop where
  code : s'.code t = some b
  role : roles s'.world.nodes t = roles s.world.nodes t
  live : statuses s.world.nodes t ≠ some .done → statuses s'.world.nodes t ≠ some .done
  vars : closures s'.code b.tasks = closures s.code b.tasks

theorem untouched_of_same (hb : s.code t = some b) (hCode : s'.code t = s.code t)
    (hNode : s'.world.nodes t = s.world.nodes t)
    (hHeld : ∀ {i c}, held b.tasks i = some c → s'.code c = s.code c) : Untouched s s' t b where
  code := hCode.trans hb
  role := by rw [roles, hNode, roles]
  live := by
    rw [statuses, statuses, hNode]
    exact id
  vars := closures_congr hHeld

/-- Everything but two frames is as it was. -/
def Apart (s s' : State φ υ) (x y : Nat) : Prop :=
  ∀ u, u ≠ x → u ≠ y → s'.code u = s.code u ∧ s'.world.nodes u = s.world.nodes u

variable {x : Nat}

theorem Apart.untouched {y : Nat} (hApart : Apart s s' x y) (hb : s.code t = some b) (hx : t ≠ x)
    (hy : t ≠ y) (hHeld : ∀ {i c}, held b.tasks i = some c → c ≠ x ∧ c ≠ y) : Untouched s s' t b :=
  untouched_of_same hb (hApart t hx hy).1 (hApart t hx hy).2
    (fun hOwn => (hApart _ (hHeld hOwn).1 (hHeld hOwn).2).1)

theorem apart_put_one {w : World} {u : Option (Activation φ υ)} {p : Option Node}
    (hNodes : w.nodes = Function.update s.world.nodes x p) :
    Apart s ({ s with world := w }.put x u) x x := by
  intro t hx _
  refine ⟨Function.update_of_ne hx .., ?_⟩
  change w.nodes t = _
  rw [hNodes, Function.update_of_ne hx]

theorem apart_put_two {w : World} {y : Nat} {u v : Option (Activation φ υ)}
    (hNodes : ∀ {t}, t ≠ x → t ≠ y → w.nodes t = s.world.nodes t) :
    Apart s (({ s with world := w }.put x u).put y v) x y :=
  fun _ hx hy =>
    ⟨(Function.update_of_ne hy ..).trans (Function.update_of_ne hx ..), hNodes hx hy⟩

theorem status_of_awaits (frames : s.Framed) {c : Nat} {rest : Option (Result υ) → Body φ υ}
    (hb : s.code t = some b) (hPoint : b.point = .awaits c rest) :
    ∃ node, s.world.nodes t = some node ∧ node.status = .awaiting c := by
  obtain ⟨node, hNode⟩ := frames.node_of_code hb
  exact ⟨node, hNode, (frames.fits hb hNode).awaiting hPoint⟩

/-- Why a move can change a frame: the coroutine takes it, the frame is new, a `Task` of
the coroutine, or done, or it awaits the coroutine and that has ended. -/
inductive Touch (s s' : State φ υ) (actor : Option Nat) (x : Nat) : Prop where
  | own {a : Activation φ υ} {node : Node} (hActor : actor = some x) (hCurrent : Current s x a node)
  | new (hNew : s.code x = none)
  | task {h i : Nat} {a : Activation φ υ} {node : Node} (hActor : actor = some h)
      (hCurrent : Current s h a node) (hHeld : held a.tasks i = some x)
  | caller {h : Nat} {b : Activation φ υ} {rest : Option (Result υ) → Body φ υ}
      (hCode : s.code x = some b) (hAwaits : b.point = .awaits h rest)
      (hGone : s'.world.nodes h = none)
  | done (hDone : statuses s.world.nodes x = some .done)

/-- A frame that changes works for the root of the coroutine that takes the step, or for a
new one. -/
def Kindred (s s' : State φ υ) (actor : Option Nat) (x : Nat) : Prop :=
  ∀ b, s'.code x = some b →
    (∃ h a node, actor = some h ∧ Current s h a node ∧ b.root = a.root) ∨ b.root = s.spawned

theorem Kindred.of_current (hCurrent : Current s h a node)
    (hRoot : ∀ b, s'.code x = some b → b.root = a.root) : Kindred s s' (some h) x :=
  fun b hb => .inl ⟨h, a, node, rfl, hCurrent, hRoot b hb⟩

theorem Kindred.put {s₁ : State φ υ} {u : Option (Activation φ υ)} (hCurrent : Current s h a node)
    (hRoot : ∀ b ∈ u, b.root = a.root) : Kindred s (s₁.put x u) (some h) x := by
  refine .of_current hCurrent (fun b hb => hRoot b ?_)
  rwa [State.put_self] at hb

theorem Kindred.put_put {s₁ : State φ υ} {y : Nat} {u v : Option (Activation φ υ)}
    (hCurrent : Current s h a node) (hNe : x ≠ y) (hRoot : ∀ b ∈ u, b.root = a.root) :
    Kindred s ((s₁.put x u).put y v) (some h) x := by
  refine .of_current hCurrent (fun b hb => hRoot b ?_)
  rwa [State.put_of_ne _ _ _ hNe, State.put_self] at hb

/-- A move concerns nobody's code and role, or two frames at most. -/
def Concerns (s s' : State φ υ) (actor : Option Nat) : Prop :=
  (s'.code = s.code ∧ roles s'.world.nodes = roles s.world.nodes ∧
      ∀ t, statuses s'.world.nodes t = some .done ↔ statuses s.world.nodes t = some .done) ∨
    ∃ x y, Apart s s' x y ∧ (Touch s s' actor x ∧ Kindred s s' actor x) ∧ Touch s s' actor y ∧
      Kindred s s' actor y

/-- The coroutine that has the thread changes its own frame only. -/
theorem concerns_own {w : World} {new : Activation φ υ} {p : Option Node}
    (hCurrent : Current s h a node) (hRoot : new.root = a.root)
    (hNodes : w.nodes = Function.update s.world.nodes h p) :
    Concerns s ({ s with world := w }.put h (some new)) (some h) :=
  .inr ⟨h, h, apart_put_one hNodes,
    and_self_iff.mpr ⟨.own rfl hCurrent, .put hCurrent (by simp [hRoot])⟩⟩

/-- The executor resumes a coroutine: its code and its role are what they were. -/
theorem concerns_resumed {w : World} (hNode : s.world.nodes h = some node) (hParked : node.Parked)
    (hNodes : w.nodes = Function.update s.world.nodes h (some { node with status := .running })) :
    Concerns s { s with world := w } actor := by
  refine .inl ⟨rfl, ?_, fun t => ?_⟩
  · change roles w.nodes = _
    rw [hNodes, roles_update, Option.map_some, ← roles_of_node hNode, Function.update_eq_self]
  · change statuses w.nodes t = _ ↔ _
    rw [hNodes, statuses_update]
    by_cases hEq : t = h
    · subst hEq
      rw [Function.update_self, statuses_of_node hNode]
      rcases hParked with hStatus | ⟨hStatus, -⟩ <;> simp [hStatus]
    · rw [Function.update_of_ne hEq]

/-- A child ends and its caller goes on: those two frames change. -/
theorem concerns_returned {w : World} {parent : Nat} {p : Activation φ υ} {caller : Node}
    {result : Result υ} {rest : Option (Result υ) → Body φ υ} (frames : s.Framed)
    (hCurrent : Current s h a node) (hPoint : a.point = .at (.finish result))
    (hRole : node.role = .child parent) (hParent : s.code parent = some p)
    (hAwaits : p.point = .awaits h rest) (hNodes : w.nodes = Function.update
      (Function.update s.world.nodes parent (some { caller with status := .running })) h none) :
    Concerns s (({ s with world := w }.put h none).put parent
      (some { p with point := .at (rest (some result)) })) (some h) := by
  have hNe : h ≠ parent := by
    rintro rfl
    cases hCurrent.code.symm.trans hParent
    rw [hPoint] at hAwaits
    cases hAwaits
  refine .inr ⟨h, parent, apart_put_two ?_, ⟨.own rfl hCurrent, .put_put hCurrent hNe (by simp)⟩,
    .caller hParent hAwaits ?_, .put hCurrent ?_⟩
  · intro t hx hy
    rw [hNodes, Function.update_of_ne hx, Function.update_of_ne hy]
  · change w.nodes h = none
    rw [hNodes, Function.update_self]
  · obtain ⟨p', hp', hKin⟩ := frames.kin hCurrent.code
      ((roles_of_node hCurrent.frame).trans (congrArg some hRole))
    cases hParent.symm.trans hp'
    simpa using hKin

/-- Whatever happens, at most the coroutine that has the thread and one frame beside it change:
a new one, one of its `Task`s, its caller, or a root that is destroyed. -/
theorem touch_of_moved (sched : Scheduled short s.world) (frames : s.Framed)
    (hMoved : Moved s actor s' events) : Concerns s s' actor := by
  cases hMoved with
  | @idle w obs hNodes =>
    refine .inl ⟨rfl, congrArg roles hNodes, fun t => ?_⟩
    change statuses w.nodes t = _ ↔ _
    rw [hNodes]
  | resumed obs hNode hParked hNodes => exact concerns_resumed hNode hParked hNodes
  | @drained w root node obs hNode hDone hNodes =>
    refine .inr ⟨root, root, apart_put_one hNodes, and_self_iff.mpr
      ⟨.done ((statuses_of_node hNode).trans (congrArg some hDone)), fun b hb => ?_⟩⟩
    rw [State.put_self] at hb
    cases hb
  | @spawned w frame body obs hNew hNodes =>
    refine .inr ⟨frame, frame, fun t hx _ => ⟨Function.update_of_ne hx .., ?_⟩,
      and_self_iff.mpr ⟨.new (frames.live.mpr hNew), fun b hb => .inr ?_⟩⟩
    · change w.nodes t = _
      rw [hNodes, Function.update_of_ne hx]
    · cases (Function.update_self ..).symm.trans hb
      rfl
  | went obs acts hCurrent hBody hBody' hRoot hFits hLive hTasks hStep hNodes =>
    exact concerns_own hCurrent hRoot hNodes
  | completed obs hCurrent hPoint hTasks hRole hNodes => exact concerns_own hCurrent rfl hNodes
  | @made w h frame a node callee rest obs hCurrent hPoint hNew hNodes =>
    have hNe : frame ≠ h := by
      rintro rfl
      rw [hCurrent.frame] at hNew
      cases hNew
    refine .inr ⟨frame, h, apart_put_two (fun hx _ => ?_),
      ⟨.new (frames.live.mpr hNew), .put_put hCurrent hNe (by simp)⟩, .own rfl hCurrent,
      .put hCurrent (by simp)⟩
    rw [hNodes, Function.update_of_ne hx]
  | @dropped w h child x a node tasks body rest obs hCurrent hPoint hHeld hTasks hStep hNodes =>
    have hNe := hCurrent.ne_of_held sched frames hCurrent.code hHeld
    refine .inr ⟨child, h, apart_put_two (fun hx _ => ?_),
      ⟨.task rfl hCurrent hHeld, .put_put hCurrent hNe (by simp)⟩, .own rfl hCurrent,
      .put hCurrent (by simp)⟩
    rw [hNodes, Function.update_of_ne hx]
  | @awaited w h child x a node task rest obs hCurrent hPoint hHeld hChild hNodes =>
    have hNe := hCurrent.ne_of_held sched frames hCurrent.code hHeld
    refine .inr ⟨child, h, fun t hx hy => ⟨Function.update_of_ne hy .., ?_⟩,
      ⟨.task rfl hCurrent hHeld, .of_current hCurrent fun b hb => ?_⟩, .own rfl hCurrent,
      .put hCurrent (by simp)⟩
    · change w.nodes t = _
      rw [hNodes, Function.update_of_ne hx, Function.update_of_ne hy]
    · rw [State.put_of_ne _ _ _ hNe] at hb
      obtain ⟨-, b', hb', hKin⟩ := frames.owned hCurrent.code hHeld
      cases hb.symm.trans hb'
      exact hKin
  | returned obs hCurrent hPoint hTasks hRole hCaller hParent hAwaits hNodes =>
    exact concerns_returned frames hCurrent hPoint hRole hParent hAwaits hNodes

/-- A coroutine that waits, and is not waited for by a child that ends now, is not concerned. -/
theorem Touch.ne (hTouch : Touch s s' actor x) (frames : s.Framed)
    (hb : s.code t = some b) (hRole : roles s.world.nodes t ≠ some .free)
    (hLive : statuses s.world.nodes t ≠ some .done) (hOther : actor ≠ some t)
    (hStill : ∀ {c rest}, b.point = .awaits c rest → roles s'.world.nodes c = some (.child t)) :
    t ≠ x := by
  rintro rfl
  cases hTouch with
  | own hActor => exact hOther hActor
  | new hNew =>
    rw [hNew] at hb
    cases hb
  | task hActor hCurrent hHeld => exact hRole (frames.owned hCurrent.code hHeld).1
  | caller hCode hAwaits hGone =>
    cases hb.symm.trans hCode
    have hChild := hStill hAwaits
    rw [roles, hGone] at hChild
    cases hChild
  | done hDone => exact hLive hDone

/-- The `Task` variables of another coroutine are not concerned. -/
theorem Touch.ne_held {i c : Nat} (hTouch : Touch s s' actor x) (sched : Scheduled short s.world)
    (frames : s.Framed) (hb : s.code t = some b)
    (hHeld : held b.tasks i = some c) (hOther : actor ≠ some t) : c ≠ x := by
  have hFree := (frames.owned hb hHeld).1
  rintro rfl
  cases hTouch with
  | own hActor hCurrent => exact hCurrent.ne_of_held sched frames hb hHeld rfl
  | new hNew =>
    obtain ⟨-, x, hx, -⟩ := frames.owned hb hHeld
    rw [hNew] at hx
    cases hx
  | task hActor hCurrent hHeld' =>
    obtain ⟨rfl, -⟩ := frames.sole hb hHeld hCurrent.code hHeld'
    exact hOther hActor
  | caller hCode hAwaits =>
    obtain ⟨node, hNode, hStatus⟩ := status_of_awaits frames hCode hAwaits
    exact ne_of_free sched.threaded hFree hNode (by rw [hStatus]; simp) rfl
  | done hDone =>
    obtain ⟨node, hNode, hStatus⟩ := Option.map_eq_some_iff.mp hDone
    exact ne_of_free sched.threaded hFree hNode (by rw [hStatus]; simp) rfl

theorem untouched_of_moved (sched : Scheduled short s.world)
    (frames : s.Framed) (hMoved : Moved s actor s' events)
    (hb : s.code t = some b) (hRole : roles s.world.nodes t ≠ some .free)
    (hLive : statuses s.world.nodes t ≠ some .done) (hOther : actor ≠ some t)
    (hStill : ∀ {c rest}, b.point = .awaits c rest → roles s'.world.nodes c = some (.child t)) :
    Untouched s s' t b := by
  rcases touch_of_moved sched frames hMoved with ⟨hCode, hRoles, hDone⟩ | ⟨x, y, hApart, ⟨hx, -⟩,
    hy, -⟩
  · exact ⟨hCode ▸ hb, congrFun hRoles t, fun hLive hNow =>
      hLive ((hDone t).mp hNow), by rw [hCode]⟩
  · refine hApart.untouched hb (hx.ne frames hb hRole hLive hOther hStill)
      (hy.ne frames hb hRole hLive hOther hStill) ?_
    exact fun hHeld => ⟨hx.ne_held sched frames hb hHeld hOther, hy.ne_held sched frames hb hHeld
      hOther⟩

end Frame

end Tinycoro.Coroutine
