import Tinycoro.Task.Framing

/-! A root and the coroutines it awaits, one frame each, resumed by the executor and by
each other, do together what the body of the root says when every `co_await` of a `Task`
is evaluated in place. -/
namespace Tinycoro.Coroutine

open Io Effect Transition Calls World Threads

variable {ε : Type} {φ : ε → Type} {υ : Type}

/-- The frames that wait for a frame are the callers of its program. -/
def Callers (code : Nat → Option (Activation φ υ)) (nodes : Nat → Option Node) (n : Nat) :
    List (Caller φ Request Answer (Result υ)) → Nat → Prop
  | [], h => roles nodes h = some .root
  | caller :: stack, h =>
      ∃ parent b rest, roles nodes h = some (.child parent) ∧ code parent = some b ∧ b.root = n ∧
      b.point = .awaits h rest ∧ caller = ⟨closures code b.tasks, rest⟩ ∧
        Callers code nodes n stack parent

/-- The coroutines of a root stand where the configuration says: the innermost one is at
`h`, and it is not the root at its final suspension. -/
structure On (s : State φ υ) (n h : Nat) (a : Activation φ υ)
  (c : Config φ Request Answer (Result υ)) : Prop where
  code : s.code h = some a
  root : a.root = n
  body : a.point.body = some c.program
  live : statuses s.world.nodes h ≠ some .done
  vars : c.vars = closures s.code a.tasks
  callers : Callers s.code s.world.nodes n c.stack h

section Frame

variable {short : Prop} {s s' : State φ υ} {events : List (Event φ υ)} {actor : Option Nat}
  {n h t : Nat} {a b : Activation φ υ} {node : Node}

/-- The callers of a frame whose role is the same are the same. -/
theorem Callers.keep (sched : Scheduled short s.world)
    (frames : s.Framed) (hMoved : Moved s actor s' events)
    (hActor : ∀ {h}, actor = some h → ∃ a node, Current s h a node)
    {stack : List (Caller φ Request Answer (Result υ))}
    (hCallers : Callers s.code s.world.nodes n stack t)
    (hRole : roles s'.world.nodes t = roles s.world.nodes t) :
    Callers s'.code s'.world.nodes n stack t := by
  induction stack generalizing t with
  | nil => exact hRole.trans hCallers
  | cons caller stack ih =>
    obtain ⟨parent, b, rest, hChild, hb, hRoot, hAwaits, rfl, hCallers⟩ := hCallers
    obtain ⟨node, hNode, hStatus⟩ := status_of_awaits frames hb hAwaits
    have hUntouched : Untouched s s' parent b := by
      refine untouched_of_moved sched frames hMoved hb ?_ ?_ ?_ ?_
      · intro hFree
        have hCreated := created_of_free sched.threaded hFree hNode
        rw [hStatus] at hCreated
        cases hCreated
      · rw [statuses_of_node hNode, hStatus]
        simp
      · intro hSelf
        obtain ⟨a, other, hCurrent⟩ := hActor hSelf
        cases hNode.symm.trans hCurrent.frame
        have hRunning := hCurrent.running
        rw [hStatus] at hRunning
        cases hRunning
      · intro c rest' hOther
        rw [hAwaits] at hOther
        cases hOther
        exact hRole.trans hChild
    exact ⟨parent, b, rest, hRole.trans hChild, hUntouched.code, hRoot,
      hAwaits, by rw [hUntouched.vars], ih hCallers hUntouched.role⟩

theorem Moved.current (hMoved : Moved s actor s' events) (hActor : actor = some h) :
    ∃ a node, Current s h a node := by
  cases hMoved <;> cases hActor <;> exact ⟨_, _, ‹Current s h _ _›⟩

/-- A configuration whose innermost coroutine does not move stays. -/
theorem On.keep {c : Config φ Request Answer (Result υ)} (hOn : On s n t b c)
    (sched : Scheduled short s.world) (frames : s.Framed)
    (hMoved : Moved s actor s' events) (hOther : actor ≠ some t) : On s' n t b c := by
  have hRole : roles s.world.nodes t ≠ some .free := by
    intro hFree
    have hCallers := hOn.callers
    cases hStack : c.stack with
    | nil =>
      rw [hStack, Callers, hFree] at hCallers
      cases hCallers
    | cons =>
      rw [hStack] at hCallers
      obtain ⟨parent, x, rest, hChild, -⟩ := hCallers
      rw [hFree] at hChild
      cases hChild
  have hUntouched : Untouched s s' t b := by
    refine untouched_of_moved sched frames hMoved hOn.code hRole hOn.live hOther (fun hAwaits => ?_)
    have hBody := hOn.body
    rw [hAwaits] at hBody
    cases hBody
  exact ⟨hUntouched.code, hOn.root, hOn.body, hUntouched.live hOn.live,
    hOn.vars.trans hUntouched.vars.symm, hOn.callers.keep sched frames hMoved hMoved.current
    hUntouched.role⟩

end Frame

section Threads

variable {short : Prop} {s : State φ υ} {n h t : Nat} {a b : Activation φ υ} {node : Node}

theorem callee_of_awaits (frames : s.Framed) {c : Nat}
    {rest : Option (Result υ) → Body φ υ} (hb : s.code t = some b)
    (hPoint : b.point = .awaits c rest) : callees s.world.nodes t = some c := by
  obtain ⟨node, hNode, hStatus⟩ := status_of_awaits frames hb hPoint
  rw [callees_of_node hNode, hStatus]
  rfl

/-- The callers of a frame lead up to its root. -/
theorem Callers.rooted (frames : s.Framed) {stack : List (Caller φ Request Answer (Result υ))}
    (hCallers : Callers s.code s.world.nodes n stack t) (hb : s.code t = some b)
    (hRoot : b.root = n) :
    ∃ root r, s.code root = some r ∧ r.root = n ∧ roles s.world.nodes root = some .root ∧
      Leads (callees s.world.nodes) root t := by
  induction stack generalizing t b with
  | nil => exact ⟨t, b, hb, hRoot, hCallers, .refl t⟩
  | cons caller stack ih =>
    obtain ⟨parent, p, rest, -, hp, hRoot', hAwaits, -, hCallers⟩ := hCallers
    obtain ⟨root, r, hr, hNumber, hRole, hLeads⟩ := ih hCallers hp hRoot'
    exact ⟨root, r, hr, hNumber, hRole, hLeads.call (callee_of_awaits frames hp hAwaits)⟩

/-- One number along a thread. -/
theorem Frames.number_of_leads (frames : s.Framed)
    (sched : Scheduled short s.world) (hLeads : Leads (callees s.world.nodes) t h)
    (hb : s.code t = some b) (ha : s.code h = some a) : b.root = a.root := by
  induction hLeads generalizing a with
  | refl =>
    cases hb.symm.trans ha
    rfl
  | tail _ hCall ih =>
    obtain ⟨p, hp, hKin⟩ := frames.kin ha (sched.threaded.hung.linked.mp hCall)
    exact (ih hp).trans hKin

/-- A coroutine that has started is on the thread of the root it works for. -/
theorem Frames.rooted (frames : s.Framed) (sched : Scheduled short s.world)
    (hCode : s.code h = some a) (hRole : roles s.world.nodes h ≠ some .free) :
    ∃ root r, s.code root = some r ∧ r.root = a.root ∧ roles s.world.nodes root = some .root ∧
      Leads (callees s.world.nodes) root h := by
  obtain ⟨node, hNode⟩ := frames.node_of_code hCode
  have hSome := roles_of_node hNode
  cases hNodeRole : node.role with
  | free => exact absurd (hSome.trans (congrArg some hNodeRole)) hRole
  | root => exact ⟨h, a, hCode, rfl, hSome.trans (congrArg some hNodeRole), .refl h⟩
  | child =>
    obtain ⟨root, hRoot, hLeads⟩ := sched.threaded.hung.owned
      (hSome.trans (congrArg some hNodeRole))
    obtain ⟨other, hOther, -⟩ := Option.map_eq_some_iff.mp hRoot
    obtain ⟨r, hr⟩ := frames.code_of_node hOther
    exact ⟨root, r, hr, frames.number_of_leads sched hLeads hr hCode, hRoot, hLeads⟩

theorem Current.rooted (hCurrent : Current s h a node) (sched : Scheduled short s.world)
    (frames : s.Framed) :
    ∃ root r, s.code root = some r ∧ r.root = a.root ∧ roles s.world.nodes root = some .root ∧
      Leads (callees s.world.nodes) root h := by
  refine frames.rooted sched hCurrent.code (fun hFree => ?_)
  have hCreated := created_of_free sched.threaded hFree hCurrent.frame
  rw [hCurrent.running] at hCreated
  cases hCreated

theorem Current.tip (hCurrent : Current s h a node) : callees s.world.nodes h = none := by
  rw [callees_of_node hCurrent.frame, hCurrent.running]
  rfl

/-- The coroutine that runs for a root is the innermost one of the root. -/
theorem On.eq_current {c : Config φ Request Answer (Result υ)} (hOn : On s n t b c)
    (sched : Scheduled short s.world) (frames : s.Framed)
    (hCurrent : Current s h a node) (hRoot : a.root = n) : t = h := by
  obtain ⟨root, r, hr, hNumber, hRole, hLeads⟩ := hOn.callers.rooted frames hOn.code hOn.root
  obtain ⟨root', r', hr', hNumber', hRole', hLeads'⟩ := hCurrent.rooted sched frames
  obtain rfl := frames.roots hr hr' hRole hRole' (hNumber.trans (hNumber'.trans hRoot).symm)
  refine tip_unique hLeads hLeads' ?_ hCurrent.tip
  obtain ⟨leaf, hLeaf⟩ := frames.node_of_code hOn.code
  rw [callees_of_node hLeaf]
  cases hStatus : leaf.status with
  | awaiting =>
    obtain ⟨rest, hAwaits⟩ := (hStatus ▸ frames.fits hOn.code hLeaf).awaits
    have hBody := hOn.body
    rw [hAwaits] at hBody
    cases hBody
  | _ => rfl

end Threads

section Trace

variable (n : Nat) (trace events : List (Event φ υ))

theorem actsOf_append : actsOf n (trace ++ events) = actsOf n trace ++ actsOf n events :=
  List.filterMap_append

theorem resultOf_append :
    resultOf n (trace ++ events) = (resultOf n trace).or (resultOf n events) :=
  List.findSome?_append

theorem actsOf_io (obs : List Obs) : actsOf n (obs.map (.io : Obs → Event φ υ)) = [] := by
  simp [actsOf, List.filterMap_map]

theorem resultOf_io (obs : List Obs) : resultOf n (obs.map (.io : Obs → Event φ υ)) = none := by
  simp [resultOf, List.findSome?_map]

theorem resultOf_acted (m : Nat) (acts : List (Act φ Request Answer)) :
    resultOf n (acts.map (.acted m : _ → Event φ υ)) = none := by
  simp [resultOf, List.findSome?_map]

theorem actsOf_acted_self (acts : List (Act φ Request Answer)) :
    actsOf n (acts.map (.acted n : _ → Event φ υ)) = acts := by
  simp [actsOf, List.filterMap_map]

theorem actsOf_acted_of_ne {m : Nat} (hNe : m ≠ n) (acts : List (Act φ Request Answer)) :
    actsOf n (acts.map (.acted m : _ → Event φ υ)) = [] := by
  simp [actsOf, List.filterMap_map, hNe]

/-- Nothing in a trace is of a root. -/
def Silent : Prop := actsOf n events = [] ∧ resultOf n events = none

variable {n trace events} {s s' : State φ υ} {actor : Option Nat}

theorem Silent.append {later : List (Event φ υ)} (h : Silent n events) (hLater : Silent n later) :
    Silent n (events ++ later) := by
  refine ⟨?_, ?_⟩
  · rw [actsOf_append, h.1, hLater.1, List.append_nil]
  · rw [resultOf_append, h.2, hLater.2]
    rfl

theorem silent_io (obs : List Obs) : Silent n (obs.map (.io : Obs → Event φ υ)) :=
  ⟨actsOf_io n obs, resultOf_io n obs⟩

/-- A move is silent about a root, unless a coroutine of the root takes it. -/
theorem silent_of_moved (hMoved : Moved s actor s' events)
    (hOther : ∀ {h a node}, actor = some h → Current s h a node → a.root ≠ n) :
    Silent n events := by
  cases hMoved with
  | idle obs | resumed obs | made obs | dropped obs => exact silent_io obs
  | @drained w root node obs =>
    refine (silent_io obs).append ?_
    cases s.code root with
    | none | some => exact ⟨rfl, rfl⟩
  | spawned obs | awaited obs | returned obs => exact (silent_io obs).append ⟨rfl, rfl⟩
  | went obs acts hCurrent =>
    exact (silent_io obs).append ⟨actsOf_acted_of_ne n (hOther rfl hCurrent) acts,
      resultOf_acted n _ acts⟩
  | completed obs hCurrent =>
    refine (silent_io obs).append ⟨rfl, ?_⟩
    simp [resultOf, hOther rfl hCurrent]

end Trace

section Variables

variable {short : Prop} {s : State φ υ} {w : World} {h child x frame parent : Nat}
  {a b : Activation φ υ} {node : Node}

variable {new : Option (Activation φ υ)}

/-- The variables of the coroutine that moves, when only its own frame changes. -/
theorem closures_own (sched : Scheduled short s.world) (frames : s.Framed)
    (hCurrent : Current s h a node) {tasks : List (Option Nat)}
    (hTasks : ∀ {i c}, held tasks i = some c → held a.tasks i = some c) :
    closures ({ s with world := w }.put h new).code tasks = closures s.code tasks :=
  closures_congr (fun hHeld => State.put_of_ne _ _ _ (hCurrent.ne_of_held sched frames hCurrent.code
    (hTasks hHeld)))

theorem closures_made (sched : Scheduled short s.world)
    (frames : s.Framed) (hCurrent : Current s h a node)
    (hNew : s.world.nodes frame = none) (hNe : frame ≠ h) {callee : Body φ υ} {n : Nat} :
    closures (({ s with world := w }.put frame (some ⟨.at callee, [], n⟩)).put h new).code
      (a.tasks ++ [some frame]) = closures s.code a.tasks ++ [some callee] := by
  have hOld : closures (({ s with world := w }.put frame (some ⟨.at callee, [], n⟩)).put h new).code
      a.tasks = closures s.code a.tasks := by
    refine closures_congr (fun {i c} hHeld => ?_)
    have hOther : c ≠ frame := by
      rintro rfl
      obtain ⟨-, x, hx, -⟩ := frames.owned hCurrent.code hHeld
      rw [frames.live.mpr hNew] at hx
      cases hx
    exact (State.put_of_ne _ _ _ (hCurrent.ne_of_held sched frames hCurrent.code hHeld)).trans
      (State.put_of_ne _ _ _ hOther)
  rw [closures, List.map_append, ← closures, hOld, List.map_singleton, Option.bind_some, bodyOf,
    State.put_of_ne _ _ _ hNe, State.put_self]
  rfl

theorem closures_dropped (sched : Scheduled short s.world)
    (frames : s.Framed) (hCurrent : Current s h a node)
    (hHeld : held a.tasks x = some child) {tasks : List (Option Nat)}
    (hTasks : ∀ {i c}, held tasks i = some c → i ≠ x ∧ held a.tasks i = some c) :
    closures (({ s with world := w }.put child none).put h new).code tasks =
      closures s.code tasks := by
  refine closures_congr (fun {i c} hOther => ?_)
  obtain ⟨hIndex, hOld⟩ := hTasks hOther
  have hNotChild : c ≠ child := by
    rintro rfl
    exact hIndex (frames.sole hCurrent.code hOld hCurrent.code hHeld).2
  exact (State.put_of_ne _ _ _ (hCurrent.ne_of_held sched frames hCurrent.code hOld)).trans
    (State.put_of_ne _ _ _ hNotChild)

theorem closures_returned (sched : Scheduled short s.world) (frames : s.Framed)
    (hCurrent : Current s h a node) (hParent : s.code parent = some b)
    {rest : Option (Result υ) → Body φ υ} (hAwaits : b.point = .awaits h rest) :
    closures (({ s with world := w }.put h none).put parent new).code b.tasks =
      closures s.code b.tasks := by
  obtain ⟨caller, hCaller, hStatus⟩ := status_of_awaits frames hParent hAwaits
  refine closures_congr (fun {i c} hHeld => ?_)
  have hNotParent : c ≠ parent :=
    ne_of_free sched.threaded (frames.owned hParent hHeld).1 hCaller (by rw [hStatus]; simp)
  exact (State.put_of_ne _ _ _ hNotParent).trans
    (State.put_of_ne _ _ _ (hCurrent.ne_of_held sched frames hParent hHeld))

end Variables

/-- What has become of a root. -/
inductive Story (s : State φ υ) (trace : List (Event φ υ)) (n : Nat) (body : Body φ υ) : Prop where
  | alive {h : Nat} {a : Activation φ υ} {c : Config φ Request Answer (Result υ)}
      (hResult : resultOf n trace = none) (hReached : Reached body (actsOf n trace) c)
      (hOn : On s n h a c)
  | ended {result : Result υ} (hResult : resultOf n trace = some result)
      (hRuns : Runs [] body (actsOf n trace) (some result))
      (hDone : ∀ {h a}, s.code h = some a → a.root = n → roles s.world.nodes h = some .root →
        statuses s.world.nodes h = some .done)

namespace Story

variable {short : Prop} {s s' : State φ υ} {events trace : List (Event φ υ)} {actor : Option Nat}
  {n h : Nat} {body : Body φ υ} {a : Activation φ υ} {node : Node}

theorem runs (story : Story s trace n body) : Runs [] body (actsOf n trace) (resultOf n trace) := by
  cases story with
  | alive hResult hReached =>
    rw [hResult]
    exact hReached.runs_cut
  | ended hResult hRuns =>
    rw [hResult]
    exact hRuns

/-- The innermost coroutine takes a step: the configuration takes it too. -/
theorem went_on {c c' : Config φ Request Answer (Result υ)} {t : Nat} {b : Activation φ υ}
    (hResult : resultOf n trace = none) (hReached : Reached body (actsOf n trace) c)
    {acts : List (Act φ Request Answer)} (hStep : acts = [] ∧ c' = c ∨ c.Step acts c')
    (hActs : actsOf n events = acts) (hSilent : resultOf n events = none) (hOn : On s' n t b c') :
    Story s' (trace ++ events) n body := by
  have hReached' : Reached body (actsOf n (trace ++ events)) c' := by
    rw [actsOf_append, hActs]
    rcases hStep with ⟨rfl, rfl⟩ | hStep
    · rwa [List.append_nil]
    · exact hReached.step hStep
  refine .alive ?_ hReached' hOn
  rw [resultOf_append, hResult, hSilent]
  rfl

theorem went_silently {c c' : Config φ Request Answer (Result υ)} {t : Nat} {b : Activation φ υ}
    (hResult : resultOf n trace = none) (hReached : Reached body (actsOf n trace) c)
    (hStep : c.Step [] c') (hSilent : Silent n events) (hOn : On s' n t b c') :
    Story s' (trace ++ events) n body :=
  went_on hResult hReached (.inr hStep) hSilent.1 hSilent.2 hOn

section Children

variable {w : World} {x child parent : Nat} {p : Activation φ υ} {caller task : Node}
  {result : Result υ} {rest : Option (Result υ) → Body φ υ} {obs : List Obs}
  {stack : List (Caller φ Request Answer (Result υ))}

/-- A child is started: the configuration calls it, and it is the innermost one. -/
theorem awaited (sched : Scheduled short s.world) (frames : s.Framed)
    (hResult : resultOf a.root trace = none)
    (hReached : Reached body (actsOf a.root trace) ⟨closures s.code a.tasks, .call x rest, stack⟩)
    (hCurrent : Current s h a node) (hHeld : held a.tasks x = some child)
    (hNodes : w.nodes = Function.update
      (Function.update s.world.nodes h (some { node with status := .awaiting child })) child
      (some { task with role := .child h, status := .running }))
    (hS : s' = { s with world := w }.put h
      (some { a with point := .awaits child rest, tasks := a.tasks.set x none }))
    (hKeep : roles s'.world.nodes h = roles s.world.nodes h →
      Callers s'.code s'.world.nodes a.root stack h) :
    Story s' (trace ++ (obs.map .io ++ [.started child h])) a.root body := by
  subst hS
  have hNe := hCurrent.ne_of_held sched frames hCurrent.code hHeld
  obtain ⟨b, _, hb, hKin, hTask, hCreated⟩ := Current.held_node frames sched hCurrent.code hHeld
  obtain ⟨⟨callee, hCallee⟩, hTasks⟩ := (frames.fits hb hTask).at_of_created hCreated
  have hProgram : held (closures s.code a.tasks) x = some callee := by
    rw [held_closures, hHeld, Option.bind_some, bodyOf, hb, Option.bind_some, hCallee, Point.body]
  refine went_silently hResult hReached (.call rest hProgram) ((silent_io obs).append ⟨rfl, rfl⟩)
    ⟨(State.put_of_ne _ _ _ hNe).trans hb, hKin, by rw [hCallee, Point.body], ?_,
      by rw [hTasks]; rfl, h, _, rest, ?_, State.put_self .., rfl, rfl, ?_, hKeep ?_⟩
  · rw [State.put_world, hNodes, statuses_update, Function.update_self]
    simp
  · rw [State.put_world, hNodes, roles_update, Function.update_self]
    rfl
  · rw [closures_own sched frames hCurrent (fun hHeld => (held_of_set.mp hHeld).2), closures_set]
  · rw [State.put_world, hNodes, roles_update, Function.update_of_ne hNe.symm, roles_update,
      Function.update_self, roles_of_node hCurrent.frame]
    rfl

/-- A child ends: the configuration goes back to the caller with its result. -/
theorem returned (sched : Scheduled short s.world) (frames : s.Framed)
    (hResult : resultOf a.root trace = none)
    (hReached : Reached body (actsOf a.root trace) ⟨closures s.code a.tasks, .finish result, stack⟩)
    (hCallers : Callers s.code s.world.nodes a.root stack h) (hCurrent : Current s h a node)
    (hPoint : a.point = .at (.finish result)) (hRole : node.role = .child parent)
    (hCaller : s.world.nodes parent = some caller) (hParent : s.code parent = some p)
    (hAwaits : p.point = .awaits h rest) (hNodes : w.nodes = Function.update
      (Function.update s.world.nodes parent (some { caller with status := .running })) h none)
    (hS : s' = ({ s with world := w }.put h none).put parent
      (some { p with point := .at (rest (some result)) }))
    (hKeep : ∀ {stack}, Callers s.code s.world.nodes a.root stack parent →
      roles s'.world.nodes parent = roles s.world.nodes parent →
        Callers s'.code s'.world.nodes a.root stack parent) :
    Story s' (trace ++ (obs.map .io ++ [.delivered h parent result])) a.root body := by
  subst hS
  have hChild := (roles_of_node hCurrent.frame).trans (congrArg some hRole)
  cases stack with
  | nil =>
    rw [Callers, hChild] at hCallers
    cases hCallers
  | cons =>
    obtain ⟨_, b, _, hChild', hb, hRoot, hAwaits', rfl, hCallers⟩ := hCallers
    cases hChild.symm.trans hChild'
    cases hParent.symm.trans hb
    cases hAwaits.symm.trans hAwaits'
    have hNe : parent ≠ h := by
      rintro rfl
      cases hCurrent.code.symm.trans hParent
      rw [hPoint] at hAwaits
      cases hAwaits
    refine went_silently hResult hReached (.back result _) ((silent_io obs).append ⟨rfl, rfl⟩)
      ⟨State.put_self .., hRoot, rfl, ?_, (closures_returned sched frames hCurrent hParent
        hAwaits).symm, hKeep hCallers ?_⟩
    · rw [State.put_world, State.put_world, hNodes, statuses_update, Function.update_of_ne hNe,
        statuses_update, Function.update_self]
      simp
    · rw [State.put_world, State.put_world, hNodes, roles_update, Function.update_of_ne hNe,
        roles_update, Function.update_self, roles_of_node hCaller]
      rfl

/-- The root ends: nobody awaits it, and its result is that of the evaluation. -/
theorem completed (frames : s.Framed) (hResult : resultOf a.root trace = none)
    (hReached : Reached body (actsOf a.root trace) ⟨closures s.code a.tasks, .finish result, stack⟩)
    (hCallers : Callers s.code s.world.nodes a.root stack h) (hCurrent : Current s h a node)
    (hRole : node.role = .root)
    (hNodes : w.nodes = Function.update s.world.nodes h (some { node with status := .done })) :
    Story ({ s with world := w }.put h (some { a with point := .ended result }))
      (trace ++ (obs.map .io ++ [.completed a.root result])) a.root body := by
  have hRoot := (roles_of_node hCurrent.frame).trans (congrArg some hRole)
  cases stack with
  | cons =>
    obtain ⟨_, _, _, hChild, -⟩ := hCallers
    rw [hRoot] at hChild
    cases hChild
  | nil =>
    have hEnd : resultOf a.root (trace ++ (obs.map .io ++ [.completed a.root result])) =
        some result := by
      rw [resultOf_append, hResult, resultOf_append, resultOf_io]
      simp [resultOf]
    have hActs : actsOf a.root (trace ++ (obs.map .io ++ [.completed a.root result])) =
        actsOf a.root trace := by
      rw [actsOf_append, actsOf_append, actsOf_io]
      exact List.append_nil _
    refine .ended hEnd (hActs ▸ hReached.runs_finish) ?_
    intro t b hb hNumber hRole'
    by_cases hEq : t = h
    · rw [hEq, State.put_world, hNodes, statuses_update, Function.update_self]
      rfl
    · rw [State.put_of_ne _ _ _ hEq] at hb
      rw [State.put_world, hNodes, roles_update, Function.update_of_ne hEq] at hRole'
      exact absurd (frames.roots hb hCurrent.code hRole' hRoot hNumber) hEq

end Children

/-- What the innermost coroutine of a root does is the next step of the evaluation of the root's
body, or its end. -/
theorem advance (sched : Scheduled short s.world) (frames : s.Framed)
    {c : Config φ Request Answer (Result υ)} (hResult : resultOf n trace = none)
    (hReached : Reached body (actsOf n trace) c) (hOn : On s n h a c)
    (hMoved : Moved s actor s' events) (hActor : actor = some h) :
    Story s' (trace ++ events) n body := by
  obtain ⟨vars, program, stack⟩ := c
  obtain ⟨hCode, rfl, hProgram, hLive, rfl, hCallers⟩ := hOn
  have hKeep {t : Nat} {callers : List (Caller φ Request Answer (Result υ))}
      (hOld : Callers s.code s.world.nodes a.root callers t)
      (hRole : roles s'.world.nodes t = roles s.world.nodes t) :=
    hOld.keep sched frames hMoved hMoved.current hRole
  have hHere {a' : Activation φ υ} {node : Node} {b : Body φ υ} (hCurrent : Current s h a' node)
      (hBody : a'.point.body = some b) : a = a' ∧ program = b := by
    cases hCode.symm.trans hCurrent.code
    exact ⟨rfl, Option.some.inj (hProgram.symm.trans hBody)⟩
  cases hMoved with
  | idle | resumed | drained | spawned => cases hActor
  | @went w _ _ new node status before after obs acts hCurrent hBody hBody' hRoot hFits hLive'
    hTasks hStep hNodes =>
    cases hActor
    obtain ⟨rfl, rfl⟩ := hHere hCurrent hBody
    have hConfig : acts = [] ∧
        Config.mk (closures s.code new.tasks) after stack = ⟨closures s.code a.tasks, program,
          stack⟩ ∨
        Config.Step ⟨closures s.code a.tasks, program, stack⟩ acts ⟨closures s.code new.tasks,
          after, stack⟩ := by
      refine (hStep stack).imp_left ?_
      rintro ⟨rfl, rfl, hSame⟩
      exact ⟨rfl, by rw [hSame]⟩
    refine went_on hResult hReached hConfig ?_ ?_ ⟨State.put_self .., hRoot, hBody', ?_, ?_,
      hKeep hCallers ?_⟩
    · rw [actsOf_append, actsOf_io, actsOf_acted_self, List.nil_append]
    · rw [resultOf_append, resultOf_io, resultOf_acted, Option.none_or]
    · rw [State.put_world, hNodes, statuses_update, Function.update_self]
      simpa using hLive'
    · exact (closures_own sched frames hCurrent hTasks.mp).symm
    · rw [State.put_world, hNodes, roles_update, Function.update_self, roles_of_node hCurrent.frame]
      rfl
  | @made w _ frame _ node callee rest obs hCurrent hPoint hNew hNodes =>
    cases hActor
    obtain ⟨rfl, rfl⟩ := hHere hCurrent (congrArg Point.body hPoint)
    have hNe : frame ≠ h := by
      rintro rfl
      rw [hCurrent.frame] at hNew
      cases hNew
    refine went_silently hResult hReached (.make callee rest) (silent_io obs)
      ⟨State.put_self .., rfl, rfl, ?_, (closures_made sched frames hCurrent hNew hNe).symm,
        hKeep hCallers ?_⟩
    · rw [State.put_world, State.put_world, hNodes, statuses_update, Function.update_of_ne hNe.symm]
      exact hLive
    · rw [State.put_world, State.put_world, hNodes, roles_update, Function.update_of_ne hNe.symm]
  | @dropped w _ child x _ node tasks before rest obs hCurrent hPoint hHeld hTasks hStep hNodes =>
    cases hActor
    obtain ⟨rfl, rfl⟩ := hHere hCurrent (congrArg Point.body hPoint)
    have hNe := hCurrent.ne_of_held sched frames hCurrent.code hHeld
    refine went_silently hResult hReached (hStep stack) (silent_io obs)
      ⟨State.put_self .., rfl, rfl, ?_, (closures_dropped sched frames hCurrent hHeld
        hTasks.mp).symm, hKeep hCallers ?_⟩
    · rw [State.put_world, State.put_world, hNodes, statuses_update, Function.update_of_ne hNe.symm]
      exact hLive
    · rw [State.put_world, State.put_world, hNodes, roles_update, Function.update_of_ne hNe.symm]
  | awaited obs hCurrent hPoint hHeld hChild hNodes =>
    cases hActor
    obtain ⟨rfl, rfl⟩ := hHere hCurrent (congrArg Point.body hPoint)
    exact awaited sched frames hResult hReached hCurrent hHeld hNodes rfl (hKeep hCallers)
  | returned obs hCurrent hPoint hTasks hRole hCaller hParent hAwaits hNodes =>
    cases hActor
    obtain ⟨rfl, rfl⟩ := hHere hCurrent (congrArg Point.body hPoint)
    exact returned sched frames hResult hReached hCallers hCurrent hPoint hRole hCaller hParent
      hAwaits hNodes rfl hKeep
  | completed obs hCurrent hPoint hTasks hRole hNodes =>
    cases hActor
    obtain ⟨rfl, rfl⟩ := hHere hCurrent (congrArg Point.body hPoint)
    exact completed frames hResult hReached hCallers hCurrent hRole hNodes

/-- No coroutine of a root that has ended runs. -/
theorem number_ne (hCurrent : Current s h a node) (sched : Scheduled short s.world)
    (frames : s.Framed)
    (hDone : ∀ {h a}, s.code h = some a → a.root = n → roles s.world.nodes h = some .root →
      statuses s.world.nodes h = some .done) : a.root ≠ n := by
  intro hNumber
  obtain ⟨root, r, hr, hRoot, hRole, hLeads⟩ := hCurrent.rooted sched frames
  obtain ⟨other, hOther, hStatus⟩ := Option.map_eq_some_iff.mp
    (hDone hr (hRoot.trans hNumber) hRole)
  have hTip : callees s.world.nodes root = none := by
    rw [callees_of_node hOther, hStatus]
    rfl
  obtain rfl := hLeads.tip_eq hTip
  cases hOther.symm.trans hCurrent.frame
  have hRunning := hCurrent.running
  rw [hStatus] at hRunning
  cases hRunning

theorem step (story : Story s trace n body) (sched : Scheduled short s.world)
    (frames : s.Framed) (hNumber : n < s.spawned)
    (hMoved : Moved s actor s' events) : Story s' (trace ++ events) n body := by
  cases story with
  | @alive h a c hResult hReached hOn =>
    by_cases hActor : actor = some h
    · exact advance sched frames hResult hReached hOn hMoved hActor
    · have hSilent : Silent n events := by
        refine silent_of_moved hMoved (fun hOther hCurrent hRoot => hActor ?_)
        rw [hOther, hOn.eq_current sched frames hCurrent hRoot]
      exact went_on hResult hReached (.inl ⟨rfl, rfl⟩) hSilent.1 hSilent.2
        (hOn.keep sched frames hMoved hActor)
  | @ended result hResult hRuns hDone =>
    have hOther {h : Nat} {a : Activation φ υ} {node : Node} (hCurrent : Current s h a node) :
        a.root ≠ n :=
      number_ne hCurrent sched frames hDone
    have hSilent : Silent n events := silent_of_moved hMoved (fun _ hCurrent => hOther hCurrent)
    refine .ended (by rw [resultOf_append, hResult]; rfl)
      (by rwa [actsOf_append, hSilent.1, List.append_nil]) ?_
    intro t b hb hRoot hRole
    rcases touch_of_moved sched frames hMoved with ⟨hCode, hRoles, hStatus⟩ | ⟨x, y, hApart,
      ⟨-, hx⟩, -, hy⟩
    · exact (hStatus t).mpr (hDone (hCode ▸ hb) hRoot (hRoles ▸ hRole))
    · have hNe {z : Nat} (hz : Kindred s s' actor z) : t ≠ z := by
        rintro rfl
        rcases hz b hb with ⟨h, a, node, -, hCurrent, hSame⟩ | hNew
        · exact hOther hCurrent (hSame.symm.trans hRoot)
        · omega
      obtain ⟨hCode, hNode⟩ := hApart t (hNe hx) (hNe hy)
      rw [roles, hNode] at hRole
      rw [statuses, hNode]
      exact hDone (hCode ▸ hb) hRoot hRole

end Story

section Spawned

variable {s s' : State φ υ} {events : List (Event φ υ)} {actor : Option Nat} {n : Nat}
  {body : Body φ υ}

theorem spawned_le (hMoved : Moved s actor s' events) : s.spawned ≤ s'.spawned := by
  cases hMoved with
  | spawned => exact Nat.le_succ s.spawned
  | _ => exact le_rfl

/-- A root begins with a number of its own, at the beginning of its body. -/
theorem begun_of_moved (hMoved : Moved s actor s' events) (hMem : Event.spawned n body ∈ events) :
    n = s.spawned ∧ s'.spawned = s.spawned + 1 ∧ ∃ h, On s' n h ⟨.at body, [], n⟩
    ⟨[], body, []⟩ := by
  cases hMoved with
  | @spawned w frame body' obs hNew hNodes =>
    simp only [List.mem_append, List.mem_map, reduceCtorEq, and_false, exists_false,
      List.mem_singleton, Event.spawned.injEq, false_or] at hMem
    obtain ⟨rfl, rfl⟩ := hMem
    refine ⟨rfl, rfl, frame, Function.update_self .., rfl, rfl, ?_, rfl, ?_⟩
    · change statuses w.nodes frame ≠ _
      rw [hNodes, statuses_update, Function.update_self]
      simp
    · change roles w.nodes frame = _
      rw [hNodes, roles_update, Function.update_self]
      rfl
  | _ => simp at hMem

end Spawned

/-- What holds of every run. -/
structure Told (wrap : Wrap) (s : State φ υ) (trace : List (Event φ υ)) : Prop where
  world : ∃ obs, (Io.machine wrap).Reaches s.world obs
  frames : s.Framed
  fresh : ∀ {n}, s.spawned ≤ n → Silent n trace ∧ ∀ body, Event.spawned n body ∉ trace
  stories : ∀ {n body}, Event.spawned n body ∈ trace → Story s trace n body

namespace Told

variable {wrap : Wrap} {s s' : State φ υ} {trace events : List (Event φ υ)} {actor : Option Nat}
  {n : Nat}

theorem start : Told wrap (.create : State φ υ) [] where
  world := ⟨[], .start⟩
  frames := .empty
  fresh _ := ⟨⟨rfl, rfl⟩, by simp⟩
  stories h := by cases h

theorem scheduled (told : Told wrap s trace) : Scheduled True s.world := by
  obtain ⟨obs, hReaches⟩ := told.world
  exact (scheduled_of_reaches hReaches).mono (fun _ => trivial)

theorem silent (told : Told wrap s trace) (hMoved : Moved s actor s' events)
    (hFresh : s.spawned ≤ n) : Silent n (trace ++ events) := by
  refine (told.fresh hFresh).1.append (silent_of_moved hMoved (fun {h a node} _ hCurrent => ?_))
  have hNumber := told.frames.numbered hCurrent.code
  omega

theorem moved (told : Told wrap s trace) (hMoved : Moved s actor s' events)
    (hWorld : ∃ obs, (Io.machine wrap).Reaches s'.world obs) : Told wrap s' (trace ++ events) where
  world := hWorld
  frames := frames_of_moved told.scheduled told.frames hMoved
  fresh := by
    intro n hFresh
    have hOld : s.spawned ≤ n := (spawned_le hMoved).trans hFresh
    refine ⟨told.silent hMoved hOld, fun body hMem => ?_⟩
    rcases List.mem_append.mp hMem with hPast | hNow
    · exact (told.fresh hOld).2 body hPast
    · obtain ⟨rfl, hMore, -⟩ := begun_of_moved hMoved hNow
      omega
  stories := by
    intro n body hMem
    rcases List.mem_append.mp hMem with hPast | hNow
    · have hNumber : n < s.spawned := by
        by_contra hLarge
        exact (told.fresh (Nat.le_of_not_lt hLarge)).2 body hPast
      exact (told.stories hPast).step told.scheduled told.frames hNumber hMoved
    · obtain ⟨rfl, -, h, hOn⟩ := begun_of_moved hMoved hNow
      obtain ⟨hActs, hResult⟩ := told.silent hMoved le_rfl
      exact .alive hResult (hActs ▸ .start) hOn

end Told

variable {wrap : Wrap} {s : State φ υ} {trace : List (Event φ υ)}

/-- A run of coroutines with their bodies is a run of the executor. -/
theorem executor_reaches (hReaches : (machine φ υ wrap).Reaches s trace) :
    (Io.machine wrap).Reaches s.world (obsOf trace) := by
  induction hReaches with
  | start => exact .start
  | step hReaches hNext ih =>
    obtain ⟨labels, hRun⟩ := drives_of_next hNext
    rw [obsOf_append]
    exact ih.run hRun

theorem told_of_reaches (hReaches : (machine φ υ wrap).Reaches s trace) : Told wrap s trace := by
  induction hReaches with
  | start => exact .start
  | @step s s' trace events label prior last told =>
    obtain ⟨obs, hWorld⟩ := told.world
    have hWorld' := executor_reaches (prior.step last)
    obtain ⟨actor, hMoved | ⟨s₁, events₁, n, act, hSame, hFirst, hSecond, rfl⟩⟩ :=
      moved_of_next told.scheduled (allKeyed_of_reaches hWorld) told.frames last
    · exact told.moved hMoved ⟨_, hWorld'⟩
    · rw [← List.append_assoc]
      exact (told.moved hFirst ⟨_, hSame ▸ hWorld'⟩).moved hSecond ⟨_, hWorld'⟩

/-- What every move keeps holds of every run. -/
theorem invariant_of_moves {P : State φ υ → List (Event φ υ) → Prop} (hStart : P .create [])
    (hMove : ∀ {s s' trace events actor}, Told wrap s trace → P s trace → Moved s actor s' events →
      Told wrap s' (trace ++ events) → P s' (trace ++ events))
    (hReaches : (machine φ υ wrap).Reaches s trace) : P s trace := by
  induction hReaches with
  | start => exact hStart
  | @step s s' trace events label prior last ih =>
    have told := told_of_reaches prior
    have hWorld := executor_reaches prior
    have hWorld' := executor_reaches (prior.step last)
    obtain ⟨actor, hMoved | ⟨s₁, events₁, n, act, hSame, hFirst, hSecond, rfl⟩⟩ :=
      moved_of_next told.scheduled (allKeyed_of_reaches hWorld) told.frames last
    · exact hMove told ih hMoved (told.moved hMoved ⟨_, hWorld'⟩)
    · have told₁ := told.moved hFirst ⟨_, hSame ▸ hWorld'⟩
      rw [← List.append_assoc]
      exact hMove told₁ (hMove told ih hFirst told₁) hSecond (told₁.moved hSecond ⟨_, hWorld'⟩)

/-- However its coroutines are interleaved with others, and whatever fails, a root has done
and returned what evaluation of its body says for the answers it was given. -/
theorem runs_in_place {wrap : Wrap} {s : State φ υ} {trace : List (Event φ υ)} {n : Nat}
    {body : Body φ υ} (hReaches : (machine φ υ wrap).Reaches s trace)
    (hSpawned : Event.spawned n body ∈ trace) : Runs [] body (actsOf n trace) (resultOf n trace) :=
  ((told_of_reaches hReaches).stories hSpawned).runs

namespace Nested

/-- Nothing comes back from an effect. -/
abbrev Reply (_ : Nat) : Type := Unit

/-- Awaits a child that yields once, and acts with its value. -/
def body : Body Nested.Reply Nat :=
  .make (.ask .yield (fun _ => .act 7 (fun _ => .finish (.returned (some 3)))))
    (coAwait 0 false fun
      | .value v => .act v (fun _ => .finish (.returned none))
      | _ => .finish (.returned none))

/-- The executor resumes the root, and the child once more after the yield. -/
def alone : List (Label Nested.Reply Nat) :=
  let advance := .io (.advance (fun _ => 0) none Faults.none)
  let go := .go 1 0 Faults.none (fun _ => ())
  [.io .run, advance, advance, go, go, go, advance, advance, advance,
    .io (.advance (fun _ => 0) (some []) Faults.none), advance, advance, advance, advance, go, go,
    go, go, go, go]

/-- The same with another root, which runs while the child is suspended. -/
def together : List (Label Nested.Reply Nat) :=
  let advance := .io (.advance (fun _ => 0) none Faults.none)
  let go := .go 1 0 Faults.none (fun _ => ())
  [.spawn (.ask .yield (fun _ => .finish (.returned none))) 5 false, .io .run, advance, advance, go,
    go, go, advance, advance, go, advance, advance, advance,
    .io (.advance (fun _ => 0) (some []) Faults.none),
    advance, advance, advance, advance, go, go, go, go, go, go]

theorem spawned : ∃ s, (machine Nested.Reply Nat .unbounded).next .create (.spawn body 0 false) =
    some (s, [.io (.created 0), .spawned 0 body]) := by
  simp [machine, State.next, State.create, World.create, State.launch, World.next, outsideStep,
    userStep, isFreeTask, Frame.create, World.spawn, toUser, Outcome.ok]

theorem reaches_of_run (labels : List (Label Nested.Reply Nat))
    {acts : List (Act Nested.Reply Request Answer)} {result : Result Nat}
    (h : ((machine Nested.Reply Nat .unbounded).run .create (.spawn body 0 false :: labels)).map
      (fun r => (actsOf 0 r.2, resultOf 0 r.2)) = some (acts, some result)) :
    ∃ s trace, (machine Nested.Reply Nat .unbounded).Reaches s trace ∧
      Event.spawned 0 body ∈ trace ∧ actsOf 0 trace = acts ∧ resultOf 0 trace = some result := by
  obtain ⟨⟨s, trace⟩, hRun, hEq⟩ := Option.map_eq_some_iff.mp h
  obtain ⟨hActs, hResult⟩ := Prod.mk.injEq .. ▸ hEq
  obtain ⟨middle, first, later, hNext, -, rfl⟩ := Machine.exists_of_run_cons hRun
  obtain ⟨s₁, hSpawn⟩ := spawned
  cases hSpawn.symm.trans hNext
  exact ⟨s, _, Machine.Reaches.start.run hRun, by simp, hActs, hResult⟩

theorem reaches_alone :
    ∃ s trace, (machine Nested.Reply Nat .unbounded).Reaches s trace ∧
    Event.spawned 0 body ∈ trace ∧
    actsOf 0 trace = [.asked .yield .done, .did 7 (), .did 3 ()] ∧
      resultOf 0 trace = some (.returned none) :=
  reaches_of_run alone (by decide +kernel)

theorem reaches_together :
    ∃ s trace, (machine Nested.Reply Nat .unbounded).Reaches s trace ∧
    Event.spawned 0 body ∈ trace ∧
    actsOf 0 trace = [.asked .yield .done, .did 7 (), .did 3 ()] ∧
      resultOf 0 trace = some (.returned none) :=
  reaches_of_run together (by decide +kernel)

end Nested

theorem runs_in_place_nested :
    ∃ s trace, (machine Nested.Reply Nat .unbounded).Reaches s trace ∧
    Event.spawned 0 Nested.body ∈ trace ∧
    resultOf 0 trace = some (.returned none) ∧ Runs [] Nested.body (actsOf 0 trace)
      (resultOf 0 trace) := by
  obtain ⟨s, trace, hReaches, hSpawned, -, hResult⟩ := Nested.reaches_alone
  exact ⟨s, trace, hReaches, hSpawned, hResult, runs_in_place hReaches hSpawned⟩

/-- Only the answers count: a root that has ended did and returned the same in every run
that gave it the same answers, on whatever schedule and beside whatever other roots. -/
theorem same_of_answers {wrap wrap' : Wrap} {s s' : State φ υ} {trace trace' : List (Event φ υ)}
    {n m : Nat} {body : Body φ υ} {result result' : Result υ}
    (hReaches : (machine φ υ wrap).Reaches s trace)
    (hReaches' : (machine φ υ wrap').Reaches s' trace') (hSpawned : Event.spawned n body ∈ trace)
    (hSpawned' : Event.spawned m body ∈ trace') (hResult : resultOf n trace = some result)
    (hResult' : resultOf m trace' = some result')
    (hAnswers : answers (actsOf n trace) <+: answers (actsOf m trace')) :
    actsOf n trace = actsOf m trace' ∧ result = result' := by
  have hRuns := ((told_of_reaches hReaches).stories hSpawned).runs
  have hRuns' := ((told_of_reaches hReaches').stories hSpawned').runs
  rw [hResult'] at hRuns'
  obtain ⟨more, hMore⟩ := hAnswers
  exact hRuns.unique hResult hRuns' (hMore.trans (List.append_nil _).symm)

theorem same_of_answers_nested :
    ∃ s s' trace trace', (machine Nested.Reply Nat .unbounded).Reaches s trace ∧
    (machine Nested.Reply Nat .unbounded).Reaches s' trace' ∧ actsOf 0 trace = actsOf 0 trace' := by
  obtain ⟨s, trace, hReaches, hSpawned, hActs, hResult⟩ := Nested.reaches_alone
  obtain ⟨s', trace', hReaches', hSpawned', hActs', hResult'⟩ := Nested.reaches_together
  have hAnswers : answers (actsOf 0 trace) <+: answers (actsOf 0 trace') := by rw [hActs, hActs']
  exact ⟨s, s', trace, trace', hReaches, hReaches',
    (same_of_answers hReaches hReaches' hSpawned hSpawned' hResult hResult' hAnswers).1⟩

end Tinycoro.Coroutine
