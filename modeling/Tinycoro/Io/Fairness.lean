import Tinycoro.Io.Resumption
import Tinycoro.Library.Batches

/-! `ready_` is a queue that `run_ready` serves in batches. Handles enter it when a
task is spawned, when a coroutine yields and when a wait is completed, and leave it
in that order, whatever ends a batch early. Between two batches of one `run` the
timers are expired and the event loop is polled. -/
namespace Tinycoro.Io

open Effect Transition World Batches

/-- The calls a turn of `run` is made of. -/
inductive TurnCall where
  | run
  /-- `run_ready` returns -/
  | batchDone
  | expireTimers
  | poll
  /-- `run` returns or throws -/
  | exit
  deriving DecidableEq

abbrev Mark := Batches.Mark Nat TurnCall

/-- The continuations of the waits that were completed. -/
def woken (slots : Int × Event → Option Nat) (events : List Obs) : List Nat :=
  events.filterMap (fun
    | .completed _ fd event _ => slots (fd, event)
    | _ => none)

/-- Those `schedule` had room for: if it throws, nothing is completed after. -/
def queuedBy (slots : Int × Event → Option Nat) (events : List Obs) : List Nat :=
  if .fault .ready ∈ events then (woken slots events).dropLast else woken slots events

/-- The handles a step pushes to `ready_`. -/
def World.enqueued (w : World) (label : Label) (events : List Obs) : List Nat :=
  match label, w.control with
  | .spawn (some h) _, _ => if events = [] then [h] else []
  | .yield _, .running h _ => if .fault .ready ∈ events then [] else [h]
  | .cancel .., _ | .advance .., _ => queuedBy w.slots events
  | _, _ => []

/-- The marks of a step of `run`. -/
def turnMarks (w : World) (label : Label) (w' : World) (events : List Obs) : List Mark :=
  match label with
  | .run => if w.running then [] else [.other .run]
  | .advance .. =>
    match w.control, w'.control with
    | .turn, .runReady _ => [.batch]
    | .runReady _, .running h _ => [.served h]
    | .runReady _, .expire .. => [.other .batchDone, .other .expireTimers]
    | .poll, .dispatch _ => [.other .poll]
    | .dispatch _, .expire .. => [.other .expireTimers]
    | .poll, .idle =>
      -- `loop_.poll` was called if it is what throws
      if .runThrew (.systemError "epoll_wait") ∈ events then [.other .poll, .other .exit]
        else [.other .exit]
    | _, .idle => [.other .exit]
    | _, _ => []
  | _ => []

def marks (w : World) (label : Label) (w' : World) (events : List Obs) : List Mark :=
  (w.enqueued label events).map .queued ++ turnMarks w label w' events

/-- The executor with a log of its turns. -/
def turnMachine (wrap : Wrap) : Machine World Label Mark := (machine wrap).observe marks

section Growth

variable {slots : Int × Event → Option Nat} {w : World} {fd : Int} {event : Event} {faults : Faults}
  {short : Prop} {nodes : Nat → Option Node}

/-- The event does not concern `ready_`. -/
def Obs.still : Obs → Bool
  | .completed .. | .fault .ready => false
  | _ => true

theorem woken_of_still {events : List Obs} (h : ∀ e ∈ events, e.still = true) :
    woken slots events = [] := by
  apply List.filterMap_eq_nil_iff.mpr
  intro e he
  have hStill := h e he
  cases e with
  | completed => cases hStill
  | _ => rfl

theorem no_shortage_of_still {events : List Obs} (h : ∀ e ∈ events, e.still = true) :
    .fault .ready ∉ events :=
  fun hMem => nomatch h _ hMem

theorem woken_append (events later : List Obs) :
    woken slots (events ++ later) = woken slots events ++ woken slots later := List.filterMap_append

theorem queuedBy_append_still {events later : List Obs} (h : ∀ e ∈ later, e.still = true) :
    queuedBy slots (events ++ later) = queuedBy slots events := by
  have hNone := no_shortage_of_still h
  simp only [queuedBy, woken_append, woken_of_still h, List.append_nil, List.mem_append, hNone,
    or_false]

theorem queuedBy_cons_still {e : Obs} (h : e.still = true) (events : List Obs) :
    queuedBy slots (e :: events) = queuedBy slots events := by
  have hWoken : woken slots (e :: events) = woken slots events := by
    rw [← List.singleton_append, woken_append, woken_of_still (by simpa using h), List.nil_append]
  have hMem : .fault .ready ∈ e :: events ↔ Obs.fault .ready ∈ events := by
    rw [List.mem_cons, or_iff_right]
    rintro rfl
    cases h
  simp only [queuedBy, hWoken, hMem]

/-- The outcome of completing waits: `ready_` got the continuations it had room for. -/
structure Grows (slots : Int × Event → Option Nat) (w : World) (o : IoOutcome) : Prop where
  ready : o.state.ready = w.ready ++ queuedBy slots o.events
  last : .fault .ready ∈ o.events → woken slots o.events ≠ []
  clean : o.error = none → .fault .ready ∉ o.events

namespace Grows

variable {o : IoOutcome}

theorem of_still (hReady : o.state.ready = w.ready) (hStill : ∀ e ∈ o.events, e.still = true) :
    Grows slots w o where
  ready := by simp [hReady, queuedBy, woken_of_still hStill]
  last hMem := absurd hMem (no_shortage_of_still hStill)
  clean _ := no_shortage_of_still hStill

theorem andThen {f : World → IoOutcome} (h : Grows slots w o)
    (hNext : o.error = none → Grows slots o.state (f o.state)) : Grows slots w (o.andThen f) := by
  unfold Outcome.andThen
  cases hError : o.error with
  | some => exact ⟨h.ready, h.last, nofun⟩
  | none =>
    have hClean := h.clean hError
    obtain ⟨hReady, hLast, hClean'⟩ := hNext hError
    have hMem : .fault .ready ∈ o.events ++ (f o.state).events ↔
        Obs.fault .ready ∈ (f o.state).events := by
      rw [List.mem_append, or_iff_right hClean]
    refine ⟨?_, ?_, ?_⟩
    · have hFirst : queuedBy slots o.events = woken slots o.events := if_neg hClean
      rw [hReady, h.ready, hFirst, List.append_assoc]
      simp only [queuedBy, hMem, woken_append]
      split_ifs with hShort
      · rw [List.dropLast_append_of_ne_nil (hLast hShort)]
      · rfl
    · rw [hMem]
      intro hShort
      simp [woken_append, hLast hShort]
    · rw [hMem]
      exact hClean'

/-- A completed wait appends its continuation to `ready_`, if that has room. -/
theorem complete (push result : Bool) (hSlots : w.slots (fd, event) = slots (fd, event))
    (hKeeps : Keeps short nodes w) : Grows slots w (w.complete push fd event result) := by
  cases hSlot : w.slotAt fd event with
  | none =>
    rw [complete_of_empty push result hSlot]
    exact .of_still rfl (by simp)
  | some completed =>
    obtain ⟨st, hLookup, hSt⟩ := Option.bind_eq_some_iff.mp hSlot
    have hHandle : w.slots (fd, event) = some completed.continuation := by
      rw [World.slots, hSlot, Option.map_some]
    have hDone : ((w.setState fd (st.setSlot event none)).setFrame completed.result
        (fun frame => { frame with ready := result })).isDone completed.continuation = false := by
      apply not_isDone_of_parked
      rw [nodes_setReady]
      change _ ∈ parked w.nodes
      rw [hKeeps.1]
      exact hKeeps.2.mem_of_slot hHandle
    rw [complete_of_slot push result hLookup hSt, Outcome.ok_andThen]
    simp only [schedule, hDone, Bool.false_eq_true, if_false]
    rw [hHandle] at hSlots
    split_ifs
    · exact ⟨by simp [queuedBy, woken, ← hSlots]; rfl, by simp [woken, ← hSlots], (by simp)⟩
    · exact ⟨by simp [queuedBy, woken, ← hSlots]; rfl, by simp, by simp⟩

theorem refreshInterest : Grows slots w (w.refreshInterest faults fd) := by
  refine .of_still (same_refreshInterest faults fd).ready ?_
  unfold World.refreshInterest
  split
  · simp
  · dsimp only
    split_ifs
    · simp
    · simp
    · split
      · simp
      · rename_i e _
        cases e with
        | systemError =>
          simp only [Outcome.fail_events, modFault]
          split_ifs <;> simp [Obs.still]
        | _ => simp [modFault]
    · split <;> simp

theorem settle (result : Bool) (hKeeps : Keeps short nodes w) :
    Grows w.slots w (w.settle faults fd event result) := by
  refine andThen (andThen (.complete faults.push result rfl hKeeps) (fun _ => .refreshInterest))
    (fun _ => ?_)
  exact .of_still (same_eraseIdle fd).ready nofun

theorem onReady (hKeeps : Keeps short nodes w) : Grows w.slots w (w.onReady faults fd event) := by
  unfold World.onReady
  split
  · exact .of_still rfl nofun
  · exact .settle true hKeeps

theorem expireTimer (faults : Faults) (hKeeps : Keeps short nodes w) (timer : TimerEntry) :
    Grows w.slots w (w.expireTimer faults timer) := by
  unfold World.expireTimer
  split_ifs
  · exact .settle false hKeeps
  · exact .of_still rfl nofun

theorem cancel (hKeeps : Keeps True nodes w) : Grows w.slots w (w.cancel faults fd) := by
  cases hLookup : w.fdStates.lookup fd with
  | none =>
    rw [cancel_of_none faults hLookup]
    exact .of_still rfl nofun
  | some st =>
    rw [cancel_of_lookup faults hLookup]
    have hSame := same_deregistered hLookup
    have hRemoved := hKeeps.same hSame
    generalize w.deregistered fd st = removed at hSame hRemoved ⊢
    refine andThen (andThen ?_ (fun _ => ?_)) (fun _ => .of_still rfl nofun)
    · obtain ⟨hReady, hLast, hClean⟩ := complete faults.push false
        (congrFun hSame.slots (fd, .read)) hRemoved
      exact ⟨hSame.ready ▸ hReady, hLast, hClean⟩
    · refine complete faults.pushAgain false ?_
        ((keeps_complete faults.push false hRemoved).state (fun e _ hShort => hShort.2 trivial))
      rw [← hSame.slots, World.slots, complete_slotAt, if_neg (by simp), World.slots]

theorem toUser (h : Grows slots w o) :
    (toUser o).1.ready = w.ready ++ queuedBy slots (World.toUser o).2 := by
  obtain ⟨last, hEq, hThrew⟩ := toUser_events o
  rw [toUser_state, hEq, queuedBy_append_still, h.ready]
  intro e he
  obtain ⟨x, rfl⟩ := hThrew e he
  rfl

theorem within (h : Grows slots w o) (control : Control) :
    (within o control).1.ready = w.ready ++ queuedBy slots (World.within o control).2 := by
  obtain ⟨last, hEq, hThrew⟩ := within_events o control
  rw [hEq, queuedBy_append_still, ← h.ready]
  · unfold World.within
    cases o.error <;> rfl
  · intro e he
    obtain ⟨x, rfl⟩ := hThrew e he
    rfl

end Grows

end Growth

/-- Where `run` is between its calls. -/
inductive Phase where
  | idle
  | turn
  | batch
  | done
  | expired
  | polled
  deriving DecidableEq

/-- The order of the calls. Handles may be queued at any time, and are resumed by
`run_ready` only. -/
def Phase.next : Phase → Mark → Option Phase
  | phase, .queued _ => some phase
  | .batch, .served _ => some .batch
  | .idle, .other .run => some .turn
  | .turn, .batch => some .batch
  | .batch, .other .batchDone => some .done
  | .done, .other .expireTimers => some .expired
  | .expired, .other .poll => some .polled
  | .polled, .other .expireTimers => some .turn
  | .idle, .other .exit => none
  | _, .other .exit => some .idle
  | _, _ => none

def Phase.after (phase : Phase) (log : List Mark) : Option Phase := log.foldlM Phase.next phase

/-- What is called before the next batch begins in the same `run`. -/
def Phase.due : Phase → List Mark
  | .idle => []
  | .turn => [.batch]
  | .batch => [.other .batchDone, .other .expireTimers, .other .poll, .other .expireTimers, .batch]
  | .done => [.other .expireTimers, .other .poll, .other .expireTimers, .batch]
  | .expired => [.other .poll, .other .expireTimers, .batch]
  | .polled => [.other .expireTimers, .batch]

namespace Phase

variable {phase last : Phase} {mark : Mark} {log rest : List Mark}

theorem after_append :
    phase.after (log ++ rest) = (phase.after log).bind (fun middle => middle.after rest) :=
  List.foldlM_append

theorem after_cons :
    phase.after (mark :: rest) = (phase.next mark).bind (fun middle => middle.after rest) :=
  List.foldlM_cons

/-- Without a call of `run` there is no batch. -/
theorem idle_of_after (h : Phase.idle.after log = some last) (hRun : .other .run ∉ log) :
    .batch ∉ log := by
  induction log with
  | nil => exact nofun
  | cons mark log ih =>
    rw [after_cons, Option.bind_eq_some_iff] at h
    obtain ⟨middle, hNext, hAfter⟩ := h
    rw [List.mem_cons, not_or] at hRun ⊢
    cases mark with
    | queued =>
      cases hNext
      exact ⟨nofun, ih hAfter hRun.2⟩
    | served => cases hNext
    | batch => cases hNext
    | other call =>
      cases call with
      | run => exact absurd rfl hRun.1
      | _ => cases hNext

/-- One call takes what is due first off the list. -/
theorem due_next (h : phase.next mark = some last) (hPhase : phase ≠ .idle) :
    last = .idle ∨ (mark = .batch ∧ phase.due = [.batch]) ∨ mark ≠ .batch ∧
      phase.due.Sublist (mark :: last.due) := by
  cases mark with
  | queued =>
    cases h
    exact .inr (.inr ⟨nofun, List.sublist_cons_self ..⟩)
  | served =>
    cases phase <;> cases h
    exact .inr (.inr ⟨nofun, List.sublist_cons_self ..⟩)
  | batch =>
    cases phase <;> cases h
    exact .inr (.inl ⟨rfl, rfl⟩)
  | other call =>
    cases call with
    | run => cases phase <;> cases h; exact absurd rfl hPhase
    | exit =>
      cases phase <;> cases h
      all_goals exact .inl rfl
    | _ =>
      cases phase <;> cases h
      all_goals exact .inr (.inr ⟨nofun, List.Sublist.refl _⟩)

/-- The next batch begins after everything that is due. -/
theorem due_sublist (h : phase.after log = some last) (hPhase : phase ≠ .idle)
    (hRun : .other .run ∉ log) (hBatch : .batch ∈ log) : phase.due.Sublist log := by
  induction log generalizing phase with
  | nil => exact absurd hBatch (List.not_mem_nil)
  | cons mark log ih =>
    rw [after_cons, Option.bind_eq_some_iff] at h
    obtain ⟨middle, hNext, hAfter⟩ := h
    have hRun' : .other .run ∉ log := fun hMem => hRun (List.mem_cons_of_mem _ hMem)
    rcases due_next hNext hPhase with rfl | ⟨rfl, hDue⟩ | ⟨hMark, hDue⟩
    · have hNone := idle_of_after hAfter hRun'
      cases List.mem_cons.mp hBatch with
      | inl hEq =>
        subst hEq
        cases phase <;> cases hNext
      | inr hMem => exact absurd hMem hNone
    · rw [hDue]
      exact List.Sublist.cons_cons _ (List.nil_sublist log)
    · have hMem : .batch ∈ log := (List.mem_cons.mp hBatch).resolve_left (Ne.symm hMark)
      by_cases hIdle : middle = .idle
      · exact absurd hMem (idle_of_after (hIdle ▸ hAfter) hRun')
      · exact hDue.trans (List.Sublist.cons_cons _ (ih hAfter hIdle hRun' hMem))

end Phase

def Control.phase : Control → Phase
  | .idle => .idle
  | .turn | .expire _ true => .turn
  | .runReady _ | .running .. | .drain .. => .batch
  | .expire _ false | .poll => .expired
  | .dispatch _ | .dispatchWrite .. => .polled

/-- How many handles the present batch has yet to resume. -/
def Control.left : Control → Nat
  | .runReady left | .running _ left | .drain _ left => left
  | _ => 0

/-- `run` is where it calls a function that completes waits. -/
def Control.completing : Control → Bool
  | .expire .. | .dispatch _ | .dispatchWrite .. => true
  | _ => false

theorem Control.of_completing {control : Control} (h : control.completing = true) :
    control.phase ≠ .idle ∧ control ≠ .poll := by
  cases control with
  | expire now second => cases second <;> simp [phase]
  | dispatch => simp [phase]
  | dispatchWrite => simp [phase]
  | _ => cases h

/-- The log agrees with the queue and with the phase the thread is in. -/
structure Turns (log : List Mark) (ready : List Nat) (phase : Phase) (left : Nat) : Prop where
  serves : Serves log ready left
  phase : Phase.idle.after log = some phase

namespace Turns

variable {log : List Mark} {ready : List Nat} {phase next : Phase} {left : Nat}

theorem queue (inv : Turns log ready phase left) (as : List Nat) :
    Turns (log ++ as.map .queued) (ready ++ as) phase left where
  serves := inv.serves.queueAll as
  phase := by
    have hStay (phase : Phase) : phase.after (as.map .queued) = some phase := by
      induction as with
      | nil => rfl
      | cons a as ih => exact ih
    rw [Phase.after_append, inv.phase]
    exact hStay phase

theorem mark {mark : Mark} (inv : Turns log ready phase left)
    (hNext : phase.next mark = some next) : Phase.idle.after (log ++ [mark]) = some next := by
  rw [Phase.after_append, inv.phase, Option.bind_some, Phase.after_cons, hNext]
  rfl

theorem call {call : TurnCall} (inv : Turns log ready phase left)
    (hNext : phase.next (.other call) = some next) : Turns (log ++ [.other call]) ready next 0 :=
  ⟨(inv.serves.other call).mono (Nat.zero_le _), inv.mark hNext⟩

theorem exit (inv : Turns log ready phase left) (hPhase : phase ≠ .idle) :
    Turns (log ++ [.other .exit]) ready .idle 0 := by
  apply inv.call
  cases phase with
  | idle => exact absurd rfl hPhase
  | _ => rfl

section Steps

variable {wrap : Wrap} {w w' : World} {label : Label} {events : List Obs} {pick : Pick}
  {batch : Option (List Int)} {faults : Faults}

/-- The log agrees with the state of `run`. -/
abbrev Agrees (log : List Mark) (w : World) : Prop :=
  Turns log w.ready w.control.phase w.control.left

theorem enqueued_of_still (h : ∀ e ∈ events, e.still = true) :
    w.enqueued (.advance pick batch faults) events = [] := by
  simp [World.enqueued, queuedBy, woken_of_still h]

theorem marks_of_still (h : ∀ e ∈ events, e.still = true) :
    marks w (.advance pick batch faults) w' events =
      turnMarks w (.advance pick batch faults) w' events := by
  rw [marks, enqueued_of_still h, List.map_nil, List.nil_append]

theorem marks_nil :
    marks w (.advance pick batch faults) w' [] = turnMarks w (.advance pick batch faults) w' [] :=
  marks_of_still nofun

/-- Nothing is marked while `run` goes on where it is. -/
theorem turnMarks_stay (hAt : w.control.completing = true)
    (hPhase : w'.control.phase = w.control.phase) :
    turnMarks w (.advance pick batch faults) w' events = [] := by
  unfold turnMarks
  cases hControl : w.control with
  | expire now second =>
    cases hControl' : w'.control with
    | idle =>
      rw [hControl, hControl'] at hPhase
      cases second <;> cases hPhase
    | _ => rfl
  | dispatch =>
    cases hControl' : w'.control with
    | idle =>
      rw [hControl, hControl'] at hPhase
      cases hPhase
    | expire now second =>
      rw [hControl, hControl'] at hPhase
      cases second <;> cases hPhase
    | _ => rfl
  | dispatchWrite =>
    cases hControl' : w'.control with
    | idle =>
      rw [hControl, hControl'] at hPhase
      cases hPhase
    | _ => rfl
  | _ =>
    rw [hControl] at hAt
    cases hAt

theorem turnMarks_exit (hIdle : w'.control = .idle) (hPoll : w.control ≠ .poll) :
    turnMarks w (.advance pick batch faults) w' events = [.other .exit] := by
  unfold turnMarks
  cases hControl : w.control <;> simp_all

/-- `run` goes on where it is, or leaves with an exception, after some waits were
completed. -/
theorem within {o : IoOutcome} {control : Control} {first : Obs} (inv : Agrees log w)
    (hGrows : Grows w.slots w o) (hFirst : first.still = true) (hAt : w.control.completing = true)
    (hPhase : control.phase = w.control.phase) (hLeft : control.left = 0) :
    Agrees (log ++ marks w (.advance pick batch faults) (World.within o control).1
      (first :: (World.within o control).2)) (World.within o control).1 := by
  have hQueued :=
    inv.queue (w.enqueued (.advance pick batch faults) (first :: (World.within o control).2))
  have hReady : (World.within o control).1.ready =
      w.ready ++ w.enqueued (.advance pick batch faults) (first :: (World.within o control).2) := by
    rw [World.enqueued, queuedBy_cons_still hFirst, hGrows.within]
  obtain ⟨hIdle, hPoll⟩ := Control.of_completing hAt
  rw [← hReady] at hQueued
  rw [marks, ← List.append_assoc]
  cases hError : o.error with
  | none =>
    have hControl : (World.within o control).1.control = control := by
      simp only [World.within, hError]
    rw [turnMarks_stay hAt (by rw [hControl, hPhase]), List.append_nil, Agrees, hControl,
      hPhase, hLeft]
    exact ⟨hQueued.serves.mono (Nat.zero_le _), hQueued.phase⟩
  | some =>
    have hControl : (World.within o control).1.control = .idle := by
      simp only [World.within, hError, throwRun]
    rw [turnMarks_exit hControl hPoll, Agrees, hControl]
    exact hQueued.exit hIdle

theorem silent (inv : Agrees log w) (hMarks : marks w label w' events = [])
    (hReady : w'.ready = w.ready) (hPhase : w'.control.phase = w.control.phase)
    (hLeft : w'.control.left = w.control.left) : Agrees (log ++ marks w label w' events) w' := by
  rw [hMarks, List.append_nil, Agrees, hReady, hPhase, hLeft]
  exact inv

/-- `run` goes on, and the log has nothing to say about it. -/
theorem passes {control : Control} (inv : Agrees log w) (hPhase : control.phase = w.control.phase)
    (hLeft : control.left = w.control.left)
    (hTurn : turnMarks w (.advance pick batch faults) { w' with control } [] = [])
    (hReady : w'.ready = w.ready) :
    Agrees (log ++ marks w (.advance pick batch faults) { w' with control } [])
      { w' with control } :=
  inv.silent (marks_nil.trans hTurn) hReady hPhase hLeft

theorem grows (inv : Agrees log w) (hTurn : turnMarks w label w' events = [])
    (hReady : w'.ready = w.ready ++ w.enqueued label events)
    (hPhase : w'.control.phase = w.control.phase) (hLeft : w'.control.left = w.control.left) :
    Agrees (log ++ marks w label w' events) w' := by
  rw [marks, hTurn, List.append_nil, Agrees, hReady, hPhase, hLeft]
  exact inv.queue _

theorem spawn (inv : Agrees log w) (task : Option Nat) (fails : Bool) :
    Agrees (log ++ marks w (.spawn task fails) (toUser (w.spawn fails task)).1
      (toUser (w.spawn fails task)).2) (toUser (w.spawn fails task)).1 := by
  cases task with
  | none => exact inv.silent rfl rfl rfl rfl
  | some =>
    simp only [World.spawn]
    split_ifs
    · exact inv.silent rfl rfl rfl rfl
    · exact inv.silent rfl rfl rfl rfl
    · exact inv.grows rfl rfl rfl rfl

theorem yield (inv : Agrees log w) {h left : Nat} {push : Bool}
    (hControl : w.control = .running h left) (hDone : w.isDone h = false)
    (hOk : (w.schedule push h).error = none) :
    Turns (log ++ marks w (.yield push)
        { (w.schedule push h).state.setStatus h .suspended with control := .drain none left }
        ((w.schedule push h).events ++ [.suspended h]))
      (w.schedule push h).state.ready .batch left := by
  cases push with
  | true => simp [schedule, hDone] at hOk
  | false =>
    have hEnqueued : w.enqueued (.yield false) ((w.schedule false h).events ++ [.suspended h]) =
        [h] := by
      simp [World.enqueued, hControl, schedule, hDone]
    have hReady : (w.schedule false h).state.ready = w.ready ++ [h] := by simp [schedule, hDone]
    rw [marks, hEnqueued, hReady]
    rw [Agrees, hControl] at inv
    exact inv.queue [h]

/-- `run` leaves. -/
theorem leave (inv : Agrees log w) {last : Obs} (hStill : last.still = true)
    (hIdle : w.control.phase ≠ .idle)
    (hPoll : w.control = .poll → last ≠ .runThrew (.systemError "epoll_wait")) :
    Turns (log ++ marks w (.advance pick batch faults) { w with running := false, control := .idle }
      [last]) w.ready .idle 0 := by
  rw [marks_of_still (by simpa using hStill)]
  have hMarks : turnMarks w (.advance pick batch faults) { w with running := false, control :=
      .idle } [last] = [.other .exit] := by
    unfold turnMarks
    cases hControl : w.control with
    | poll => simp [(hPoll hControl).symm]
    | idle => exact absurd (by rw [hControl]; rfl) hIdle
    | _ => rfl
  rw [hMarks]
  exact inv.exit hIdle

/-- A call that throws has queued nothing. -/
theorem yieldThrows (inv : Agrees log w) {h left : Nat} {push : Bool} {e : Exception}
    (hControl : w.control = .running h left) (hError : (w.schedule push h).error = some e) :
    Agrees (log ++ marks w (.yield push) (w.schedule push h).state
      ((w.schedule push h).events ++ [.threw e])) (w.schedule push h).state := by
  rw [schedule_of_error (by simp [hError])]
  have hShort : .fault .ready ∈ (w.schedule push h).events := by
    revert hError
    unfold World.schedule
    split_ifs <;> simp
  exact inv.silent (by simp [marks, World.enqueued, turnMarks, hControl, hShort]) rfl rfl rfl

/-- The handles that `cancel` wakes go to the end of the queue. -/
theorem cancel (inv : Agrees log w) (sched : Scheduled True w) (hKeyed : w.AllKeyed) (fd : Int) :
    Agrees (log ++ marks w (.cancel fd faults) (toUser (w.cancel faults fd)).1
      (.cancelled fd :: (toUser (w.cancel faults fd)).2)) (toUser (w.cancel faults fd)).1 := by
  have hControl : (w.cancel faults fd).state.control = w.control :=
    (elsewhere_cancel (hKeyed fd)).control
  refine inv.grows rfl ?_ (by rw [toUser_state, hControl]) (by rw [toUser_state, hControl])
  exact (Grows.cancel sched.keeps).toUser.trans (by rw [World.enqueued, queuedBy_cons_still rfl])

/-- The first handle of the batch is served. -/
theorem resume (inv : Agrees log w) (sched : Scheduled True w) {h left : Nat} {rest : List Nat}
    (hControl : w.control = .runReady (left + 1)) (hFront : w.ready = h :: rest) : let w' :=
  { { w with ready := rest }.setStatus h .running with control := .running h left }
    Agrees (log ++ marks w (.advance pick batch faults) w' [.resumed h]) w' := by
  dsimp only
  rw [marks_of_still (by simp [Obs.still]), turnMarks, hControl]
  have hNodup := sched.kept.nodup
  rw [Agrees, hControl] at inv
  rw [hFront] at inv hNodup
  exact ⟨inv.serves.serve hNodup, inv.mark rfl⟩

theorem batchDone (inv : Agrees log w) (hControl : w.control = .runReady left) :
    Agrees (log ++ marks w (.advance pick batch faults) { w with control := .expire w.now false }
      []) { w with control := .expire w.now false } := by
  rw [marks_nil, turnMarks, hControl]
  rw [Agrees, hControl] at inv
  have hDone : Turns (log ++ [.other .batchDone]) w.ready .done 0 := inv.call rfl
  have hExpired : Turns (log ++ [.other .batchDone] ++ [.other .expireTimers]) w.ready .expired 0 :=
    hDone.call rfl
  rw [List.append_assoc] at hExpired
  exact hExpired

/-- `loop_.poll` throws, and `run` with it. -/
theorem pollFails (inv : Agrees log w) (hControl : w.control = .poll) (timers : List TimerEntry) :
    Agrees (log ++ marks w (.advance pick batch faults)
        ({ w with timers }.throwRun (.systemError "epoll_wait")).1
        ({ w with timers }.throwRun (.systemError "epoll_wait")).2)
      ({ w with timers }.throwRun (.systemError "epoll_wait")).1 := by
  rw [Agrees, hControl] at inv
  have hPolled : Turns (log ++ [.other .poll]) w.ready .polled 0 := inv.call rfl
  have hLeft := hPolled.exit (by simp)
  rw [List.append_assoc] at hLeft
  rw [throwRun, marks_of_still (by simp [Obs.still]), turnMarks, hControl]
  simp only [List.mem_singleton, if_true]
  exact hLeft

/-- The marks of the turns agree with the executor after each step: one lemma per place where a
step can end a turn, begin one or append to the queue. -/
theorem step (inv : Agrees log w) (sched : Scheduled True w) (hKeyed : w.AllKeyed)
    (h : Step wrap w label w' events) : Agrees (log ++ marks w label w' events) w' := by
  cases h with
  | @spawn task fails => exact inv.spawn task fails
  | cancel => exact inv.cancel sched hKeyed _
  | rerun hUser hRunning =>
    exact inv.silent (by simp [marks, World.enqueued, turnMarks, hRunning]) rfl rfl rfl
  | run hUser hRunning =>
    have hMarks : marks w .run { w with running := true, stopRequested := false, control := .turn }
        [] = [.other .run] := by simp [marks, World.enqueued, turnMarks, hRunning]
    rw [Agrees, sched.flag.mp hRunning] at inv
    rw [hMarks]
    exact inv.call rfl
  | await hControl => exact inv.silent rfl rfl (by rw [hControl]; rfl) (by rw [hControl]; rfl)
  | yield hControl hOk => exact inv.yield hControl (sched.not_done_running hControl) hOk
  | yieldThrows hControl hError => exact inv.yieldThrows hControl hError
  | wait hControl hFresh hOk =>
    obtain ⟨-, hTaken⟩ := (taken_armWait (fun _ _ => Set.notMem_empty _)).1 hOk
    exact inv.silent rfl hTaken.ready (by rw [hControl]; rfl) (by rw [hControl]; rfl)
  | @waitThrows h left address fd timeout event faults e hControl hFresh hError =>
    have hThrown := ne_of_eq_of_ne hError (Option.some_ne_none _)
    have hSame := (taken_armWait (fun _ _ => Set.notMem_empty _)).2 hThrown
    have hElse : Elsewhere fd _ w (w.armWait wrap faults address fd event timeout (some h)
        (some h)).state :=
      elsewhere_armWait (hKeyed fd) (Set.mem_univ _) ..
    exact inv.silent rfl hSame.ready (by rw [hElse.control]) (by rw [hElse.control])
  | finish hControl =>
    unfold finalSuspend
    split_ifs
    · exact inv.silent rfl rfl (by rw [hControl]; rfl) (by rw [hControl]; rfl)
    · split <;> exact inv.silent rfl rfl (by rw [hControl]; rfl) (by rw [hControl]; rfl)
  | turn hControl =>
    rw [marks_nil, turnMarks, hControl]
    rw [Agrees, hControl] at inv
    exact ⟨inv.serves.begin, inv.mark rfl⟩
  | returned hControl =>
    have hPhase : w.control.phase ≠ .idle := by
      rcases hControl with h | h <;> rw [h] <;> simp [Control.phase]
    exact inv.leave rfl hPhase (by simp)
  | batchDone hControl => exact inv.batchDone hControl
  | skipDone hControl hFront hDone =>
    -- a handle in the queue is not done
    have hParked := sched.kept.mem_of_queue (hFront ▸ List.mem_cons_self)
    rw [not_isDone_of_parked hParked] at hDone
    cases hDone
  | resume hControl hFront => exact inv.resume sched hControl hFront
  | drained hControl | unwatched hControl =>
    exact inv.passes (by rw [hControl]; rfl) (by rw [hControl]; rfl) (by rw [turnMarks, hControl])
      rfl
  | drainThrows hControl | noWakeSource hControl =>
    exact inv.leave rfl (by rw [hControl]; simp [Control.phase]) (by simp)
  | destroyRoot hControl =>
    exact inv.silent (by rw [marks_nil, turnMarks, hControl]) rfl (by rw [hControl]; rfl)
      (by rw [hControl]; rfl)
  | @expired now second hControl =>
    cases second <;>
      exact inv.passes (by rw [hControl]; rfl) (by rw [hControl]; rfl)
      (by rw [turnMarks, hControl]; rfl) rfl
  | @expire now second pick timer faults hControl =>
    have hKeeps : Keeps True w.nodes { w with timers := w.timers.eraseIdx pick } := sched.keeps
    obtain ⟨hReady, hLast, hClean⟩ := Grows.expireTimer faults hKeeps timer
    exact inv.within ⟨hReady, hLast, hClean⟩ rfl (by rw [hControl]; rfl) (by rw [hControl]) rfl
  | pollFails hControl => exact inv.pollFails hControl _
  | epollWait hControl | dispatched hControl =>
    rw [marks_nil, turnMarks, hControl]
    rw [Agrees, hControl] at inv
    exact inv.call rfl
  | unselected hAt =>
    cases hAt with
    | read hControl | write hControl =>
      exact inv.passes (by rw [hControl]; rfl) (by rw [hControl]; rfl) (by rw [turnMarks, hControl])
        rfl
  | ready hAt =>
    cases hAt with
    | read hControl | write hControl =>
      exact inv.within (.onReady sched.keeps) rfl (by rw [hControl]; rfl) (by rw [hControl]; rfl)
        rfl
  | _ => exact inv.silent rfl rfl rfl rfl

end Steps

end Turns

theorem turns_of_reaches {wrap : Wrap} {w : World} {log : List Mark}
    (h : (turnMachine wrap).Reaches w log) : Turns log w.ready w.control.phase w.control.left := by
  apply h.invariant (P := fun w log => Turns log w.ready w.control.phase w.control.left)
  · exact ⟨.empty, rfl⟩
  · intro w w' log later label hReaches inv hNext
    obtain ⟨events, hStep, rfl⟩ := Machine.observe_next.mp hNext
    obtain ⟨trace, hReaches⟩ := hReaches.unobserved
    exact inv.step ((scheduled_of_reaches hReaches).mono (fun _ => trivial))
      (allKeyed_of_reaches hReaches) (step_of_next hStep)

/-- `run_ready` is executing at the end of the log. -/
def InBatch (log : List Mark) : Prop := Phase.idle.after log = some .batch

/-- Handles are resumed in the order they were queued, none is lost, and in one
`run` a handle that is queued during a batch waits for the next turn. -/
structure FairTurns (w : World) (log : List Mark) : Prop where
  fifo : queuedIn log = servedIn log ++ w.ready
  waits : ∀ {before between after h}, log = before ++ .queued h :: (between ++ .served h :: after) →
    InBatch before → .other .run ∉ between →
    [.other .batchDone, .other .expireTimers, .other .poll, .other .expireTimers, .batch].Sublist
      between
  polls : ∀ {before between after h}, log = before ++ .served h :: (between ++ .served h :: after) →
    .other .run ∉ between → .other .poll ∈ between

namespace Turns

variable {log before between after : List Mark} {ready : List Nat} {phase : Phase} {left h : Nat}

/-- Every first part of the log is in order. -/
theorem phase_before (inv : Turns log ready phase left) (hLog : log = before ++ between) :
    ∃ middle, Phase.idle.after before = some middle ∧ middle.after between = some phase := by
  have hPhase := inv.phase
  rw [hLog, Phase.after_append] at hPhase
  exact Option.bind_eq_some_iff.mp hPhase

/-- From a batch to the beginning of another one, `run` makes a whole turn. -/
theorem whole_turn (inv : Turns log ready phase left) (hLog : log = before ++ (between ++ after))
    (hBatch : InBatch before) (hRun : .other .run ∉ between) (hNext : .batch ∈ between) :
    Phase.batch.due.Sublist between := by
  obtain ⟨middle, hMiddle, hRest⟩ := inv.phase_before hLog
  obtain rfl : Phase.batch = middle := Option.some.inj (hBatch.symm.trans hMiddle)
  rw [Phase.after_append, Option.bind_eq_some_iff] at hRest
  obtain ⟨last, hBetween, -⟩ := hRest
  exact Phase.due_sublist hBetween nofun hRun hNext

theorem inBatch_queued (hBatch : InBatch before) : InBatch (before ++ [.queued h]) := by
  rw [InBatch, Phase.after_append, hBatch]
  rfl

/-- Handles are resumed in a batch only. -/
theorem inBatch_served (inv : Turns log ready phase left)
    (hLog : log = before ++ .served h :: after) : InBatch (before ++ [.served h]) := by
  obtain ⟨middle, hMiddle, hRest⟩ := inv.phase_before hLog
  rw [Phase.after_cons, Option.bind_eq_some_iff] at hRest
  obtain ⟨last, hNext, -⟩ := hRest
  rw [InBatch, Phase.after_append, hMiddle, Option.bind_some, Phase.after_cons, hNext]
  cases middle <;> cases hNext
  rfl

end Turns

theorem fairTurns_of_reaches (wrap : Wrap) {w : World} {log : List Mark}
    (h : (turnMachine wrap).Reaches w log) : FairTurns w log := by
  have inv := turns_of_reaches h
  refine ⟨inv.serves.conserved, ?_, ?_⟩
  · intro before between after h hLog hBatch hRun
    have hFair := inv.serves.fair (before ++ .queued h :: between) (.served h) after
        (by simp [hLog]) rfl
    have hSplit : log = (before ++ [.queued h]) ++ (between ++ .served h :: after) := by simp [hLog]
    exact inv.whole_turn hSplit (Turns.inBatch_queued hBatch) hRun (hFair.queued rfl)
  · intro before between after h hLog hRun
    have hFair := inv.serves.fair (before ++ .served h :: between) (.served h) after
        (by simp [hLog]) rfl
    have hSplit : log = (before ++ [.served h]) ++ (between ++ .served h :: after) := by simp [hLog]
    have hTurn := inv.whole_turn hSplit (inv.inBatch_served hLog) hRun (hFair.served rfl)
    exact hTurn.subset (by simp [Phase.due])

/-- A coroutine yields, and the executor polls before it resumes it. -/
theorem fairTurns_of_reaches_yield :
    ∃ w log, (turnMachine .unbounded).Reaches w log ∧
      log = [.queued 0, .other .run, .batch, .served 0, .queued 0, .other .batchDone,
        .other .expireTimers, .other .poll, .other .expireTimers, .batch, .served 0] ∧
        FairTurns w log := by
  let advance : Label := .advance 0 (some []) .none
  have hRun : ((turnMachine .unbounded).run .create
      ([.create 0, .spawn (some 0) false, .run, advance, advance, .yield false] ++ List.replicate 8
        advance)).map (fun r => r.2) = some [.queued 0, .other .run, .batch, .served 0, .queued 0,
          .other .batchDone, .other .expireTimers, .other .poll, .other .expireTimers, .batch,
          .served 0] := by decide +kernel
  obtain ⟨⟨w, log⟩, hRun, rfl⟩ := Option.map_eq_some_iff.mp hRun
  have hReaches := Machine.Reaches.start.run hRun
  exact ⟨w, _, hReaches, rfl, fairTurns_of_reaches .unbounded hReaches⟩

end Tinycoro.Io
