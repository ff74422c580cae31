import Tinycoro.Io.EventLoop
import Tinycoro.Library.Effect

/-! One call of `poll` over channels whose callbacks are arbitrary code. A callback may
change anything, the map of channels and the other callbacks included, and may throw.
The events of the batch are taken from the kernel before the first callback runs. -/
namespace Tinycoro.Io

open Effect

/-- The code around an event loop: its state, with the loop in it, and the callbacks that
the channel at an address has in that state. A callback leaves a state and perhaps an
exception. -/
structure Program (σ : Type) where
  loop : σ → EventLoop
  setKernel : σ → Kernel → σ
  loop_setKernel : ∀ s kernel, loop (setKernel s kernel) = { loop s with kernel }
  callback : σ → Int → Nat → Event → Option (σ → σ × Option Exception)

/-- A call of a callback, with the states it has found and left. -/
structure Call (σ : Type) where
  fd : Int
  channel : Nat
  event : Event
  before : σ
  after : σ

namespace Program

variable {σ : Type} (p : Program σ)

/-- The descriptor is mapped to the channel, whose callback for the direction is set. -/
def Attached (s : σ) (item : Int × Event) (channel : Nat) : Prop :=
  (p.loop s).channels item.1 = some channel ∧ (p.callback s item.1 channel item.2).isSome

/-- A state between two callbacks, or at either end. -/
def Visits (s : σ) (calls : List (Call σ)) (t : σ) : Prop := t = s ∨ ∃ call ∈ calls, call.after = t

/-- The channel is attached all the time. -/
def Steady (s : σ) (calls : List (Call σ)) (item : Int × Event) (channel : Nat) : Prop :=
  ∀ t, Visits s calls t → p.Attached t item channel

/-- The calls lead from one state to another: each finds the state that the one before it
has left, with the descriptor mapped to its channel and the callback set. -/
inductive Made : σ → List (Call σ) → σ → Prop where
  | nil (s : σ) : Made s [] s
  | cons {s last : σ} {fd : Int} {channel : Nat} {event : Event} {f : σ → σ × Option Exception}
      {calls : List (Call σ)} (hChannel : (p.loop s).channels fd = some channel)
      (hCallback : p.callback s fd channel event = some f) (later : Made (f s).1 calls last) :
      Made s (⟨fd, channel, event, s, (f s).1⟩ :: calls) last

/-- The callback that was called throws this exception in the state it was called in. -/
def Throws (call : Call σ) (e : Exception) : Prop :=
  ∃ f, p.callback call.before call.fd call.channel call.event = some f ∧ (f call.before).2 = some e

variable {p}

theorem Made.append {s middle last : σ} {calls later : List (Call σ)} (h : p.Made s calls middle)
    (hLater : p.Made middle later last) : p.Made s (calls ++ later) last := by
  induction h with
  | nil => exact hLater
  | cons hChannel hCallback _ ih => exact .cons hChannel hCallback (ih hLater)

theorem Made.visits {s last : σ} {calls : List (Call σ)} (h : p.Made s calls last) :
    Visits s calls last := by
  induction h with
  | nil => exact .inl rfl
  | cons hChannel hCallback _ ih =>
    rcases ih with hSame | ⟨call, hCall, hAfter⟩
    · exact .inr ⟨_, List.mem_cons_self, hSame.symm⟩
    · exact .inr ⟨call, List.mem_cons_of_mem _ hCall, hAfter⟩

end Program

/-- The channel had its callback called for the report. -/
def Called {σ : Type} (calls : List (Call σ)) (item : Int × Event) (channel : Nat) : Prop :=
  ∃ call ∈ calls, call.fd = item.1 ∧ call.event = item.2 ∧ call.channel = channel

/-- How far a dispatch has come from a state, with other states seen before: it has seen
to the items of `served` and not come to those of `lost`. -/
structure Progress {σ : Type} (p : Program σ) (seen : Set σ) (s : σ)
    (o : Outcome σ (Call σ) Exception) (served lost : List (Int × Event)) : Prop where
  made : p.Made s o.events o.state
  calls : ∀ call ∈ o.events, (call.fd, call.event) ∈ served
  called : ∀ item ∈ served, ∀ channel, (∀ t ∈ seen, p.Attached t item channel) →
    p.Steady s o.events item channel → Called o.events item channel
  returned : o.error = none → lost = [] ∧ ∀ call ∈ o.events, ∀ e, ¬p.Throws call e
  /-- the last call has thrown, no other has, and its item is the last that was seen to -/
  threw : ∀ e, o.error = some e → ∃ calls call front, o.events = calls ++ [call] ∧ p.Throws call e ∧
    (∀ earlier ∈ calls, ∀ e, ¬p.Throws earlier e) ∧ served = front ++ [(call.fd, call.event)]

namespace Progress

variable {σ : Type} {p : Program σ} {seen : Set σ} {s : σ} {o : Outcome σ (Call σ) Exception}
  {served lost : List (Int × Event)}

/-- Nothing is called for items whose channel was not attached at some time. -/
theorem idle (h : ∀ item ∈ served, ∀ channel, ∃ t ∈ insert s seen, ¬ p.Attached t item channel) :
    Progress p seen s (.ok s []) served [] where
  made := .nil s
  calls := nofun
  called item hItem channel hSeen hSteady := by
    obtain ⟨t, rfl | hMem, hNot⟩ := h item hItem channel
    · exact absurd (hSteady t (.inl rfl)) hNot
    · exact absurd (hSeen t hMem) hNot
  returned _ := ⟨rfl, nofun⟩
  threw := nofun

/-- Two dispatches one after the other. If the first has thrown, the second is lost. -/
theorem andThen {f : σ → Outcome σ (Call σ) Exception} {items : List (Int × Event)}
    (h : Progress p seen s o served lost)
    (hNext : o.error = none → ∃ served' lost', items = served' ++ lost' ∧
      Progress p (insert s seen) o.state (f o.state) served' lost') :
    ∃ served' lost', served ++ lost ++ items = served' ++ lost' ∧
      Progress p seen s (o.andThen f) served' lost' := by
  cases hError : o.error with
  | some =>
    refine ⟨served, lost ++ items, List.append_assoc .., ?_⟩
    have hStop : o.andThen f = o := by
      simp only [Outcome.andThen, hError, Outcome.fail]
      rw [← hError]
    rw [hStop]
    exact ⟨h.made, h.calls, h.called, fun hNone => absurd (hError.symm.trans hNone) (by simp),
      h.threw⟩
  | none =>
    obtain ⟨served', lost', rfl, hLater⟩ := hNext hError
    obtain ⟨rfl, hQuiet⟩ := h.returned hError
    refine ⟨served ++ served', lost', by simp, ?_⟩
    rw [Outcome.andThen_of_none f hError]
    have hFirst : ∀ {t}, Program.Visits s o.events t →
        Program.Visits s (o.events ++ (f o.state).events) t := by
      intro t hVisit
      apply hVisit.imp_right
      rintro ⟨call, hCall, hAfter⟩
      exact ⟨call, List.mem_append_left _ hCall, hAfter⟩
    have hSecond : ∀ {t}, Program.Visits o.state (f o.state).events t →
        Program.Visits s (o.events ++ (f o.state).events) t := by
      rintro t (rfl | ⟨call, hCall, hAfter⟩)
      · exact hFirst h.made.visits
      · exact .inr ⟨call, List.mem_append_right _ hCall, hAfter⟩
    refine ⟨h.made.append hLater.made, fun call hCall => ?_, fun item hItem channel hSeen hSteady =>
      ?_, fun hNone => ⟨(hLater.returned hNone).1, fun call hCall => ?_⟩, fun e hSome => ?_⟩
    · rcases List.mem_append.mp hCall with hCall | hCall
      · exact List.mem_append_left _ (h.calls call hCall)
      · exact List.mem_append_right _ (hLater.calls call hCall)
    · rcases List.mem_append.mp hItem with hItem | hItem
      · obtain ⟨call, hCall, hIs⟩ := h.called item hItem channel hSeen fun t hVisit =>
          hSteady t (hFirst hVisit)
        exact ⟨call, List.mem_append_left _ hCall, hIs⟩
      · have hBefore : ∀ t ∈ insert s seen, p.Attached t item channel := by
          rintro t (rfl | hMem)
          · exact hSteady t (.inl rfl)
          · exact hSeen t hMem
        obtain ⟨call, hCall, hIs⟩ := hLater.called item hItem channel hBefore fun t hVisit =>
          hSteady t (hSecond hVisit)
        exact ⟨call, List.mem_append_right _ hCall, hIs⟩
    · exact (List.mem_append.mp hCall).elim (hQuiet call) ((hLater.returned hNone).2 call)
    · obtain ⟨calls, call, front, hEvents, hThrows, hEarlier, rfl⟩ := hLater.threw e hSome
      refine ⟨o.events ++ calls, call, served ++ front, ?_, hThrows, fun earlier hCall => ?_, ?_⟩
      · rw [hEvents, List.append_assoc]
      · exact (List.mem_append.mp hCall).elim (hQuiet earlier) (hEarlier earlier)
      · rw [List.append_assoc]

end Progress

namespace Program

variable {σ : Type} (p : Program σ) (seen : Set σ) (s : σ) (fd : Int) {channel : Nat}

/-- The item of one direction, if the report selects it. -/
def wanted (fd : Int) (flags : EpollEvents) (event : Event) : List (Int × Event) :=
  if EventLoop.selects flags event then [(fd, event)] else []

variable {item : Int × Event} {events : List (Int × EpollEvents)}

end Program

end Tinycoro.Io
