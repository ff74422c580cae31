import Mathlib.Data.List.Induction

/-! Labelled machines that emit events. A label holds every choice the machine
does not make itself: which thread moves, what a call is given, whether an
operation fails. A run is then a list of labels, and the states and traces it
can reach are what invariants speak about. -/
namespace Transition

/-- A start state and one transition for each label that is enabled. -/
structure Machine (σ ℓ ε : Type*) where
  start : σ
  next : σ → ℓ → Option (σ × List ε)

namespace Machine

variable {σ ℓ ε : Type*} (M : Machine σ ℓ ε)

/-- A state together with the events emitted on the way to it. -/
inductive Reaches : σ → List ε → Prop where
  | start : Reaches M.start []
  | step {s s' : σ} {trace events : List ε} {a : ℓ} (prior : Reaches s trace)
      (last : M.next s a = some (s', events)) : Reaches s' (trace ++ events)

/-- Follow a list of labels from a state. -/
def run (s : σ) : List ℓ → Option (σ × List ε)
  | [] => some (s, [])
  | a :: labels => do
    let (s', events) ← M.next s a
    let (last, later) ← run s' labels
    return (last, events ++ later)

variable {M}

theorem run_cons {s middle last : σ} {a : ℓ} {labels : List ℓ} {first later : List ε}
    (hNext : M.next s a = some (middle, first)) (hRun : M.run middle labels = some (last, later)) :
    M.run s (a :: labels) = some (last, first ++ later) := by
  simp [Machine.run, hNext, hRun]

theorem exists_of_run_cons {s last : σ} {a : ℓ} {labels : List ℓ} {events : List ε}
    (h : M.run s (a :: labels) = some (last, events)) :
    ∃ middle first later, M.next s a = some (middle, first) ∧
      M.run middle labels = some (last, later) ∧ events = first ++ later := by
  simp only [Machine.run, Option.bind_eq_bind, Option.bind_eq_some_iff] at h
  obtain ⟨⟨middle, first⟩, hNext, ⟨last, later⟩, hRun, hEq⟩ := h
  cases hEq
  exact ⟨middle, first, later, hNext, hRun, rfl⟩

variable {trace : List ε}

theorem Reaches.run {s s' : σ} {events : List ε} (prior : M.Reaches s trace) {labels : List ℓ}
    (h : M.run s labels = some (s', events)) : M.Reaches s' (trace ++ events) := by
  induction labels generalizing s trace events with
  | nil =>
    cases h
    rw [List.append_nil]
    exact prior
  | cons a labels ih =>
    obtain ⟨middle, first, later, hNext, hRun, rfl⟩ := exists_of_run_cons h
    rw [← List.append_assoc]
    exact ih (prior.step hNext) hRun

/-- What holds at the start and is kept by every transition from a reachable
state holds of every reachable state and its trace. -/
theorem Reaches.invariant {P : σ → List ε → Prop} (hStart : P M.start [])
    (hStep : ∀ {s s' trace events a}, M.Reaches s trace → P s trace →
      M.next s a = some (s', events) → P s' (trace ++ events)) {s : σ} (h : M.Reaches s trace) :
    P s trace := by
  induction h with
  | start => exact hStart
  | step prior last ih => exact hStep prior ih last

/-- Lift a run to another machine with the same labels. As long as the trace is
small, both machines take the same steps up to a renaming of states and events. -/
theorem Reaches.lift {ρ δ : Type*} {N : Machine ρ ℓ δ} (f : ρ → σ) (g : δ → ε)
    (small : List ε → Prop) (hSmall : ∀ {trace events}, small (trace ++ events) → small trace)
    (hStart : M.start = f N.start)
    (hNext : ∀ {r history}, N.Reaches r history → small (history.map g) → ∀ a,
      M.next (f r) a = (N.next r a).map (fun result => (f result.1, result.2.map g))) {s : σ}
    (h : M.Reaches s trace) (hTrace : small trace) :
    ∃ r history, N.Reaches r history ∧ s = f r ∧ trace = history.map g := by
  induction h with
  | start => exact ⟨N.start, [], .start, hStart, rfl⟩
  | step prior last ih =>
    obtain ⟨r, history, hReaches, rfl, rfl⟩ := ih (hSmall hTrace)
    rw [hNext hReaches (hSmall hTrace)] at last
    obtain ⟨⟨r', events⟩, hLast, hEq⟩ := Option.map_eq_some_iff.mp last
    cases hEq
    exact ⟨r', history ++ events, hReaches.step hLast, rfl, List.map_append.symm⟩

section Stretch

/-- A stretch of a run, with a property that holds in each of its states. -/
inductive Within (M : Machine σ ℓ ε) (P : σ → Prop) : σ → σ → List ε → Prop where
  | refl {s : σ} (h : P s) : Within M P s s []
  | step {s middle s' : σ} {events more : List ε} {a : ℓ} (prior : Within M P s middle events)
      (last : M.next middle a = some (s', more)) (h : P s') : Within M P s s' (events ++ more)

variable {P : σ → Prop}

variable {s : σ}

theorem Within.holds {s' : σ} {events : List ε} (h : M.Within P s s' events) : P s' := by
  cases h with
  | refl h => exact h
  | step prior last h => exact h

/-- What every step from a state of the stretch keeps. -/
theorem Within.invariant {Q : σ → List ε → Prop} {s' : σ} {events : List ε}
    (h : M.Within P s s' events) (hStart : Q s [])
    (hStep : ∀ {m m' past more a}, P m → Q m past → M.next m a = some (m', more) →
      Q m' (past ++ more)) : Q s' events := by
  induction h with
  | refl => exact hStart
  | step prior last _ ih => exact hStep prior.holds ih last

theorem Within.cons {middle s' : σ} {first events : List ε} {a : ℓ} (hHolds : P s)
    (hFirst : M.next s a = some (middle, first)) (h : M.Within P middle s' events) :
    M.Within P s s' (first ++ events) := by
  induction h with
  | refl hMiddle =>
    rw [List.append_nil, ← List.nil_append first]
    exact .step (.refl hHolds) hFirst hMiddle
  | step prior last hLast ih =>
    rw [← List.append_assoc]
    exact ih.step last hLast

/-- Follow a list of labels as long as a test succeeds. -/
def runWhile (M : Machine σ ℓ ε) (test : σ → Bool) (s : σ) : List ℓ → Option (σ × List ε)
  | [] => if test s then some (s, []) else none
  | a :: labels =>
    if test s then do
      let (s', events) ← M.next s a
      let (last, later) ← runWhile M test s' labels
      return (last, events ++ later)
    else none

theorem within_of_runWhile {test : σ → Bool} {s' : σ} {labels : List ℓ} {events : List ε}
    (h : M.runWhile test s labels = some (s', events)) : M.Within (test · = true) s s' events := by
  induction labels generalizing s events with
  | nil =>
    simp only [runWhile] at h
    split_ifs at h with hTest
    cases h
    exact .refl hTest
  | cons a labels ih =>
    simp only [runWhile] at h
    split_ifs at h with hTest
    simp only [Option.bind_eq_bind, Option.bind_eq_some_iff] at h
    obtain ⟨⟨middle, first⟩, hNext, ⟨last, later⟩, hRest, hEq⟩ := h
    cases hEq
    exact .cons hTest hNext (ih hRest)

end Stretch

section Annotated

variable {γ : Type*}

/-- The machine with notes about its run, which it does not read. -/
def annotate (M : Machine σ ℓ ε) (blank : γ) (note : γ → σ → ℓ → List ε → γ) :
    Machine (σ × γ) ℓ ε where
  start := (M.start, blank)
  next s a := (M.next s.1 a).map (fun r => ((r.1, note s.2 s.1 a r.2), r.2))

variable {blank : γ} {note : γ → σ → ℓ → List ε → γ}

theorem annotate_next {s s' : σ} {g g' : γ} {a : ℓ} {events : List ε} :
    (M.annotate blank note).next (s, g) a = some ((s', g'), events) ↔
      M.next s a = some (s', events) ∧ g' = note g s a events := by
  simp only [annotate, Option.map_eq_some_iff, Prod.mk.injEq]
  constructor
  · rintro ⟨⟨middle, emitted⟩, hNext, ⟨rfl, rfl⟩, rfl⟩
    exact ⟨hNext, rfl⟩
  · rintro ⟨hNext, rfl⟩
    exact ⟨_, hNext, ⟨rfl, rfl⟩, rfl⟩

/-- Notes can be taken of every run. -/
theorem Reaches.annotate {s : σ} {trace : List ε} (h : M.Reaches s trace) (blank : γ)
    (note : γ → σ → ℓ → List ε → γ) : ∃ g, (M.annotate blank note).Reaches (s, g) trace := by
  induction h with
  | start => exact ⟨blank, .start⟩
  | step prior last ih =>
    obtain ⟨g, hReaches⟩ := ih
    exact ⟨_, hReaches.step (annotate_next.mpr ⟨last, rfl⟩)⟩

theorem Reaches.forget {s : σ × γ} {trace : List ε} (h : (M.annotate blank note).Reaches s trace) :
    M.Reaches s.1 trace := by
  induction h with
  | start => exact .start
  | step prior last ih => exact ih.step (annotate_next.mp last).1

end Annotated

section Observed

variable {μ : Type*}

/-- The machine seen through marks on its steps instead of its own events. -/
def observe (M : Machine σ ℓ ε) (marks : σ → ℓ → σ → List ε → List μ) : Machine σ ℓ μ where
  start := M.start
  next s a := (M.next s a).map (fun r => (r.1, marks s a r.1 r.2))

variable {marks : σ → ℓ → σ → List ε → List μ}

theorem observe_next {s s' : σ} {a : ℓ} {log : List μ} :
    (M.observe marks).next s a = some (s', log) ↔
      ∃ events, M.next s a = some (s', events) ∧ log = marks s a s' events := by
  simp only [observe, Option.map_eq_some_iff, Prod.mk.injEq]
  constructor
  · rintro ⟨⟨last, events⟩, hNext, rfl, rfl⟩
    exact ⟨events, hNext, rfl⟩
  · rintro ⟨events, hNext, rfl⟩
    exact ⟨(s', events), hNext, rfl, rfl⟩

theorem Reaches.unobserved {s : σ} {log : List μ} (h : (M.observe marks).Reaches s log) :
    ∃ trace, M.Reaches s trace := by
  induction h with
  | start => exact ⟨[], .start⟩
  | step prior last ih =>
    obtain ⟨trace, hReaches⟩ := ih
    obtain ⟨events, hNext, -⟩ := observe_next.mp last
    exact ⟨trace ++ events, hReaches.step hNext⟩

end Observed

end Machine
end Transition
