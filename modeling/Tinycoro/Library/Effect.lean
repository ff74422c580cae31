import Mathlib.Data.Set.Basic
import Mathlib.Tactic.ByContra

/-! Computations that change a state, emit events and may stop with an exception.
What was done before the exception stays done, so the state is there in either
case. -/
namespace Effect

structure Outcome (σ ε χ : Type*) where
  state : σ
  events : List ε
  error : Option χ

namespace Outcome

variable {σ ε χ : Type*}

def ok (s : σ) (events : List ε) : Outcome σ ε χ := ⟨s, events, none⟩

def fail (e : χ) (s : σ) (events : List ε) : Outcome σ ε χ := ⟨s, events, some e⟩

/-- Go on unless an exception is in flight. -/
def andThen (o : Outcome σ ε χ) (f : σ → Outcome σ ε χ) : Outcome σ ε χ :=
  match o.error with
  | none => ⟨(f o.state).state, o.events ++ (f o.state).events, (f o.state).error⟩
  | some e => fail e o.state o.events

/-- Run a handler, whose own exceptions are dropped, and throw the exception
again. -/
def rethrow (o : Outcome σ ε χ) (handler : σ → Outcome σ ε χ) : Outcome σ ε χ :=
  match o.error with
  | none => o
  | some e => fail e (handler o.state).state (o.events ++ (handler o.state).events)

@[simp] theorem ok_state (s : σ) (events : List ε) : (ok s events : Outcome σ ε χ).state = s := rfl

@[simp] theorem ok_events (s : σ) (events : List ε) :
    (ok s events : Outcome σ ε χ).events = events := rfl

@[simp] theorem ok_error (s : σ) (events : List ε) : (ok s events : Outcome σ ε χ).error = none :=
  rfl

@[simp] theorem fail_state (e : χ) (s : σ) (events : List ε) : (fail e s events).state = s := rfl

@[simp] theorem fail_events (e : χ) (s : σ) (events : List ε) : (fail e s events).events = events :=
  rfl

@[simp] theorem fail_error (e : χ) (s : σ) (events : List ε) : (fail e s events).error = some e :=
  rfl

@[simp] theorem ok_andThen (s : σ) (events : List ε) (f : σ → Outcome σ ε χ) :
    (ok s events).andThen f = ⟨(f s).state, events ++ (f s).events, (f s).error⟩ := rfl

@[simp] theorem fail_andThen (e : χ) (s : σ) (events : List ε) (f : σ → Outcome σ ε χ) :
    (fail e s events).andThen f = fail e s events := rfl

@[simp] theorem ok_rethrow (s : σ) (events : List ε) (handler : σ → Outcome σ ε χ) :
    (ok s events).rethrow handler = ok s events := rfl

@[simp] theorem fail_rethrow (e : χ) (s : σ) (events : List ε) (handler : σ → Outcome σ ε χ) :
    (fail e s events).rethrow handler = fail e (handler s).state (events ++ (handler s).events) :=
  rfl

variable {o : Outcome σ ε χ} {f : σ → Outcome σ ε χ}

theorem andThen_of_none (f : σ → Outcome σ ε χ) (h : o.error = none) :
    o.andThen f = ⟨(f o.state).state, o.events ++ (f o.state).events, (f o.state).error⟩ := by
  simp only [andThen, h]

theorem rethrow_of_none (handler : σ → Outcome σ ε χ) (h : o.error = none) :
    o.rethrow handler = o := by simp only [rethrow, h]

theorem rethrow_of_some {e : χ} (handler : σ → Outcome σ ε χ) (h : o.error = some e) :
    o.rethrow handler = fail e (handler o.state).state (o.events ++ (handler o.state).events) := by
  simp only [rethrow, h]

theorem mem_andThen {e : ε} (h : e ∈ (o.andThen f).events) :
    e ∈ o.events ∨ e ∈ (f o.state).events := by
  unfold andThen at h
  cases hError : o.error with
  | none =>
    simp only [hError] at h
    exact List.mem_append.mp h
  | some =>
    simp only [hError] at h
    exact .inl h

theorem mem_andThen_left (f : σ → Outcome σ ε χ) {e : ε} (h : e ∈ o.events) :
    e ∈ (o.andThen f).events := by
  unfold andThen
  cases o.error with
  | none => exact List.mem_append_left _ h
  | some => exact h

theorem mem_rethrow {handler : σ → Outcome σ ε χ} {e : ε} (h : e ∈ (o.rethrow handler).events) :
    e ∈ o.events ∨ e ∈ (handler o.state).events := by
  unfold rethrow at h
  cases hError : o.error with
  | none =>
    simp only [hError] at h
    exact .inl h
  | some =>
    simp only [hError] at h
    exact List.mem_append.mp h

theorem error_andThen {e : χ} (h : (o.andThen f).error = some e) :
    o.error = some e ∨ (f o.state).error = some e := by
  unfold andThen at h
  cases hError : o.error with
  | none =>
    simp only [hError] at h
    exact .inr h
  | some =>
    simp only [hError] at h
    exact .inl h

/-- A sequence that has returned went through both parts. -/
theorem andThen_returned (h : (o.andThen f).error = none) :
    o.error = none ∧ (f o.state).error = none ∧ (o.andThen f).state = (f o.state).state := by
  cases hError : o.error with
  | none =>
    rw [andThen_of_none f hError] at h ⊢
    exact ⟨rfl, h, rfl⟩
  | some =>
    simp only [andThen, hError] at h
    cases h

/-- What both parts keep, the sequence keeps, with or without an exception. -/
theorem andThen_keeps {P : σ → List ε → Prop} {o : Outcome σ ε χ} {f : σ → Outcome σ ε χ}
    {trace : List ε} (hFirst : P o.state (trace ++ o.events))
    (hNext : ∀ {history}, P o.state history → P (f o.state).state (history ++ (f o.state).events)) :
    P (o.andThen f).state (trace ++ (o.andThen f).events) := by
  unfold andThen
  cases o.error with
  | none =>
    rw [← List.append_assoc]
    exact hNext hFirst
  | some => exact hFirst

theorem rethrow_keeps {P : σ → List ε → Prop} {o : Outcome σ ε χ} {handler : σ → Outcome σ ε χ}
    {trace : List ε} (hFirst : P o.state (trace ++ o.events))
    (hNext : ∀ {history}, P o.state history →
      P (handler o.state).state (history ++ (handler o.state).events)) :
    P (o.rethrow handler).state (trace ++ (o.rethrow handler).events) := by
  unfold rethrow
  cases o.error with
  | none => exact hFirst
  | some =>
    rw [fail_state, fail_events, ← List.append_assoc]
    exact hNext hFirst

theorem andThen_state {P : σ → Prop} (hFirst : P o.state)
    (hNext : P o.state → P (f o.state).state) : P (o.andThen f).state :=
  @andThen_keeps _ _ _ (fun s _ => P s) o f [] hFirst hNext

theorem rethrow_state {P : σ → Prop} {handler : σ → Outcome σ ε χ} (hFirst : P o.state)
    (hNext : P o.state → P (handler o.state).state) : P (o.rethrow handler).state :=
  @rethrow_keeps _ _ _ (fun s _ => P s) o handler [] hFirst hNext

/-- If no excluded event was emitted, the computation has ended in `Q`, or has
thrown in a state of `R`. -/
def Ends (excluded : Set ε) (o : Outcome σ ε χ) (Q R : σ → Prop) : Prop :=
  (∀ e ∈ o.events, e ∉ excluded) → (o.error = none → Q o.state) ∧ (o.error ≠ none → R o.state)

section Rules

variable {excluded : Set ε} {o : Outcome σ ε χ} {f : σ → Outcome σ ε χ} {Q Q' R R' : σ → Prop}

theorem ends_ok {s : σ} {events : List ε} (h : Q s) :
    Ends excluded (ok s events : Outcome σ ε χ) Q R :=
  fun _ => ⟨fun _ => h, fun hError => absurd rfl hError⟩

theorem ends_fail {e : χ} {s : σ} {events : List ε} (h : (∀ e ∈ events, e ∉ excluded) → R s) :
    Ends excluded (fail e s events) Q R :=
  fun hEvents => ⟨(fun hNone => nomatch hNone), fun _ => h hEvents⟩

theorem Ends.weaken (h : Ends excluded o Q R) (hQ : ∀ {s}, Q s → Q' s) (hR : ∀ {s}, R s → R' s) :
    Ends excluded o Q' R' :=
  fun hEvents => ⟨fun hNone => hQ ((h hEvents).1 hNone), fun hSome => hR ((h hEvents).2 hSome)⟩

theorem Ends.andThen (h : Ends excluded o Q R) (hNext : ∀ {s}, Q s → Ends excluded (f s) Q' R) :
    Ends excluded (o.andThen f) Q' R := by
  intro hEvents
  unfold Outcome.andThen at *
  cases hError : o.error with
  | none =>
    simp only [hError, List.mem_append] at hEvents
    have hEnd := (h (fun e he => hEvents e (.inl he))).1 hError
    exact hNext hEnd (fun e he => hEvents e (.inr he))
  | some =>
    simp only [hError] at hEvents
    exact ⟨(fun hNone => nomatch hNone), fun _ => (h hEvents).2 (by simp [hError])⟩

theorem Ends.rethrow (h : Ends excluded o Q R) (hHandler : ∀ {s}, R s → Ends excluded (f s) R' R') :
    Ends excluded (o.rethrow f) Q R' := by
  intro hEvents
  unfold Outcome.rethrow at *
  cases hError : o.error with
  | none =>
    simp only [hError] at hEvents
    exact ⟨(h hEvents).1, fun hSome => absurd hError hSome⟩
  | some e =>
    simp only [hError, fail_events, List.mem_append] at hEvents
    have hEnd := (h (fun e he => hEvents e (.inl he))).2 (by simp [hError])
    have hLast := hHandler hEnd (fun e he => hEvents e (.inr he))
    refine ⟨(fun hNone => nomatch hNone), fun _ => ?_⟩
    by_cases hAgain : (f o.state).error = none
    · exact hLast.1 hAgain
    · exact hLast.2 hAgain

theorem Ends.and {P : σ → Prop} (h : Ends excluded o Q R) (hState : P o.state) :
    Ends excluded o (fun s => Q s ∧ P s) (fun s => R s ∧ P s) :=
  fun hEvents => ⟨fun hNone => ⟨(h hEvents).1 hNone, hState⟩, fun hSome =>
    ⟨(h hEvents).2 hSome, hState⟩⟩

/-- Where both ends meet, what they share holds of the state. -/
theorem Ends.state (h : Ends excluded o Q Q) (hEvents : ∀ e ∈ o.events, e ∉ excluded) :
    Q o.state := by
  by_cases hError : o.error = none
  · exact (h hEvents).1 hError
  · exact (h hEvents).2 hError

/-- A computation that throws only where it emits an excluded event. -/
theorem Ends.returned (h : Ends excluded o Q (fun _ => False))
    (hEvents : ∀ e ∈ o.events, e ∉ excluded) : o.error = none ∧ Q o.state := by
  have hNone : o.error = none := by
    by_contra hSome
    exact (h hEvents).2 hSome
  exact ⟨hNone, (h hEvents).1 hNone⟩

end Rules

end Outcome
end Effect
