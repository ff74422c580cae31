import Mathlib.Data.List.Basic
import Mathlib.Data.Sigma.Basic
import Mathlib.Logic.Equiv.Basic

/-! Programs that make other programs and call them. A program that was made is held by
a variable of its maker and does nothing until it is called. What a program means is
said twice: by evaluation, where a call is evaluated in place, and by a machine with a
stack of callers. What the machine does is what evaluation says. -/
namespace Calls

/-- A program acts and goes on with the reply to the effect, asks its surroundings and goes
on with their answer, launches another program beside itself, makes a program, discards
or calls one it has made, or finishes. The caller goes on with the result, or with nothing
if the variable was empty. -/
inductive Program {ε : Type} (φ : ε → Type) (κ α ρ : Type) where
  | act (effect : ε) (rest : φ effect → Program φ κ α ρ)
  | ask (request : κ) (rest : α → Program φ κ α ρ)
  | launch (other : Program φ κ α ρ) (rest : α → Program φ κ α ρ)
  | make (callee : Program φ κ α ρ) (rest : Program φ κ α ρ)
  | discard (x : Nat) (rest : Program φ κ α ρ)
  | call (x : Nat) (rest : Option ρ → Program φ κ α ρ)
  | finish (result : ρ)

/-- What the surroundings of a program notice. -/
inductive Act {ε : Type} (φ : ε → Type) (κ α : Type) where
  | did (effect : ε) (reply : φ effect)
  | asked (request : κ) (answer : α)
  | launched (answer : α)

/-- What a variable holds. -/
def held {β : Type*} (vars : List (Option β)) (x : Nat) : Option β := vars[x]?.join

variable {ε : Type} {φ : ε → Type} {κ α ρ : Type}

/-- An act as a value of a sum. -/
def Act.sum : Act φ κ α → Sigma φ ⊕ κ × α ⊕ α
  | .did effect reply => .inl ⟨effect, reply⟩
  | .asked request answer => .inr (.inl (request, answer))
  | .launched answer => .inr (.inr answer)

theorem Act.sum_injective : Function.Injective (Act.sum : Act φ κ α → _) := by
  intro act act' h
  cases act <;> cases act' <;> simp_all [Act.sum]

instance [DecidableEq ε] [∀ e, DecidableEq (φ e)] [DecidableEq κ] [DecidableEq α] :
  DecidableEq (Act φ κ α) :=
  Act.sum_injective.decidableEq

/-- Evaluation of a program with its variables: the acts in order, and the result, or
none if the program is cut off there. -/
inductive Runs : List (Option (Program φ κ α ρ)) → Program φ κ α ρ → List (Act φ κ α) → Option ρ →
  Prop where
  | cut : Runs vars p [] none
  | act {rest : φ effect → Program φ κ α ρ} (later : Runs vars (rest reply) acts o) :
      Runs vars (.act effect rest) (.did effect reply :: acts) o
  | ask (later : Runs vars (rest answer) acts o) :
      Runs vars (.ask request rest) (.asked request answer :: acts) o
  | launch (later : Runs vars (rest answer) acts o) :
      Runs vars (.launch other rest) (.launched answer :: acts) o
  | make (later : Runs (vars ++ [some callee]) rest acts o) : Runs vars (.make callee rest) acts o
  | discard (later : Runs (vars.set x none) rest acts o) : Runs vars (.discard x rest) acts o
  | callEmpty (hEmpty : held vars x = none) (later : Runs vars (rest none) acts o) :
      Runs vars (.call x rest) acts o
  | callCut (hHeld : held vars x = some callee) (inner : Runs [] callee acts none) :
      Runs vars (.call x rest) acts none
  | call {later : List (Act φ κ α)} (hHeld : held vars x = some callee)
      (inner : Runs [] callee acts (some result))
      (outer : Runs (vars.set x none) (rest (some result)) later o) :
      Runs vars (.call x rest) (acts ++ later) o
  | finish : Runs vars (.finish result) [] (some result)

/-- What the surroundings have answered. -/
def Act.answer : Act φ κ α → Sigma φ ⊕ α
  | .did effect reply => .inl ⟨effect, reply⟩
  | .asked _ answer | .launched answer => .inr answer

def answers (acts : List (Act φ κ α)) : List (Sigma φ ⊕ α) := acts.map Act.answer

@[simp] theorem answers_append (acts acts' : List (Act φ κ α)) :
    answers (acts ++ acts') = answers acts ++ answers acts' :=
  List.map_append

@[simp] theorem answers_did (effect : ε) (reply : φ effect) (acts : List (Act φ κ α)) :
    answers (.did effect reply :: acts) = .inl ⟨effect, reply⟩ :: answers acts := rfl

@[simp] theorem answers_asked (request : κ) (answer : α) (acts : List (Act φ κ α)) :
    answers (.asked request answer :: acts) = .inr answer :: answers acts := rfl

@[simp] theorem answers_launched (answer : α) (acts : List (Act φ κ α)) :
    answers (.launched answer :: acts) = .inr answer :: answers acts := rfl

/-- A program that has finished needs no more answers, and nothing but the answers
decides what it does: of two lists of answers that it finishes with, neither goes beyond
the other. -/
theorem Runs.unique {vars : List (Option (Program φ κ α ρ))} {p : Program φ κ α ρ}
    {acts acts' : List (Act φ κ α)} {final : Option ρ} {result result' : ρ}
    {more more' : List (Sigma φ ⊕ α)} (h : Runs vars p acts final) (hFinal : final = some result)
    (h' : Runs vars p acts' (some result'))
    (hAnswers : answers acts ++ more = answers acts' ++ more') :
    acts = acts' ∧ result = result' := by
  induction h generalizing acts' result result' more more' with
  | cut => cases hFinal
  | callCut => cases hFinal
  | finish =>
    cases hFinal
    cases h'
    exact ⟨rfl, rfl⟩
  | act later ih =>
    cases h' with
    | act later' =>
      simp only [answers_did, List.cons_append, List.cons.injEq, Sum.inl.injEq, Sigma.mk.injEq,
        true_and, heq_eq_eq] at hAnswers
      obtain ⟨rfl, hRest⟩ := hAnswers
      obtain ⟨rfl, hResult⟩ := ih hFinal later' hRest
      exact ⟨rfl, hResult⟩
  | ask later ih =>
    cases h' with
    | ask later' =>
      simp only [answers_asked, List.cons_append, List.cons.injEq, Sum.inr.injEq] at hAnswers
      obtain ⟨rfl, hRest⟩ := hAnswers
      obtain ⟨rfl, hResult⟩ := ih hFinal later' hRest
      exact ⟨rfl, hResult⟩
  | launch later ih =>
    cases h' with
    | launch later' =>
      simp only [answers_launched, List.cons_append, List.cons.injEq, Sum.inr.injEq] at hAnswers
      obtain ⟨rfl, hRest⟩ := hAnswers
      obtain ⟨rfl, hResult⟩ := ih hFinal later' hRest
      exact ⟨rfl, hResult⟩
  | make later ih =>
    cases h' with
    | make later' => exact ih hFinal later' hAnswers
  | discard later ih =>
    cases h' with
    | discard later' => exact ih hFinal later' hAnswers
  | callEmpty hEmpty later ih =>
    cases h' with
    | callEmpty _ later' => exact ih hFinal later' hAnswers
    | call hHeld =>
      rw [hEmpty] at hHeld
      cases hHeld
  | call hHeld inner outer ihInner ihOuter =>
    cases h' with
    | callEmpty hEmpty =>
      rw [hHeld] at hEmpty
      cases hEmpty
    | call hHeld' inner' outer' =>
      cases hHeld.symm.trans hHeld'
      simp only [answers_append, List.append_assoc] at hAnswers
      obtain ⟨rfl, rfl⟩ := ihInner rfl inner' hAnswers
      obtain ⟨rfl, hResult⟩ := ihOuter hFinal outer' (List.append_cancel_left hAnswers)
      exact ⟨rfl, hResult⟩

/-- A program that waits for the result of a call. -/
structure Caller {ε : Type} (φ : ε → Type) (κ α ρ : Type) where
  vars : List (Option (Program φ κ α ρ))
  rest : Option ρ → Program φ κ α ρ

/-- The program in execution, and its callers from the innermost to the first. -/
structure Config {ε : Type} (φ : ε → Type) (κ α ρ : Type) where
  vars : List (Option (Program φ κ α ρ))
  program : Program φ κ α ρ
  stack : List (Caller φ κ α ρ)

namespace Config

/-- One step of execution, with the act it may be. -/
inductive Step : Config φ κ α ρ → List (Act φ κ α) → Config φ κ α ρ → Prop where
  | act (effect : ε) (rest : φ effect → Program φ κ α ρ) (reply : φ effect) :
      Step ⟨env, .act effect rest, callers⟩ [.did effect reply] ⟨env, rest reply, callers⟩
  | ask (request : κ) (rest : α → Program φ κ α ρ) (answer : α) :
      Step ⟨env, .ask request rest, callers⟩ [.asked request answer] ⟨env, rest answer, callers⟩
  | launch (other : Program φ κ α ρ) (rest : α → Program φ κ α ρ) (answer : α) :
      Step ⟨env, .launch other rest, callers⟩ [.launched answer] ⟨env, rest answer, callers⟩
  | make (callee rest : Program φ κ α ρ) :
      Step ⟨env, .make callee rest, callers⟩ [] ⟨env ++ [some callee], rest, callers⟩
  | discard (x : Nat) (rest : Program φ κ α ρ) :
      Step ⟨env, .discard x rest, callers⟩ [] ⟨env.set x none, rest, callers⟩
  | callEmpty (rest : Option ρ → Program φ κ α ρ) (hEmpty : held env x = none) :
      Step ⟨env, .call x rest, callers⟩ [] ⟨env, rest none, callers⟩
  | call (rest : Option ρ → Program φ κ α ρ) (hHeld : held env x = some callee) :
      Step ⟨env, .call x rest, callers⟩ [] ⟨[], callee, ⟨env.set x none, rest⟩ :: callers⟩
  /-- a program that finishes lets go of its variables -/
  | release (result : ρ) : Step ⟨env, .finish result, callers⟩ [] ⟨env', .finish result, callers⟩
  | back (result : ρ) (caller : Caller φ κ α ρ) :
      Step ⟨env, .finish result, caller :: callers⟩ [] ⟨caller.vars, caller.rest (some result),
      callers⟩

/-- What callers can do, and what comes out in the end, once a call is evaluated. -/
def Resumes : List (Caller φ κ α ρ) → Option ρ → List (Act φ κ α) → Option ρ → Prop
  | [], o, acts, final => acts = [] ∧ final = o
  | _ :: _, none, acts, final => acts = [] ∧ final = none
  | caller :: stack, some result, acts, final => ∃ first later o, acts = first ++ later ∧
      Runs caller.vars (caller.rest (some result)) first o ∧ Resumes stack o later final

/-- What a configuration can do. -/
def Behaves (c : Config φ κ α ρ) (acts : List (Act φ κ α)) (final : Option ρ) : Prop :=
  ∃ first later o, acts = first ++ later ∧ Runs c.vars c.program first o ∧
  Resumes c.stack o later final

theorem resumes_none (stack : List (Caller φ κ α ρ)) : Resumes stack none [] none := by
  cases stack with
  | nil | cons => exact ⟨rfl, rfl⟩

theorem behaves_cut (c : Config φ κ α ρ) : c.Behaves [] none :=
  ⟨[], [], none, rfl, .cut, resumes_none c.stack⟩

/-- A program is evaluated by a configuration without callers. -/
theorem runs_of_behaves {vars : List (Option (Program φ κ α ρ))} {p : Program φ κ α ρ}
    {acts : List (Act φ κ α)} {final : Option ρ} (h : Behaves ⟨vars, p, []⟩ acts final) :
    Runs vars p acts final := by
  obtain ⟨first, later, o, rfl, hRuns, rfl, rfl⟩ := h
  rw [List.append_nil]
  exact hRuns

/-- A step with its act, put before the evaluation of what comes after it. -/
theorem behaves_of_plain {vars vars' : List (Option (Program φ κ α ρ))} {p p' : Program φ κ α ρ}
    {stack : List (Caller φ κ α ρ)} {acts now : List (Act φ κ α)} {final : Option ρ}
    (hRuns : ∀ {first o}, Runs vars' p' first o → Runs vars p (now ++ first) o)
    (h : Behaves ⟨vars', p', stack⟩ acts final) : Behaves ⟨vars, p, stack⟩ (now ++ acts) final := by
  obtain ⟨first, later, o, rfl, hFirst, hLater⟩ := h
  exact ⟨now ++ first, later, o, (List.append_assoc ..).symm, hRuns hFirst, hLater⟩

/-- What can be done after a step can be done before it, with the act of the step first. -/
theorem Step.behaves {c c' : Config φ κ α ρ} {now acts : List (Act φ κ α)} {final : Option ρ}
    (h : Step c now c') (hLater : c'.Behaves acts final) : c.Behaves (now ++ acts) final := by
  cases h with
  | act => exact behaves_of_plain (fun hRuns => .act hRuns) hLater
  | ask => exact behaves_of_plain (fun hRuns => .ask hRuns) hLater
  | launch => exact behaves_of_plain (fun hRuns => .launch hRuns) hLater
  | make => exact behaves_of_plain (fun hRuns => .make hRuns) hLater
  | discard => exact behaves_of_plain (fun hRuns => .discard hRuns) hLater
  | callEmpty rest hEmpty => exact behaves_of_plain (fun hRuns => .callEmpty hEmpty hRuns) hLater
  | release =>
    refine behaves_of_plain (fun hRuns => ?_) hLater
    cases hRuns with
    | cut => exact .cut
    | finish => exact .finish
  | back result =>
    obtain ⟨first, later, o, rfl, hRuns, hResumes⟩ := hLater
    exact ⟨[], first ++ later, some result, rfl, .finish, first, later, o, rfl, hRuns, hResumes⟩
  | call rest hHeld =>
    obtain ⟨first, later, o, rfl, hInner, hResumes⟩ := hLater
    cases o with
    | none =>
      obtain ⟨rfl, rfl⟩ := hResumes
      exact ⟨first, [], none, rfl, .callCut hHeld hInner, resumes_none _⟩
    | some =>
      obtain ⟨second, third, o, rfl, hOuter, hResumes⟩ := hResumes
      exact ⟨first ++ second, third, o, by simp, .call hHeld hInner hOuter, hResumes⟩

end Config

/-- What execution has come to, and the acts on the way. -/
inductive Reached (p : Program φ κ α ρ) : List (Act φ κ α) → Config φ κ α ρ → Prop where
  | start : Reached p [] ⟨[], p, []⟩
  | step {past now : List (Act φ κ α)} {c c' : Config φ κ α ρ} (prior : Reached p past c)
      (last : c.Step now c') :
      Reached p (past ++ now) c'

namespace Reached

variable {p : Program φ κ α ρ} {past : List (Act φ κ α)} {c : Config φ κ α ρ}

theorem runs (h : Reached p past c) {acts : List (Act φ κ α)} {final : Option ρ}
    (hBehaves : c.Behaves acts final) : Runs [] p (past ++ acts) final := by
  induction h generalizing acts with
  | start => exact Config.runs_of_behaves hBehaves
  | step prior last ih =>
    rw [List.append_assoc]
    exact ih (last.behaves hBehaves)

/-- Whatever execution has come to, the acts so far are those of evaluation. -/
theorem runs_cut (h : Reached p past c) : Runs [] p past none := by
  have hRuns := h.runs c.behaves_cut
  rwa [List.append_nil] at hRuns

/-- Execution ends with the result of evaluation. -/
theorem runs_finish {vars : List (Option (Program φ κ α ρ))} {result : ρ}
    (h : Reached p past ⟨vars, .finish result, []⟩) : Runs [] p past (some result) := by
  have hEnd : Config.Behaves ⟨vars, .finish result, []⟩ [] (some result) :=
    ⟨[], [], some result, rfl, .finish, rfl, rfl⟩
  have hRuns := h.runs hEnd
  rwa [List.append_nil] at hRuns

end Reached

end Calls
