import Tinycoro.Library.Transition
import Tinycoro.Http.Stream

/-! One parser and one buffer in use: any order of `append`, `parse` and
`reset` calls. What the calls do is read off the readable bytes alone, so a
session is followed on the parser and these bytes. -/
namespace Tinycoro.Http

open Incremental Transition

/-- A call of the owner. For `append`, `short` says that there is no memory. -/
inductive Call where
  | append (data : Bytes) (short : Bool)
  | parse
  | reset
  deriving DecidableEq

/-- What the owner sees of the calls that answer. -/
inductive Reply where
  | returned (result : Result)
  | cleared
  deriving DecidableEq

structure Session where
  parser : HttpParser
  input : Buffer
  deriving DecidableEq

namespace Session

/-- An `append` that throws leaves the buffer as it was. -/
def next (s : Session) : Call → Option (Session × List Reply)
  | .append data short =>
    match s.input.appendOr short data with
    | .ok input => some ({ s with input }, [])
    | .error _ => some (s, [])
  | .parse =>
    match s.parser.parse s.input with
    | .ok (result, parser, input) => some (⟨parser, input⟩, [.returned result])
    | .error _ => none
  | .reset => some ({ s with parser := s.parser.reset }, [.cleared])

/-- A fresh parser and a fresh buffer. -/
def fresh (limits : Limits) (initial : Nat) (h : initial ≤ sizeMax) : Session :=
  ⟨.create limits, .create initial h⟩

/-- All calls from a session on. -/
def machine (start : Session) : Machine Session Call Reply := ⟨start, next⟩

/-- Everything a call can do, seen on the parser and the readable bytes. -/
inductive Step (s s' : Session) : Call → List Reply → Prop where
  | append {data : Bytes} {short : Bool} (added : Bytes) (hParser : s'.parser = s.parser)
      (hBytes : s'.input.bytes = s.input.bytes ++ added) : Step s s' (.append data short) []
  | parse (hParser : s'.parser = (HttpParser.consumer.run s.parser s.input.bytes).2.1)
      (hBytes : s'.input.bytes = (HttpParser.consumer.run s.parser s.input.bytes).2.2) :
      Step s s' .parse
        [.returned ((HttpParser.consumer.run s.parser s.input.bytes).1.getD .incomplete)]
  | reset (hParser : s'.parser = s.parser.reset) (hInput : s'.input = s.input) :
      Step s s' .reset [.cleared]

theorem step_of_next {s s' : Session} {call : Call} {replies : List Reply}
    (h : s.next call = some (s', replies)) : Step s s' call replies := by
  cases call with
  | append data short =>
    simp only [next] at h
    split at h
    · rename_i input hAppend
      cases h
      exact .append data rfl (Buffer.bytes_appendOr hAppend)
    · cases h
      exact .append [] rfl (List.append_nil _).symm
  | parse =>
    obtain ⟨input, hParse, hBytes, -⟩ := HttpParser.parse_eq_run s.parser s.input
    simp only [next, hParse] at h
    cases h
    exact .parse rfl hBytes
  | reset =>
    simp only [next] at h
    cases h
    exact .reset rfl rfl

/-- `parse` always returns, and it needs no room in the buffer. -/
theorem next_parse (s : Session) :
    ∃ s', s.next .parse = some (s', [.returned
        ((HttpParser.consumer.run s.parser s.input.bytes).1.getD .incomplete)]) ∧
      s'.parser = (HttpParser.consumer.run s.parser s.input.bytes).2.1 ∧
      s'.input.bytes = (HttpParser.consumer.run s.parser s.input.bytes).2.2 ∧
      s'.input.writeIdx ≤ s.input.writeIdx := by
  obtain ⟨input, hParse, hBytes, hWrite⟩ := HttpParser.parse_eq_run s.parser s.input
  exact ⟨⟨_, input⟩, by simp only [next, hParse], rfl, hBytes, hWrite⟩

end Session
end Tinycoro.Http
