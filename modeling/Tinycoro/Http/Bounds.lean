import Tinycoro.Http.Rejection
import Mathlib.Algebra.BigOperators.Group.Finset.Basic
import Mathlib.Algebra.Order.BigOperators.Group.Finset

/-! The limits bound what the parser keeps. Every consumed line is within its
limit, so the request line, the counted header bytes, the stored headers and the
body stay within theirs, over any number of requests on one buffer. -/
namespace Tinycoro.Http

open Incremental Transition

/-- The bytes of all stored keys and values. -/
def storedBytes (headers : Finmap (fun _ : Bytes => Bytes)) : Nat :=
  ∑ key ∈ headers.keys, (key.length + ((headers.lookup key).getD []).length)

/-- A duplicate key replaces the old value. -/
theorem storedBytes_insert_le (headers : Finmap (fun _ : Bytes => Bytes)) (key value : Bytes) :
    storedBytes (headers.insert key value) ≤ storedBytes headers + (key.length + value.length) := by
  have hKeys : (headers.insert key value).keys = insert key (headers.keys.erase key) := by
    ext other
    simp only [Finmap.mem_keys, Finmap.mem_insert, Finset.mem_insert, Finset.mem_erase]
    tauto
  have hOthers : ∀ other ∈ headers.keys.erase key,
      other.length + (((headers.insert key value).lookup other).getD []).length =
        other.length + ((headers.lookup other).getD []).length := by
    intro other hOther
    rw [Finmap.lookup_insert_of_ne _ (Finset.ne_of_mem_erase hOther)]
  have hLe : ∑ other ∈ headers.keys.erase key, (other.length +
      ((headers.lookup other).getD []).length) ≤ storedBytes headers :=
    Finset.sum_le_sum_of_subset (Finset.erase_subset _ _)
  unfold storedBytes at hLe ⊢
  rw [hKeys, Finset.sum_insert (Finset.notMem_erase _ _), Finset.sum_congr rfl hOthers,
    Finmap.lookup_insert, Option.getD_some]
  omega

theorem length_strip_le (value : Bytes) : (strip value).length ≤ value.length :=
  ((List.rdropWhile_prefix _ _).length_le).trans (List.dropWhile_suffix _).length_le

/-- The key and the value are parts of the line. -/
theorem length_headerKey_add_headerValue_le (header : Bytes) :
    (headerKey header).length + (headerValue header).length ≤ header.length := by
  have hKey := length_strip_le (header.takeWhile (· ≠ 58))
  have hValue := length_strip_le ((header.dropWhile (· ≠ 58)).drop 1)
  have hSplit := congrArg List.length (List.takeWhile_append_dropWhile (p := (· ≠ 58))
      (l := header))
  rw [List.length_drop] at hValue
  rw [List.length_append] at hSplit
  unfold headerKey headerValue
  omega

namespace HttpParser

/-- The words of the request line that are stored. -/
def requestLineSize (p : HttpParser) : Nat :=
  p.request.method.length + p.request.path.length + p.request.version.length

/-- What is kept is within the limits. -/
structure WithinLimits (p : HttpParser) : Prop where
  headerBytes : p.headerBytes ≤ p.limits.headerBytes
  contentLength : p.contentLength ≤ p.limits.bodyBytes
  requestLine : p.requestLineSize ≤ p.limits.requestLineBytes
  headers : storedBytes p.request.headers ≤ p.headerBytes
  body : p.request.body.length ≤ p.limits.bodyBytes

/-- Nothing is stored before the request line. -/
def Blank (p : HttpParser) : Prop := p.state = .requestLine → p.request = .empty

/-- Also a line that is not accepted stores no more than its own words. -/
theorem length_readFields_le (line : Bytes) :
    ∃ method path version, (readFields .empty line).1 =
      { HttpRequest.empty with method, path, version } ∧
      method.length + path.length + version.length ≤ line.length := by
  unfold readFields
  cases hMethod : extractToken line with
  | none => exact ⟨[], [], [], rfl, Nat.zero_le _⟩
  | some first =>
    obtain ⟨method, input⟩ := first
    obtain ⟨-, hLine, -⟩ := length_of_extractToken hMethod
    dsimp only
    cases hPath : extractToken input with
    | none => exact ⟨method, [], [], rfl, by simp only [List.length_nil]; omega⟩
    | some second =>
      obtain ⟨path, input'⟩ := second
      obtain ⟨-, hInput, -⟩ := length_of_extractToken hPath
      dsimp only
      cases hVersion : extractToken input' with
      | none => exact ⟨method, path, [], rfl, by simp only [List.length_nil]; omega⟩
      | some third =>
        obtain ⟨version, left⟩ := third
        obtain ⟨-, hInput', -⟩ := length_of_extractToken hVersion
        exact ⟨method, path, version, rfl, by omega⟩

variable {p : HttpParser} {xs : Bytes}

/-- A request line, accepted or not, on a parser that has stored nothing. -/
theorem afterLine_blank (hState : p.state = .requestLine) (hBlank : p.request = .empty)
    (line : Bytes) :
    ∃ method path version state, method.length + path.length + version.length ≤ line.length ∧
      p.afterLine line =
      { p with request := { HttpRequest.empty with method, path, version }, state } := by
  obtain ⟨method, path, version, hFields, hLength⟩ := length_readFields_le line
  refine ⟨method, path, version, (p.afterLine line).state, hLength, ?_⟩
  simp only [afterLine, hState, acceptRequestLine, hBlank, hFields]
  split_ifs <;> simp

/-- A line that passes the limit checks leaves what is stored within the limits. -/
theorem WithinLimits.afterLine (h : p.WithinLimits) (hBlank : p.Blank) (hReads : p.ReadsLines)
    {line : Bytes} (hLimit : ¬ p.OverLimit line) : (p.afterLine line).WithinLimits := by
  rcases hReads with hState | hState
  · simp only [OverLimit, hState, Nat.not_lt] at hLimit
    obtain ⟨method, path, version, state, hLength, hAfter⟩ := afterLine_blank hState (hBlank hState)
      line
    rw [hAfter]
    exact ⟨h.headerBytes, h.contentLength, hLength.trans hLimit, Nat.zero_le _, Nat.zero_le _⟩
  · simp only [OverLimit, hState, Nat.not_lt] at hLimit
    have hCount : p.headerBytes + (line.length + 2) ≤ p.limits.headerBytes := by omega
    have hMore : storedBytes p.request.headers ≤ p.headerBytes + (line.length + 2) := by
      have := h.headers
      omega
    simp only [HttpParser.afterLine, hState]
    by_cases hEmpty : line = []
    · rw [if_pos hEmpty]
      exact ⟨hCount, h.contentLength, h.requestLine, hMore, h.body⟩
    · rw [if_neg hEmpty]
      cases hAccept : (p.countLine line).acceptHeader line with
      | none => exact ⟨hCount, h.contentLength, h.requestLine, hMore, h.body⟩
      | some =>
        obtain ⟨-, -, hSize, -, rfl⟩ := (acceptHeader_iff _ _ _).mp hAccept
        refine ⟨hCount, ?_, h.requestLine, ?_, h.body⟩
        · simp only [Option.getD_some, withHeader, countLine]
          split_ifs with hLength
          · exact (hSize hLength).1.allowed
          · exact h.contentLength
        · have hInsert := storedBytes_insert_le p.request.headers (headerKey line)
              (headerValue line)
          have hParts := length_headerKey_add_headerValue_le line
          have hOld := h.headers
          simp only [Option.getD_some, withHeader, countLine]
          omega

/-- A step leaves a parser that reads headers, or the body. -/
theorem blank_of_step {p' : HttpParser} {rest : Bytes} (h : p.advance xs = .step p' rest) :
    p'.Blank := by
  intro hState
  obtain ⟨line, -, ⟨-, -, hAccept⟩ | ⟨hHeaders, -, ⟨-, rfl⟩ | ⟨-, hAccept⟩⟩⟩ := advance_step_cases h
  · obtain ⟨method, path, version, -, rfl⟩ := (acceptRequestLine_iff _ _ _).mp hAccept
    cases hState
  · dsimp only at hState
    split_ifs at hState
  · cases hHeaders.symm.trans ((acceptHeader_state hAccept :).symm.trans hState)

/-- A whole call of `parse` keeps within the limits. -/
theorem WithinLimits.run (h : p.WithinLimits) (hBlank : p.Blank) (xs : Bytes) :
    (consumer.run p xs).2.1.WithinLimits ∧
      ((consumer.run p xs).1 ≠ some .error → (consumer.run p xs).2.1.Blank) := by
  apply Consumer.run_induction (M := consumer) (P := fun p _ => p.WithinLimits ∧ p.Blank)
    (Q := fun outcome => outcome.2.1.WithinLimits ∧ (outcome.1 ≠ some .error → outcome.2.1.Blank))
  · intro p xs p' rest ⟨hWithin, hBlank⟩ hStep
    refine ⟨?_, blank_of_step hStep⟩
    rcases advance_parser_cases (.inl hStep) with rfl | ⟨line, hReads, hLimit, rfl⟩ | ⟨hState, -⟩
    · exact hWithin
    · exact hWithin.afterLine hBlank hReads hLimit
    · obtain ⟨line, -, ⟨hLine, -⟩ | ⟨hHeaders, -⟩⟩ := advance_step_cases hStep
      · cases hState.symm.trans hLine
      · cases hState.symm.trans hHeaders
  · exact fun hP _ => ⟨hP.1, fun _ => hP.2⟩
  · intro p xs result p' rest ⟨hWithin, hBlank⟩ hStop
    refine ⟨?_, ?_⟩
    · rcases advance_parser_cases (.inr ⟨result, hStop⟩) with rfl | ⟨line, hReads, hLimit,
        rfl⟩ | ⟨hState, rfl⟩
      · exact hWithin
      · exact hWithin.afterLine hBlank hReads hLimit
      · refine ⟨hWithin.headerBytes, hWithin.contentLength, hWithin.requestLine, hWithin.headers,
          ?_⟩
        exact (List.length_take_le ..).trans hWithin.contentLength
    · intro hNotError
      cases result with
      | incomplete => exact absurd hStop advance_ne_incomplete
      | error => exact absurd rfl hNotError
      | complete =>
        rcases advance_complete_cases hStop with ⟨-, -, -, rfl, -⟩ | ⟨hState, rfl, -⟩
        · exact nofun
        · intro hBack
          cases hState.symm.trans hBack
  · exact ⟨h, hBlank⟩

/-- Input the parser waits on is no longer than the largest of its limits. -/
theorem length_le_of_wait (hSane : p.Sane) (h : p.advance xs = .wait) :
    xs.length ≤ max p.limits.requestLineBytes (max p.limits.headerBytes p.limits.bodyBytes) := by
  have hBody := hSane.body
  by_cases hReads : p.ReadsLines
  · cases hLine : firstLine xs with
    | none =>
      rcases hReads with hState | hState
      all_goals
        simp only [advance, hState, hLine] at h
        split_ifs at h
        omega
    | some found =>
      obtain ⟨line, rest⟩ := found
      by_cases hLimit : p.OverLimit line
      · cases (advance_overLimit hLine hLimit).symm.trans h
      · rcases advance_afterLine hReads hLine hLimit with hIs | hIs
        all_goals cases hIs.symm.trans h
  · cases hState : p.state with
    | requestLine => exact absurd (.inl hState) hReads
    | headers => exact absurd (.inr hState) hReads
    | body =>
      simp only [advance, hState] at h
      split_ifs at h
      omega
    | done => cases (advance_done hState xs).symm.trans h

/-- What waits in the buffer for more bytes is within the largest limit. -/
theorem length_run_le (hSane : p.Sane) (h : (consumer.run p xs).1 = none) :
    (consumer.run p xs).2.2.length ≤
      max p.limits.requestLineBytes (max p.limits.headerBytes p.limits.bodyBytes) := by
  refine Consumer.run_induction (M := consumer) (P := fun q _ => q.Sane ∧ q.limits = p.limits)
    (Q := fun outcome => outcome.1 = none → outcome.2.2.length ≤
      max p.limits.requestLineBytes (max p.limits.headerBytes p.limits.bodyBytes)) ?_ ?_ ?_
      ⟨hSane, rfl⟩ h
  · intro q xs q' rest ⟨hSane, hLimits⟩ hStep
    rcases advance_parser_cases (.inl hStep) with rfl | ⟨line, -, -, rfl⟩ | ⟨-, rfl⟩
    · exact ⟨hSane, hLimits⟩
    · exact ⟨hSane.afterLine line, (q.afterLine_limits line).trans hLimits⟩
    · exact ⟨⟨hSane.body, nofun⟩, hLimits⟩
  · intro q xs ⟨hSane, hLimits⟩ hWait _
    rw [← hLimits]
    exact length_le_of_wait hSane hWait
  · exact fun _ _ => nofun

end HttpParser

namespace Session

/-- Every rejection is followed by a `reset` before the next `parse`. -/
def ResetAfterError (trace : List Reply) : Prop :=
  trace.IsChain (fun reply next => reply = .returned .error → next = .cleared)

theorem ResetAfterError.last_ne {trace : List Reply} {result : Result}
    (h : ResetAfterError (trace ++ [.returned result])) :
    trace.getLast? ≠ some (.returned .error) := by
  intro hLast
  cases (List.isChain_append.mp h).2.2 _ hLast _ rfl rfl

variable {limits : Limits} {initial : Nat} {hInitial : initial ≤ sizeMax}

/-- The bounds hold along every session that resets the parser after an error. -/
theorem withinLimits_of_reaches {s : Session} {trace : List Reply}
    (h : (machine (fresh limits initial hInitial)).Reaches s trace)
    (hReset : ResetAfterError trace) :
    s.parser.WithinLimits ∧ (trace.getLast? ≠ some (.returned .error) → s.parser.Blank) := by
  refine Machine.Reaches.invariant (P := fun s trace => ResetAfterError trace →
    s.parser.WithinLimits ∧ (trace.getLast? ≠ some (.returned .error) → s.parser.Blank)) ?_ ?_ h
    hReset
  · exact fun _ => ⟨⟨Nat.zero_le _, Nat.zero_le _, Nat.zero_le _, Nat.zero_le _, Nat.zero_le _⟩,
      fun _ _ => rfl⟩
  · intro s s' trace replies call _ ih hNext hReset
    obtain ⟨hWithin, hBlank⟩ := ih (List.isChain_append.mp hReset).1
    cases step_of_next hNext with
    | append added hParser =>
      rw [hParser, List.append_nil]
      exact ⟨hWithin, hBlank⟩
    | parse hParser =>
      obtain ⟨hNow, hLater⟩ := hWithin.run (hBlank hReset.last_ne) s.input.bytes
      rw [hParser, List.getLast?_concat]
      refine ⟨hNow, fun hLast => hLater ?_⟩
      intro hError
      exact hLast (by rw [hError]; rfl)
    | reset hParser =>
      rw [hParser]
      exact ⟨⟨Nat.zero_le _, Nat.zero_le _, Nat.zero_le _, Nat.zero_le _, Nat.zero_le _⟩, fun _ _ =>
        rfl⟩

/-- In every session that resets the parser after a rejection, what the parser
keeps is within its limits, and an incomplete request leaves no more bytes in
the buffer than the largest limit. -/
theorem limits_bound_memory (limits : Limits) {initial : Nat} (hInitial : initial ≤ sizeMax)
    {s : Session} {trace : List Reply}
    (h : (machine (fresh limits initial hInitial)).Reaches s trace)
    (hReset : ResetAfterError trace) :
    s.parser.limits = limits ∧ s.parser.WithinLimits ∧
      ∀ s', s.next .parse = some (s', [.returned .incomplete]) →
        s'.input.readable ≤ max limits.requestLineBytes
        (max limits.headerBytes limits.bodyBytes) := by
  obtain ⟨hSane, hLimits⟩ := sane_of_reaches h
  refine ⟨hLimits, (withinLimits_of_reaches h hReset).1, ?_⟩
  intro s' hNext
  obtain ⟨middle, hParse, -, hBytes, -⟩ := s.next_parse
  rw [hParse] at hNext
  simp only [Option.some.injEq, Prod.mk.injEq, List.cons.injEq, Reply.returned.injEq,
    and_true] at hNext
  obtain ⟨rfl, hIncomplete⟩ := hNext
  rw [← Buffer.length_bytes, hBytes, ← hLimits]
  apply HttpParser.length_run_le hSane
  cases hOutcome : (HttpParser.consumer.run s.parser s.input.bytes).1 with
  | none => rfl
  | some =>
    rw [hOutcome] at hIncomplete
    cases hIncomplete
    exact absurd hOutcome (HttpParser.run_ne_incomplete _ _)

theorem limits_bound_memory_after_error :
    ∃ s, (machine (fresh { headerBytes := 16 } 64 (by decide))).Reaches s
        [.returned .error, .cleared, .returned .incomplete] ∧
      s.parser.WithinLimits := by
  have hRun : ((machine (fresh { headerBytes := 16 } 64 (by decide))).run
      (fresh { headerBytes := 16 } 64 (by decide))
      [.append (ascii "GET / HTTP/2.0\r\nGET / HTTP/1.1\r\nA: b\r\n") false, .parse, .reset,
        .parse]).map (·.2) = some [.returned .error, .cleared, .returned .incomplete] := by
    decide +kernel
  obtain ⟨⟨s, replies⟩, hRun, rfl⟩ := Option.map_eq_some_iff.mp hRun
  have hReaches := Machine.Reaches.start.run hRun
  exact ⟨s, hReaches, (limits_bound_memory _ (by decide) hReaches (by simp [ResetAfterError])).2.1⟩

end Session
end Tinycoro.Http
