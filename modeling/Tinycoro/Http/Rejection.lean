import Tinycoro.Http.Grammar
import Tinycoro.Http.Session

/-! What a rejection leaves behind. A line that breaks a rule is consumed
before it is rejected and the parser stays where it was, so a further `parse`
goes on with the next line as if the bad one had not been there. Only a line
over its limit stays in the buffer and is rejected again. A session is lost
exactly when such a line comes next. -/
namespace Tinycoro.Http

open Incremental Transition

namespace HttpParser

/-- The states in which the parser reads line by line. -/
def ReadsLines (p : HttpParser) : Prop := p.state = .requestLine ∨ p.state = .headers

/-- A complete line over the limit that applies to it. -/
def OverLimit (p : HttpParser) (line : Bytes) : Prop :=
  match p.state with
  | .requestLine => p.limits.requestLineBytes < line.length
  | .headers => p.limits.headerBytes < p.headerBytes + line.length + 2
  | .body | .done => False

def countLine (p : HttpParser) (line : Bytes) : HttpParser :=
  { p with headerBytes := p.headerBytes + (line.length + 2) }

/-- The parser behind a consumed line, whether the line was accepted or not. -/
def afterLine (p : HttpParser) (line : Bytes) : HttpParser :=
  match p.state with
  | .requestLine => (p.acceptRequestLine line).1
  | .headers =>
    if line = [] then { p.countLine line with state := if p.contentLength = 0 then .done else .body
      }
    else ((p.countLine line).acceptHeader line).getD (p.countLine line)
  | .body | .done => p

variable {p p' : HttpParser} {xs line rest : Bytes} {n : Nat}

theorem advance_overLimit (hLine : firstLine xs = some (line, rest)) (hLimit : p.OverLimit line) :
    p.advance xs = .stop .error p xs := by
  unfold OverLimit at hLimit
  cases hState : p.state with
  | requestLine | headers => simp_all [advance]
  | body | done => simp [hState] at hLimit

/-- A line within its limit is consumed. The look at it ends there with a
rejection or goes on. -/
theorem advance_afterLine (hReads : p.ReadsLines) (hLine : firstLine xs = some (line, rest))
    (hLimit : ¬ p.OverLimit line) :
    p.advance xs = .step (p.afterLine line) rest ∨
      p.advance xs = .stop .error (p.afterLine line) rest := by
  rcases hReads with hState | hState
  · have hFits : ¬ line.length > p.limits.requestLineBytes := by
      simpa only [OverLimit, hState] using hLimit
    simp only [advance, afterLine, hState, hLine, if_neg hFits]
    split_ifs
    · exact .inl rfl
    · exact .inr rfl
  · have hFits : ¬ p.headerBytes + line.length + 2 > p.limits.headerBytes := by
      simpa only [OverLimit, hState] using hLimit
    simp only [advance, afterLine, countLine, hState, hLine, if_neg hFits]
    by_cases hBlank : line = []
    · simp [hBlank]
    · simp only [if_neg hBlank]
      split
      · rename_i hNone
        exact .inr (by rw [hNone, Option.getD_none])
      · rename_i hSome
        exact .inl (by rw [hSome, Option.getD_some])

theorem advance_pending (hReads : p.ReadsLines) (hLine : firstLine xs = none) :
    p.advance xs = .wait ∨ p.advance xs = .stop .error p xs := by
  rcases hReads with hState | hState
  all_goals
    simp only [advance, hState, hLine]
    split_ifs
    · exact .inr rfl
    · exact .inl rfl

/-- The three words that were read and the spaces between them fit in the line. -/
theorem length_of_readFields {request request' : HttpRequest}
    (h : readFields request line = (request', true)) :
    1 ≤ request'.method.length ∧ 1 ≤ request'.path.length ∧
      request'.method.length + request'.path.length + request'.version.length + 2 ≤
      line.length := by
  unfold readFields at h
  cases hMethod : extractToken line with
  | none =>
    simp only [hMethod] at h
    cases h
  | some first =>
    obtain ⟨method, input⟩ := first
    simp only [hMethod] at h
    obtain ⟨hSome, hLine, hSpace⟩ := length_of_extractToken hMethod
    cases hPath : extractToken input with
    | none =>
      simp only [hPath] at h
      cases h
    | some second =>
      obtain ⟨path, input'⟩ := second
      simp only [hPath] at h
      obtain ⟨hSome', hInput, hSpace'⟩ := length_of_extractToken hPath
      cases hVersion : extractToken input' with
      | none =>
        simp only [hVersion] at h
        cases h
      | some third =>
        obtain ⟨version, left⟩ := third
        simp only [hVersion, Prod.mk.injEq] at h
        obtain ⟨rfl, -⟩ := h
        obtain ⟨hSome'', hInput', -⟩ := length_of_extractToken hVersion
        have hFirst := hSpace (by rintro rfl; cases hPath)
        have hSecond := hSpace' (by rintro rfl; cases hVersion)
        refine ⟨hSome, hSome', ?_⟩
        dsimp only
        omega

/-- An accepted request line has two words, an eight-byte version and the
spaces between them. -/
theorem length_of_acceptRequestLine (h : p.acceptRequestLine line = (p', true)) :
    12 ≤ line.length := by
  unfold acceptRequestLine at h
  rcases hFields : readFields p.request line with ⟨request, ok⟩
  simp only [hFields] at h
  cases ok with
  | false => cases h
  | true =>
    simp only [Bool.not_true, Bool.false_eq_true, if_false] at h
    split_ifs at h with hVersion
    · cases h
    obtain ⟨hMethod, hPath, hSum⟩ := length_of_readFields hFields
    have hEight : request.version.length = 8 := by
      rcases not_and_or.mp hVersion with h | h
      · rw [not_not.mp h]
        rfl
      · rw [not_not.mp h]
        rfl
    omega

theorem afterLine_requestLine (hState : p.state = .requestLine) (line : Bytes) :
    ∃ request, (12 ≤ line.length ∧ p.afterLine line = { p with request, state := .headers }) ∨
      p.afterLine line = { p with request } := by
  simp only [afterLine, hState]
  cases hOk : (p.acceptRequestLine line).2 with
  | true =>
    have hAccept : p.acceptRequestLine line = ((p.acceptRequestLine line).1, true) :=
      Prod.ext rfl hOk
    obtain ⟨method, path, version, -, hEq⟩ := (acceptRequestLine_iff _ _ _).mp hAccept
    exact ⟨_, .inl ⟨length_of_acceptRequestLine hAccept, hEq⟩⟩
  | false =>
    refine ⟨(readFields p.request line).1, .inr ?_⟩
    unfold acceptRequestLine at hOk ⊢
    dsimp only at hOk ⊢
    split_ifs at hOk ⊢
    all_goals simp only [hState]

theorem afterLine_headers (hState : p.state = .headers) (hLine : line ≠ []) :
    ∃ request contentLength contentLengthSeen,
      (contentLength = p.contentLength ∨ contentLength ≤ p.limits.bodyBytes) ∧
      p.afterLine line = { p with
        request, contentLength, contentLengthSeen
        headerBytes := p.headerBytes + (line.length + 2) } := by
  simp only [afterLine, hState, if_neg hLine]
  cases hAccept : (p.countLine line).acceptHeader line with
  | none =>
      exact ⟨p.request, p.contentLength, p.contentLengthSeen, .inl rfl, by simp [countLine, hState]⟩
  | some =>
    obtain ⟨-, -, hSize, -, rfl⟩ := (acceptHeader_iff _ _ _).mp hAccept
    refine ⟨((p.countLine line).withHeader line).request,
      ((p.countLine line).withHeader line).contentLength,
      ((p.countLine line).withHeader line).contentLengthSeen,
      ?_, by simp [withHeader, countLine, hState]⟩
    unfold withHeader
    dsimp only
    split_ifs with hLength
    · exact .inr (hSize hLength).1.allowed
    · exact .inl rfl

/-- The bytes that end a pending line. -/
def lineEnd (xs : Bytes) : Bytes := if xs.getLast? = some 13 then [10] else crlf

/-- The pending line cannot be ended and followed by what the request still
needs, at least the blank line, within the limits. -/
def NoRoom (p : HttpParser) (xs : Bytes) : Prop :=
  match p.state with
  | .requestLine =>
    p.limits.requestLineBytes < 12 ∨ p.limits.headerBytes < 2 ∨
      p.limits.requestLineBytes + 2 < (xs ++ lineEnd xs).length
  | .headers =>
    p.limits.headerBytes <
      p.headerBytes + (xs ++ lineEnd xs).length + if xs ++ lineEnd xs = crlf then 0 else 2
  | .body | .done => False

/-- A parser that meets a line it can never get past. Lines that are accepted
and lines that are rejected and consumed are passed over alike. -/
inductive Doomed : HttpParser → Bytes → Prop where
  | overLimit {p : HttpParser} {xs line rest : Bytes} (hLine : firstLine xs = some (line, rest))
      (hLimit : p.OverLimit line) : Doomed p xs
  | pending {p : HttpParser} {xs : Bytes} (hLine : firstLine xs = none) (hRoom : p.NoRoom xs) :
      Doomed p xs
  | later {p : HttpParser} {xs line rest : Bytes} (hReads : p.ReadsLines)
      (hLine : firstLine xs = some (line, rest)) (h : Doomed (p.afterLine line) rest) : Doomed p xs

theorem NoRoom.readsLines (h : p.NoRoom xs) : p.ReadsLines := by
  unfold NoRoom at h
  cases hState : p.state with
  | requestLine => exact .inl hState
  | headers => exact .inr hState
  | body | done => simp [hState] at h

/-- A `parse` in a lost session does not complete, and the session stays lost. -/
theorem Doomed.run (h : Doomed p xs) :
    (consumer.run p xs).1 ≠ some .complete ∧
      Doomed (consumer.run p xs).2.1 (consumer.run p xs).2.2 := by
  induction h with
  | overLimit hLine hLimit =>
    rw [run_stop (advance_overLimit hLine hLimit)]
    exact ⟨by simp, .overLimit hLine hLimit⟩
  | pending hLine hRoom =>
    rcases advance_pending hRoom.readsLines hLine with hWait | hStop
    · rw [run_wait hWait]
      exact ⟨by simp, .pending hLine hRoom⟩
    · rw [run_stop hStop]
      exact ⟨by simp, .pending hLine hRoom⟩
  | @later p xs line rest hReads hLine h ih =>
    by_cases hLimit : p.OverLimit line
    · rw [run_stop (advance_overLimit hLine hLimit)]
      exact ⟨by simp, .overLimit hLine hLimit⟩
    · rcases advance_afterLine hReads hLine hLimit with hStep | hStop
      · rw [run_step hStep]
        exact ih
      · rw [run_stop hStop]
        exact ⟨by simp, h⟩

theorem two_le_length_lineEnd (xs : Bytes) : 2 ≤ (xs ++ lineEnd xs).length := by
  unfold lineEnd
  split_ifs with hLast
  · cases xs with
    | nil => cases hLast
    | cons => simp
  · simp [crlf]

theorem lineEnd_eq_crlf (h : (xs ++ lineEnd xs).length ≤ 2) : xs ++ lineEnd xs = crlf := by
  match xs with
  | [] => rfl
  | [c] =>
    unfold lineEnd at h ⊢
    split_ifs at h ⊢ with hLast
    · cases hLast
      rfl
    · simp [crlf] at h
  | c :: d :: xs =>
    unfold lineEnd at h
    split_ifs at h <;> simp [crlf] at h

/-- Bytes that do not end the pending line make it longer. -/
theorem length_lineEnd_mono (xs ys : Bytes) :
    (xs ++ lineEnd xs).length ≤ (xs ++ ys ++ lineEnd (xs ++ ys)).length := by
  cases ys with
  | nil => rw [List.append_nil]
  | cons =>
    unfold lineEnd
    split_ifs <;> simp [crlf]

/-- Wherever the pending line ends, it takes at least the bytes that end it at
once. -/
theorem length_lineEnd_le {ys : Bytes} (hNone : firstLine xs = none)
    (hLine : firstLine (xs ++ ys) = some (line, rest)) :
    (xs ++ lineEnd xs).length ≤ line.length + 2 := by
  rw [firstLine_eq_none_iff] at hNone
  obtain ⟨hEq, -⟩ := (firstLine_eq_some_iff _ _ _).mp hLine
  have hLong : xs.length < line.length + 2 := by
    by_contra hShort
    apply hNone
    have hPrefix : line ++ crlf <+: xs := by
      refine List.prefix_of_prefix_length_le (hEq ▸ List.prefix_append _ _)
        (List.prefix_append xs ys) ?_
      simp only [crlf, List.length_append, List.length_cons, List.length_nil]
      omega
    exact (List.suffix_append line crlf).isInfix.trans hPrefix.isInfix
  unfold lineEnd
  split_ifs with hLast
  · simp only [List.length_append, List.length_singleton]
    omega
  · simp only [crlf, List.length_append, List.length_cons, List.length_nil]
    by_contra hShort
    -- One byte short of the line with its CRLF, the pending bytes end in the CR.
    apply hLast
    have hTake : xs = line ++ [13] := by
      have hLeft := congrArg (List.take (line.length + 1)) hEq
      rw [show line.length + 1 = xs.length by omega, List.take_left' rfl] at hLeft
      rw [hLeft, show xs.length = line.length + 1 by omega]
      simp [crlf, List.take_append]
    rw [hTake]
    simp

theorem doomed_of_no_blankLine (hState : p.state = .headers)
    (hLimit : p.limits.headerBytes < p.headerBytes + 2) (xs : Bytes) : Doomed p xs := by
  cases hLine : firstLine xs with
  | none =>
    refine .pending hLine ?_
    have hTwo := two_le_length_lineEnd xs
    simp only [NoRoom, hState]
    omega
  | some found =>
    obtain ⟨line, rest⟩ := found
    refine .overLimit hLine ?_
    simp only [OverLimit, hState]
    omega

/-- Limits too small for any request line, or for the end of the headers, doom every input. -/
theorem doomed_of_limits (hState : p.state = .requestLine)
    (hLimits : p.limits.requestLineBytes < 12 ∨ p.limits.headerBytes < 2) (xs : Bytes) :
    Doomed p xs := by
  induction hn : xs.length using Nat.strongRecOn generalizing p xs with
  | _ n ih =>
    cases hLine : firstLine xs with
    | none =>
      refine .pending hLine ?_
      simp only [NoRoom, hState]
      rcases hLimits with h | h
      · exact .inl h
      · exact .inr (.inl h)
    | some found =>
      obtain ⟨line, rest⟩ := found
      have hShorter := length_of_firstLine hLine
      obtain ⟨request, ⟨hLong, hAfter⟩ | hAfter⟩ := afterLine_requestLine hState line
      · rcases hLimits with hRequest | hHeaders
        · refine .overLimit hLine ?_
          simp only [OverLimit, hState]
          omega
        · refine .later (.inl hState) hLine (doomed_of_no_blankLine ?_ ?_ rest)
          · rw [hAfter]
          · rw [hAfter]
            dsimp only
            omega
      · refine .later (.inl hState) hLine (ih rest.length (by omega) ?_ ?_ rest rfl)
        · rw [hAfter]
          exact hState
        · rw [hAfter]
          exact hLimits

/-- No bytes that arrive later save a lost session. -/
theorem Doomed.append (h : Doomed p xs) (ys : Bytes) : Doomed p (xs ++ ys) := by
  induction h with
  | overLimit hLine hLimit => exact .overLimit (firstLine_append hLine ys) hLimit
  | later hReads hLine h ih => exact .later hReads (firstLine_append hLine ys) ih
  | @pending p xs hNone hRoom =>
    have hMono := length_lineEnd_mono xs ys
    have hReads := hRoom.readsLines
    unfold NoRoom at hRoom
    cases hLine : firstLine (xs ++ ys) with
    | none =>
      refine .pending hLine ?_
      rcases hReads with hState | hState
      · simp only [hState] at hRoom
        simp only [NoRoom, hState]
        omega
      · simp only [hState] at hRoom
        simp only [NoRoom, hState]
        by_cases hBlank : xs ++ ys ++ lineEnd (xs ++ ys) = crlf
        · rw [hBlank] at hMono
          rw [if_pos (lineEnd_eq_crlf hMono)] at hRoom
          rw [if_pos hBlank, hBlank]
          omega
        · rw [if_neg hBlank]
          split_ifs at hRoom <;> omega
    | some found =>
      obtain ⟨line, rest⟩ := found
      have hLe := length_lineEnd_le hNone hLine
      rcases hReads with hState | hState
      · simp only [hState] at hRoom
        rcases hRoom with hLimit | hLimit | hLong
        · exact doomed_of_limits hState (.inl hLimit) _
        · exact doomed_of_limits hState (.inr hLimit) _
        · refine .overLimit hLine ?_
          simp only [OverLimit, hState]
          omega
      · simp only [hState] at hRoom
        by_cases hBlank : line = []
        · rw [hBlank] at hLe
          rw [if_pos (lineEnd_eq_crlf hLe)] at hRoom
          refine .overLimit hLine ?_
          simp only [OverLimit, hState, hBlank, List.length_nil] at hLe ⊢
          omega
        · obtain ⟨request, contentLength, seen, -, hAfter⟩ := afterLine_headers hState hBlank
          refine .later (.inr hState) hLine (doomed_of_no_blankLine ?_ ?_ rest)
          · rw [hAfter]
            exact hState
          · rw [hAfter]
            dsimp only
            split_ifs at hRoom <;> omega

/-- What every parser in use keeps: an announced body is within its limit and
no header is counted before the request line. -/
structure Sane (p : HttpParser) : Prop where
  body : p.contentLength ≤ p.limits.bodyBytes
  fresh : p.state = .requestLine → p.headerBytes = 0

theorem afterLine_limits (p : HttpParser) (line : Bytes) :
    (p.afterLine line).limits = p.limits := by
  cases hState : p.state with
  | requestLine =>
    obtain ⟨request, ⟨-, hAfter⟩ | hAfter⟩ := afterLine_requestLine hState line
    all_goals rw [hAfter]
  | headers =>
    by_cases hBlank : line = []
    · simp only [afterLine, hState, if_pos hBlank, countLine]
    · obtain ⟨request, contentLength, seen, -, hAfter⟩ := afterLine_headers hState hBlank
      rw [hAfter]
  | body | done => simp only [afterLine, hState]

theorem Sane.afterLine (h : p.Sane) (line : Bytes) : (p.afterLine line).Sane := by
  cases hState : p.state with
  | requestLine =>
    obtain ⟨request, ⟨-, hAfter⟩ | hAfter⟩ := afterLine_requestLine hState line
    all_goals
      rw [hAfter]
      exact ⟨h.body, fun _ => h.fresh hState⟩
  | headers =>
    by_cases hBlank : line = []
    · simp only [HttpParser.afterLine, hState, if_pos hBlank, countLine]
      refine ⟨h.body, ?_⟩
      intro hBack
      dsimp only at hBack
      split_ifs at hBack
    · obtain ⟨request, contentLength, seen, hBody, hAfter⟩ := afterLine_headers hState hBlank
      rw [hAfter]
      refine ⟨hBody.elim (fun hSame => hSame ▸ h.body) id, ?_⟩
      intro hBack
      cases hState.symm.trans hBack
  | body | done => simpa only [HttpParser.afterLine, hState] using h

/-- Further `append` and `parse` calls complete a request with at most `n`
more bytes. -/
inductive Revives : Nat → HttpParser → Bytes → Prop where
  | complete {n : Nat} {p : HttpParser} {xs : Bytes} (h : (consumer.run p xs).1 = some .complete) :
      Revives n p xs
  | append {n : Nat} {p : HttpParser} {xs : Bytes} (data : Bytes) (h : Revives n p (xs ++ data)) :
      Revives (data.length + n) p xs
  | parse {n : Nat} {p : HttpParser} {xs : Bytes}
      (h : Revives n (consumer.run p xs).2.1 (consumer.run p xs).2.2) : Revives n p xs

theorem Revives.mono {m : Nat} (h : Revives n p xs) (hLe : n ≤ m) : Revives m p xs := by
  induction h generalizing m with
  | complete h => exact .complete h
  | append data h ih =>
    obtain ⟨k, rfl⟩ := Nat.exists_eq_add_of_le (Nat.le_of_add_right_le hLe)
    exact .append data (ih (by omega))
  | parse h ih => exact .parse (ih hLe)

theorem Revives.of_step (h : Revives n p' rest) (hStep : p.advance xs = .step p' rest) :
    Revives n p xs := by
  induction h generalizing xs with
  | complete => exact .complete (by rwa [run_step hStep])
  | append data h ih => exact .append data (ih (consumer.step_append data hStep))
  | parse => exact .parse (by rwa [run_step hStep])

/-- A line within its limit does not stand in the way. -/
theorem Revives.of_afterLine (hReads : p.ReadsLines) (hLine : firstLine xs = some (line, rest))
    (hLimit : ¬ p.OverLimit line) (h : Revives n (p.afterLine line) rest) : Revives n p xs := by
  rcases advance_afterLine hReads hLine hLimit with hStep | hStop
  · exact h.of_step hStep
  · exact .parse (by rwa [run_stop hStop])

theorem revives_body (hState : p.state = .body) (hBody : p.contentLength ≤ p.limits.bodyBytes)
    (xs : Bytes) : Revives p.limits.bodyBytes p xs := by
  refine (Revives.append (List.replicate (p.contentLength - xs.length) 0)
    (.complete (n := 0) ?_)).mono ?_
  · have hEnough : ¬ (xs ++ List.replicate (p.contentLength - xs.length) (0 : UInt8)).length <
        p.contentLength := by
      rw [List.length_append, List.length_replicate]
      omega
    have hStop : ∃ p' rest, p.advance (xs ++ List.replicate (p.contentLength - xs.length) 0) =
        .stop .complete p' rest := by
      simp only [advance, hState, if_neg (Nat.not_lt.mpr hBody), if_neg hEnough]
      exact ⟨_, _, rfl⟩
    obtain ⟨p', rest, hStop⟩ := hStop
    rw [run_stop hStop]
  · rw [List.length_replicate]
    omega

theorem revives_done (hState : p.state = .done) (xs : Bytes) : Revives 0 p xs :=
  .complete (by rw [run_stop (advance_done hState xs)])

/-- Behind the blank line only the body is missing. -/
theorem revives_blankLine (hSane : p.Sane) (hState : p.state = .headers) :
    Revives p.limits.bodyBytes (p.afterLine []) [] := by
  have hAfter := hSane.afterLine []
  have hLimits := p.afterLine_limits []
  by_cases hEmpty : p.contentLength = 0
  · refine (revives_done ?_ []).mono (Nat.zero_le _)
    simp [afterLine, hState, hEmpty]
  · rw [← hLimits]
    refine revives_body ?_ hAfter.body []
    simp [afterLine, hState, hEmpty]

theorem revives_headers (hSane : p.Sane) (hState : p.state = .headers)
    (hLimit : p.headerBytes + 2 ≤ p.limits.headerBytes) :
    Revives (2 + p.limits.bodyBytes) p [] := by
  refine .append crlf (.of_afterLine (.inr hState) (firstLine_crlf []) ?_
    (revives_blankLine hSane hState))
  simp only [OverLimit, hState, List.length_nil]
  omega

/-- A shortest request line. -/
def shortLine : Bytes := ascii "G / HTTP/1.1"

theorem revives_requestLine (hSane : p.Sane) (hState : p.state = .requestLine)
    (hLine : 12 ≤ p.limits.requestLineBytes) (hHeaders : 2 ≤ p.limits.headerBytes) :
    Revives (14 + (2 + p.limits.bodyBytes)) p [] := by
  have hAfter : ∃ request, p.afterLine shortLine = { p with request, state := .headers } := by
    have hPair : p.acceptRequestLine shortLine = ((p.acceptRequestLine shortLine).1, true) := rfl
    obtain ⟨method, path, version, -, hEq⟩ := (acceptRequestLine_iff _ _ _).mp hPair
    exact ⟨_, by simpa only [afterLine, hState] using hEq⟩
  obtain ⟨request, hAfter⟩ := hAfter
  have hNext := revives_headers (hSane.afterLine shortLine) (by rw [hAfter])
    (by rw [hAfter, hSane.fresh hState, Nat.zero_add]; exact hHeaders)
  rw [p.afterLine_limits shortLine] at hNext
  have hFirst : firstLine ([] ++ (shortLine ++ crlf)) = some (shortLine, []) := rfl
  refine .append (shortLine ++ crlf) (.of_afterLine (.inl hState) hFirst ?_ hNext)
  simp only [OverLimit, hState]
  exact Nat.not_lt.mpr hLine

/-- Ending the pending line makes it a line of exactly that length. -/
theorem firstLine_lineEnd (h : firstLine xs = none) :
    ∃ line, firstLine (xs ++ lineEnd xs) = some (line, []) ∧
      line.length + 2 = (xs ++ lineEnd xs).length := by
  have hNone := (firstLine_eq_none_iff xs).mp h
  unfold lineEnd
  split_ifs with hLast
  · obtain ⟨line, rfl⟩ := List.getLast?_eq_some_iff.mp hLast
    refine ⟨line, (firstLine_eq_some_iff _ _ _).mpr ⟨by simp [crlf], ?_⟩, by simp⟩
    exact fun hIn => hNone (hIn.trans (List.prefix_append _ _).isInfix)
  · exact ⟨xs, (firstLine_eq_some_iff _ _ _).mpr ⟨by simp, hNone⟩, by simp [crlf]⟩

/-- A pending line with room for its end and for the rest of a request. -/
theorem revives_pending (hSane : p.Sane) (hReads : p.ReadsLines) (hNone : firstLine xs = none)
    (hRoom : ¬ p.NoRoom xs) : Revives (18 + p.limits.bodyBytes) p xs := by
  obtain ⟨line, hLine, hLength⟩ := firstLine_lineEnd hNone
  have hEnd : (lineEnd xs).length ≤ 2 := by
    unfold lineEnd
    split_ifs <;> simp [crlf]
  have hAfterSane := hSane.afterLine line
  have hLimits := p.afterLine_limits line
  suffices hAfter : ¬ p.OverLimit line ∧ Revives (16 + p.limits.bodyBytes) (p.afterLine line) []
    from (Revives.append _ (.of_afterLine hReads hLine hAfter.1 hAfter.2)).mono (by omega)
  unfold NoRoom at hRoom
  rcases hReads with hState | hState
  · simp only [hState, not_or, Nat.not_lt] at hRoom
    obtain ⟨hRequest, hHeaders, hFits⟩ := hRoom
    refine ⟨by simp only [OverLimit, hState]; omega, ?_⟩
    obtain ⟨request, ⟨-, hAfter⟩ | hAfter⟩ := afterLine_requestLine hState line
    · have hNext := revives_headers hAfterSane (by rw [hAfter])
        (by rw [hAfter, hSane.fresh hState, Nat.zero_add]; exact hHeaders)
      exact hNext.mono (by rw [hLimits]; omega)
    · have hNext := revives_requestLine hAfterSane (by rw [hAfter]; exact hState)
        (by rw [hLimits]; exact hRequest) (by rw [hLimits]; exact hHeaders)
      exact hNext.mono (by rw [hLimits]; omega)
  · simp only [hState, Nat.not_lt] at hRoom
    refine ⟨by simp only [OverLimit, hState]; omega, ?_⟩
    by_cases hBlank : line = []
    · rw [hBlank]
      exact (revives_blankLine hSane hState).mono (by omega)
    · have hNotCrlf : xs ++ lineEnd xs ≠ crlf := by
        intro hCrlf
        rw [hCrlf] at hLength
        exact hBlank (List.length_eq_zero_iff.mp (by simpa [crlf] using hLength))
      rw [if_neg hNotCrlf] at hRoom
      obtain ⟨request, contentLength, seen, -, hAfter⟩ := afterLine_headers hState hBlank
      have hNext := revives_headers hAfterSane (by rw [hAfter]; exact hState)
        (by rw [hAfter]; dsimp only; omega)
      exact hNext.mono (by rw [hLimits]; omega)

/-- A session that is not lost can be completed. -/
theorem revives_of_not_doomed (hSane : p.Sane) (h : ¬ Doomed p xs) :
    Revives (18 + p.limits.bodyBytes) p xs := by
  induction hn : xs.length using Nat.strongRecOn generalizing p xs with
  | _ n ih =>
    by_cases hReads : p.ReadsLines
    · cases hLine : firstLine xs with
      | none => exact revives_pending hSane hReads hLine (fun hRoom => h (.pending hLine hRoom))
      | some found =>
        obtain ⟨line, rest⟩ := found
        have hShorter := length_of_firstLine hLine
        have hNext := ih rest.length (by omega) (hSane.afterLine line)
          (fun hLost => h (.later hReads hLine hLost)) rfl
        rw [p.afterLine_limits line] at hNext
        exact .of_afterLine hReads hLine (fun hLimit => h (.overLimit hLine hLimit)) hNext
    · cases hState : p.state with
      | requestLine => exact absurd (.inl hState) hReads
      | headers => exact absurd (.inr hState) hReads
      | body => exact (revives_body hState hSane.body xs).mono (by omega)
      | done => exact (revives_done hState xs).mono (by omega)

/-- What a look can make of the parser. -/
theorem advance_parser_cases
    (h : p.advance xs = .step p' rest ∨ ∃ result, p.advance xs = .stop result p' rest) :
    p' = p ∨ (∃ line, p.ReadsLines ∧ ¬ p.OverLimit line ∧ p' = p.afterLine line) ∨
      p.state = .body ∧ p' = { p with
        request := { p.request with body := xs.take p.contentLength }, state := .done } := by
  by_cases hReads : p.ReadsLines
  · cases hLine : firstLine xs with
    | none =>
      rcases advance_pending hReads hLine with hIs | hIs
      all_goals
        simp only [hIs, Verdict.stop.injEq, reduceCtorEq, false_or, exists_false] at h
      obtain ⟨-, -, rfl, -⟩ := h
      exact .inl rfl
    | some found =>
      obtain ⟨line, left⟩ := found
      by_cases hLimit : p.OverLimit line
      · simp only [advance_overLimit hLine hLimit, Verdict.stop.injEq, reduceCtorEq, false_or] at h
        obtain ⟨-, -, rfl, -⟩ := h
        exact .inl rfl
      · refine .inr (.inl ⟨line, hReads, hLimit, ?_⟩)
        rcases advance_afterLine hReads hLine hLimit with hIs | hIs
        · simp only [hIs, Verdict.step.injEq, reduceCtorEq, exists_false, or_false] at h
          exact h.1.symm
        · simp only [hIs, Verdict.stop.injEq, reduceCtorEq, false_or] at h
          obtain ⟨-, -, hEq, -⟩ := h
          exact hEq.symm
  · cases hState : p.state with
    | requestLine => exact absurd (.inl hState) hReads
    | headers => exact absurd (.inr hState) hReads
    | body =>
      simp only [advance, hState] at h
      split_ifs at h with hLong hShort
      · simp only [Verdict.stop.injEq, false_or] at h
        obtain ⟨-, -, rfl, -⟩ := h
        exact .inl rfl
      · simp only [exists_false, or_false] at h
      · simp only [Verdict.stop.injEq, false_or] at h
        obtain ⟨-, -, hEq, -⟩ := h
        exact .inr (.inr ⟨rfl, hEq.symm⟩)
    | done =>
      simp only [advance, hState, Verdict.stop.injEq, reduceCtorEq, false_or] at h
      obtain ⟨-, -, rfl, -⟩ := h
      exact .inl rfl

/-- A property of the parser that a consumed line and a read body keep is kept
by a whole call of `parse`. -/
theorem run_keeps {P : HttpParser → Prop}
    (hLine : ∀ p line, P p → p.ReadsLines → ¬ p.OverLimit line → P (p.afterLine line))
    (hBody : ∀ p (xs : Bytes), P p → p.state = .body → P { p with
      request := { p.request with body := xs.take p.contentLength }, state := .done }) (h : P p)
    (xs : Bytes) : P (consumer.run p xs).2.1 := by
  have hAdvance : ∀ {p p' : HttpParser} {xs rest : Bytes}, P p →
      (p.advance xs = .step p' rest ∨ ∃ result, p.advance xs = .stop result p' rest) → P p' := by
    intro p p' xs rest hP hIs
    rcases advance_parser_cases hIs with rfl | ⟨line, hReads, hLimit, rfl⟩ | ⟨hState, rfl⟩
    · exact hP
    · exact hLine p line hP hReads hLimit
    · exact hBody p xs hP hState
  exact Consumer.run_induction (M := consumer) (P := fun p _ => P p)
    (Q := fun outcome => P outcome.2.1)
    (fun hP hStep => hAdvance hP (.inl hStep)) (fun hP _ => hP)
      (fun hP hStop => hAdvance hP (.inr ⟨_, hStop⟩)) h

theorem Sane.run (h : p.Sane) (xs : Bytes) : (consumer.run p xs).2.1.Sane :=
  run_keeps (fun _ line hSane _ _ => hSane.afterLine line) (fun _ _ hSane _ => ⟨hSane.body, nofun⟩)
  h xs

theorem run_limits (p : HttpParser) (xs : Bytes) : (consumer.run p xs).2.1.limits = p.limits :=
  run_keeps (P := fun q => q.limits = p.limits)
    (fun q line hSame _ _ => (q.afterLine_limits line).trans hSame) (fun _ _ hSame _ => hSame) rfl
    xs

end HttpParser

namespace Session

variable {limits : Limits} {initial : Nat} {hInitial : initial ≤ sizeMax}

variable {s : Session}

theorem sane_of_reaches {trace : List Reply}
    (h : (machine (fresh limits initial hInitial)).Reaches s trace) :
    s.parser.Sane ∧ s.parser.limits = limits := by
  apply Machine.Reaches.invariant (P := fun s _ => s.parser.Sane ∧ s.parser.limits = limits) _ _ h
  · exact ⟨⟨Nat.zero_le _, fun _ => rfl⟩, rfl⟩
  · intro s s' trace replies call _ hSane hNext
    cases step_of_next hNext with
    | append data hParser => rwa [hParser]
    | parse hParser =>
      rw [hParser]
      exact ⟨hSane.1.run _, (HttpParser.run_limits ..).trans hSane.2⟩
    | reset hParser =>
      rw [hParser]
      exact ⟨⟨Nat.zero_le _, fun _ => rfl⟩, hSane.2⟩

/-- No calls without a `reset` return `COMPLETE`. -/
def Final (s : Session) : Prop :=
  ∀ calls s' replies, .reset ∉ calls → (machine s).run s calls = some (s', replies) →
    .returned .complete ∉ replies

/-- A doomed parser reports no complete request until it is reset. -/
theorem not_complete_of_doomed {start s' : Session} {calls : List Call} {replies : List Reply}
    (hLost : s.parser.Doomed s.input.bytes) (hReset : .reset ∉ calls)
    (hRun : (machine start).run s calls = some (s', replies)) : .returned .complete ∉ replies := by
  induction calls generalizing s replies with
  | nil =>
    cases hRun
    exact List.not_mem_nil
  | cons call calls ih =>
    obtain ⟨middle, first, later, hNext, hLater, rfl⟩ := Machine.exists_of_run_cons hRun
    have hCalls : .reset ∉ calls := fun h => hReset (List.mem_cons_of_mem _ h)
    rw [List.mem_append, not_or]
    cases step_of_next hNext with
    | append data hParser hBytes =>
      refine ⟨List.not_mem_nil, ih ?_ hCalls hLater⟩
      rw [hParser, hBytes]
      exact hLost.append data
    | parse hParser hBytes =>
      refine ⟨?_, ih ?_ hCalls hLater⟩
      · simp only [List.mem_singleton, Reply.returned.injEq]
        intro hComplete
        cases hOutcome : (HttpParser.consumer.run s.parser s.input.bytes).1 with
        | none =>
          rw [hOutcome] at hComplete
          cases hComplete
        | some =>
          rw [hOutcome] at hComplete
          cases hComplete
          exact hLost.run.1 hOutcome
      · rw [hParser, hBytes]
        exact hLost.run.2
    | reset => exact absurd List.mem_cons_self hReset

/-- Calls that revive the parser, as long as the buffer has room for the bytes. -/
theorem exists_complete_of_revives (start : Session) {n : Nat}
    (h : HttpParser.Revives n s.parser s.input.bytes) (hRoom : s.input.writeIdx + n ≤ sizeMax) :
    ∃ calls s' replies, .reset ∉ calls ∧ (machine start).run s calls = some (s', replies) ∧
      .returned .complete ∈ replies := by
  generalize hParser : s.parser = p at h
  generalize hBytes : s.input.bytes = xs at h
  induction h generalizing s with
  | complete h =>
    subst hParser hBytes
    obtain ⟨s', hNext, -⟩ := s.next_parse
    rw [h] at hNext
    exact ⟨[.parse], s', _, by simp, Machine.run_cons hNext rfl, List.mem_singleton.mpr rfl⟩
  | append data h ih =>
    rcases s.input.appendString_cases data with ⟨input, hAppend, hInput, hWrite⟩ | ⟨hBig, -⟩
    · obtain ⟨calls, s', replies, hReset, hRun, hComplete⟩ := @ih { s with input }
        (by dsimp only; omega) hParser (by rw [hInput, hBytes])
      have hNext : (machine start).next s (.append data false) = some ({ s with input }, []) := by
        simp [machine, next, Buffer.appendOr, hAppend]
      exact ⟨.append data false :: calls, s',
        replies, by simpa using hReset, Machine.run_cons hNext hRun, hComplete⟩
    · omega
  | parse h ih =>
    subst hParser hBytes
    obtain ⟨middle, hNext, hParser, hBytes, hWrite⟩ := s.next_parse
    obtain ⟨calls, s', replies, hReset, hRun, hComplete⟩ := @ih middle (by omega) hParser hBytes
    exact ⟨.parse :: calls, s', _, by simpa using hReset, Machine.run_cons hNext hRun,
      List.mem_append_right _ hComplete⟩

/-- A rejection is final exactly when the parser is then in front of a line it
can never get past: nothing that arrives later is completed before a `reset`.
In every other case it takes at most the end of a line, a request line, the
blank line and the announced body to complete a request. -/
theorem rejection_final_iff (limits : Limits) {initial : Nat} (hInitial : initial ≤ sizeMax)
    {s : Session} {trace : List Reply}
    (h : (machine (fresh limits initial hInitial)).Reaches s (trace ++ [.returned .error])) :
    (s.parser.Doomed s.input.bytes → s.Final) ∧
      (s.input.writeIdx + 18 + limits.bodyBytes ≤ sizeMax → s.Final →
      s.parser.Doomed s.input.bytes) := by
  refine ⟨fun hLost calls s' replies => not_complete_of_doomed hLost, ?_⟩
  intro hRoom hFinal
  by_contra hNot
  obtain ⟨hSane, hLimits⟩ := sane_of_reaches h
  have hRevives := HttpParser.revives_of_not_doomed hSane hNot
  rw [hLimits] at hRevives
  obtain ⟨calls, s', replies, hReset, hRun, hComplete⟩ :=
    exists_complete_of_revives s hRevives (by omega)
  exact hFinal calls s' replies hReset hRun hComplete

theorem rejection_final_iff_long_line :
    ∃ s, (machine (fresh { requestLineBytes := 8 } 64 (by decide))).Reaches s
      ([] ++ [.returned .error]) ∧ s.Final := by
  have hRun : ((machine (fresh { requestLineBytes := 8 } 64 (by decide))).run
      (fresh { requestLineBytes := 8 } 64 (by decide))
      [.append (ascii "GET / HTTP/1.1\r\n") false, .parse]).map
        (fun r => (r.2, r.1.parser.state, r.1.parser.limits.requestLineBytes, r.1.input.bytes)) =
      some ([.returned .error], .requestLine, 8, ascii "GET / HTTP/1.1\r\n") := by
    decide +kernel
  obtain ⟨⟨s, replies⟩, hRun, hView⟩ := Option.map_eq_some_iff.mp hRun
  simp only [Prod.mk.injEq] at hView
  obtain ⟨rfl, hState, hLimit, hBytes⟩ := hView
  have hReaches := Machine.Reaches.start.run hRun
  refine ⟨s, hReaches, (rejection_final_iff _ (by decide) hReaches).1 ?_⟩
  have hLine : firstLine s.input.bytes = some (ascii "GET / HTTP/1.1", []) := by
    rw [hBytes]
    rfl
  refine .overLimit hLine ?_
  simp only [HttpParser.OverLimit, hState, hLimit]
  decide

/-- The header that is refused is gone when `parse` is called again, and the
request is then complete without it. -/
theorem rejected_then_complete :
    ∃ s, (machine (fresh {} 64 (by decide))).Reaches s [.returned .error] ∧ ¬ s.Final := by
  have hRun : ((machine (fresh {} 64 (by decide))).run (fresh {} 64 (by decide))
      [.append (ascii "POST / HTTP/1.1\r\nTransfer-Encoding: chunked\r\n\r\n") false, .parse]).map
        (fun r => (r.2, (r.1.next .parse).map (·.2))) =
      some ([.returned .error], some [.returned .complete]) := by
    decide +kernel
  obtain ⟨⟨s, replies⟩, hRun, hView⟩ := Option.map_eq_some_iff.mp hRun
  simp only [Prod.mk.injEq] at hView
  obtain ⟨rfl, hAgain⟩ := hView
  obtain ⟨⟨s', again⟩, hNext, rfl⟩ := Option.map_eq_some_iff.mp hAgain
  refine ⟨s, Machine.Reaches.start.run hRun, ?_⟩
  intro hFinal
  exact hFinal [.parse] s' _ (by decide) (Machine.run_cons hNext rfl) List.mem_cons_self

end Session
end Tinycoro.Http
