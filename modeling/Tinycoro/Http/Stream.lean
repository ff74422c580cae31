import Tinycoro.Library.Incremental
import Tinycoro.Http.Parser
import Mathlib.Data.List.Infix

/-! The request parser as an incremental consumer of bytes, and the theorem
that the code over a `Buffer` computes exactly this consumer's run. The
consumer looks at complete lines only; how the bytes are stored, how often
`parse` is called and where a loop turns are gone. -/
namespace Tinycoro.Http

open Incremental

def crlf : Bytes := [13, 10]

/-- The first line and what follows its CRLF, if a CRLF has arrived. -/
def firstLine (xs : Bytes) : Option (Bytes × Bytes) :=
  (Buffer.findCrlfFrom 0 xs).map (fun n => (xs.take n, xs.drop (n + 2)))

theorem findCrlfFrom_add (i : Nat) (xs : Bytes) :
    Buffer.findCrlfFrom i xs = (Buffer.findCrlfFrom 0 xs).map (i + ·) := by
  induction xs generalizing i with
  | nil => rfl
  | cons c xs ih =>
    cases xs with
    | nil => rfl
    | cons =>
      simp only [Buffer.findCrlfFrom]
      split
      · rfl
      · rw [ih (i + 1), ih (0 + 1)]
        simp only [Option.map_map]
        congr 1
        funext n
        simp only [Function.comp_apply]
        omega

theorem firstLine_cons_of_not (c : UInt8) (xs : Bytes) (h : ¬ crlf <+: c :: xs) :
    firstLine (c :: xs) = (firstLine xs).map (fun line => (c :: line.1, line.2)) := by
  cases xs with
  | nil => rfl
  | cons d rest =>
    have hNot : ¬ (c = 13 ∧ d = 10) := by
      rintro ⟨rfl, rfl⟩
      exact h ⟨rest, rfl⟩
    simp only [firstLine, Buffer.findCrlfFrom, if_neg hNot]
    rw [findCrlfFrom_add]
    simp only [Option.map_map]
    congr 1
    funext n
    simp [Nat.add_comm]

theorem firstLine_crlf (rest : Bytes) : firstLine (13 :: 10 :: rest) = some ([], rest) := rfl

/-- The line found is the part before the first CRLF. -/
theorem firstLine_eq_some_iff (xs line rest : Bytes) :
    firstLine xs = some (line, rest) ↔ xs = line ++ crlf ++ rest ∧ ¬ crlf <:+: line := by
  induction xs generalizing line with
  | nil => simp [firstLine, Buffer.findCrlfFrom, crlf]
  | cons c xs ih =>
    by_cases hHere : crlf <+: c :: xs
    · obtain ⟨tail, hTail⟩ := hHere
      simp only [crlf, List.cons_append, List.nil_append, List.cons.injEq] at hTail
      obtain ⟨rfl, rfl⟩ := hTail
      rw [firstLine_crlf]
      constructor
      · intro h
        cases h
        exact ⟨rfl, by simp [crlf]⟩
      · rintro ⟨hEq, hNone⟩
        match line with
        | [] =>
          simp only [crlf, List.nil_append, List.cons_append, List.cons.injEq, true_and] at hEq
          rw [hEq]
        | [d] =>
          simp only [crlf, List.cons_append, List.nil_append, List.cons.injEq] at hEq
          exact absurd hEq.2.1 (by decide)
        | d :: e :: line =>
          simp only [List.cons_append, List.cons.injEq] at hEq
          obtain ⟨rfl, rfl, -⟩ := hEq
          exact absurd ⟨[], line, rfl⟩ hNone
    · rw [firstLine_cons_of_not c xs hHere]
      constructor
      · intro h
        obtain ⟨⟨line', rest'⟩, hLine, hEq⟩ := Option.map_eq_some_iff.mp h
        cases hEq
        obtain ⟨rfl, hNone⟩ := (ih line').mp hLine
        refine ⟨rfl, ?_⟩
        intro hInfix
        rcases List.infix_cons_iff.mp hInfix with hPrefix | hInner
        · apply hHere
          rw [← List.cons_append, ← List.cons_append]
          exact hPrefix.trans ((List.prefix_append _ _).trans (List.prefix_append _ _))
        · exact hNone hInner
      · rintro ⟨hEq, hNone⟩
        cases line with
        | nil =>
          apply absurd _ hHere
          rw [hEq, List.nil_append]
          exact List.prefix_append _ _
        | cons d line =>
          simp only [List.cons_append, List.cons.injEq] at hEq
          obtain ⟨rfl, rfl⟩ := hEq
          have hLine : ¬ crlf <:+: line := fun h =>
              hNone (h.trans (List.suffix_cons c line).isInfix)
          rw [(ih line).mpr ⟨rfl, hLine⟩]
          rfl

theorem firstLine_eq_none_iff (xs : Bytes) : firstLine xs = none ↔ ¬ crlf <:+: xs := by
  induction xs with
  | nil => simp [firstLine, Buffer.findCrlfFrom, crlf]
  | cons c xs ih =>
    by_cases hHere : crlf <+: c :: xs
    · obtain ⟨tail, hTail⟩ := hHere
      simp only [crlf, List.cons_append, List.nil_append, List.cons.injEq] at hTail
      obtain ⟨rfl, rfl⟩ := hTail
      rw [firstLine_crlf]
      simp only [reduceCtorEq, false_iff, not_not]
      exact ⟨[], tail, rfl⟩
    · rw [firstLine_cons_of_not c xs hHere, Option.map_eq_none_iff, ih, List.infix_cons_iff]
      simp [hHere]

theorem firstLine_append {xs line rest : Bytes} (h : firstLine xs = some (line, rest))
    (ys : Bytes) : firstLine (xs ++ ys) = some (line, rest ++ ys) := by
  rw [firstLine_eq_some_iff] at h ⊢
  obtain ⟨rfl, hNone⟩ := h
  exact ⟨by simp, hNone⟩

theorem length_of_firstLine {xs line rest : Bytes} (h : firstLine xs = some (line, rest)) :
    xs.length = line.length + 2 + rest.length := by
  obtain ⟨rfl, -⟩ := (firstLine_eq_some_iff _ _ _).mp h
  simp only [crlf, List.length_append, List.length_cons, List.length_nil]

namespace HttpParser

/-- One look of the parser at the bytes that have arrived. -/
def advance (p : HttpParser) (xs : Bytes) : Verdict HttpParser Result UInt8 :=
  match p.state with
  | .requestLine =>
    match firstLine xs with
    | none => if xs.length > p.limits.requestLineBytes then .stop .error p xs else .wait
    | some (line, rest) =>
      if line.length > p.limits.requestLineBytes then .stop .error p xs
      else if (p.acceptRequestLine line).2 then .step (p.acceptRequestLine line).1 rest
      else .stop .error (p.acceptRequestLine line).1 rest
  | .headers =>
    match firstLine xs with
    | none => if p.headerBytes + xs.length > p.limits.headerBytes then .stop .error p xs else .wait
    | some (line, rest) =>
      if p.headerBytes + line.length + 2 > p.limits.headerBytes then .stop .error p xs
      else
        let p := { p with headerBytes := p.headerBytes + (line.length + 2) }
        if line = [] then
          .step { p with state := if p.contentLength = 0 then .done else .body } rest
        else match p.acceptHeader line with
          | none => .stop .error p rest
          | some p => .step p rest
  | .body =>
    if p.contentLength > p.limits.bodyBytes then .stop .error p xs
    else if xs.length < p.contentLength then .wait
    else .stop .complete
      { p with request := { p.request with body := xs.take p.contentLength }, state := .done }
      (xs.drop p.contentLength)
  | .done => .stop .complete p xs

theorem advance_done {p : HttpParser} (hState : p.state = .done) (xs : Bytes) :
    p.advance xs = .stop .complete p xs := by
  simp [advance, hState]

/-- Everything a step can be: an accepted request line, the blank line, or an
accepted header line, each behind its limit check. -/
theorem advance_step_cases {p p' : HttpParser} {xs rest : Bytes}
    (h : p.advance xs = .step p' rest) :
    ∃ line, firstLine xs = some (line, rest) ∧
      ((p.state = .requestLine ∧ line.length ≤ p.limits.requestLineBytes ∧
          p.acceptRequestLine line = (p', true)) ∨
        (p.state = .headers ∧ p.headerBytes + line.length + 2 ≤ p.limits.headerBytes ∧
          ((line = [] ∧ p' = { p with
              headerBytes := p.headerBytes + (line.length + 2)
              state := if p.contentLength = 0 then .done else .body }) ∨
            (line ≠ [] ∧
              { p with headerBytes := p.headerBytes + (line.length + 2) }.acceptHeader line =
                some p')))) := by
  unfold advance at h
  cases hState : p.state with
  | requestLine =>
    simp only [hState] at h
    cases hLine : firstLine xs with
    | none => simp only [hLine] at h; split at h <;> cases h
    | some found =>
      obtain ⟨line, left⟩ := found
      simp only [hLine] at h
      split at h
      · cases h
      split at h
      · rename_i hLimit hOk
        cases h
        exact ⟨line, rfl, .inl ⟨rfl, Nat.le_of_not_lt hLimit, Prod.ext rfl hOk⟩⟩
      · cases h
  | headers =>
    simp only [hState] at h
    cases hLine : firstLine xs with
    | none => simp only [hLine] at h; split at h <;> cases h
    | some found =>
      obtain ⟨line, left⟩ := found
      simp only [hLine] at h
      split at h
      · cases h
      rename_i hLimit
      split at h
      · rename_i hBlank
        cases h
        exact ⟨line, rfl, .inr ⟨rfl, Nat.le_of_not_lt hLimit, .inl ⟨hBlank, rfl⟩⟩⟩
      · rename_i hBlank
        split at h
        · cases h
        · rename_i hAccept
          cases h
          exact ⟨line, rfl, .inr ⟨rfl, Nat.le_of_not_lt hLimit, .inr ⟨hBlank, hAccept⟩⟩⟩
  | body =>
    simp only [hState] at h
    split at h
    · cases h
    · split at h <;> cases h
  | done =>
    simp only [hState] at h
    cases h

theorem advance_requestLine {p p' : HttpParser} {xs line rest : Bytes}
    (hState : p.state = .requestLine) (hLine : firstLine xs = some (line, rest))
    (hLimit : line.length ≤ p.limits.requestLineBytes)
    (hAccept : p.acceptRequestLine line = (p', true)) : p.advance xs = .step p' rest := by
  simp [advance, hState, hLine, Nat.not_lt.mpr hLimit, hAccept]

theorem advance_blankLine {p : HttpParser} {xs rest : Bytes} (hState : p.state = .headers)
    (hLine : firstLine xs = some ([], rest)) (hLimit : p.headerBytes + 2 ≤ p.limits.headerBytes) :
    p.advance xs = .step { p with
      headerBytes := p.headerBytes + 2
      state := if p.contentLength = 0 then .done else .body } rest := by
  simp [advance, hState, hLine, Nat.not_lt.mpr hLimit]

theorem advance_headerLine {p p' : HttpParser} {xs line rest : Bytes} (hState : p.state = .headers)
    (hLine : firstLine xs = some (line, rest))
    (hLimit : p.headerBytes + line.length + 2 ≤ p.limits.headerBytes) (hNonempty : line ≠ [])
    (hAccept : { p with headerBytes := p.headerBytes + (line.length + 2) }.acceptHeader line =
      some p') : p.advance xs = .step p' rest := by
  rw [hState] at hAccept
  simp [advance, hState, hLine, Nat.not_lt.mpr hLimit, hNonempty, hAccept]

/-- The parser as a consumer: its steps read whole lines, so they neither look
at nor depend on later bytes. -/
def consumer : Consumer HttpParser Result UInt8 where
  advance := advance
  progress := by
    intro p xs p' rest h
    obtain ⟨line, hLine, -⟩ := advance_step_cases h
    have hLength := length_of_firstLine hLine
    omega
  step_append := by
    intro p xs p' rest ys h
    obtain ⟨line, hLine, hCase⟩ := advance_step_cases h
    have hMore := firstLine_append hLine ys
    rcases hCase with ⟨hState, hLimit, hAccept⟩ | ⟨hState, hLimit,
      ⟨rfl, rfl⟩ | ⟨hNonempty, hAccept⟩⟩
    · exact advance_requestLine hState hMore hLimit hAccept
    · exact advance_blankLine hState hMore hLimit
    · exact advance_headerLine hState hMore hLimit hNonempty hAccept

theorem run_step {p p' : HttpParser} {xs rest : Bytes} (h : p.advance xs = .step p' rest) :
    consumer.run p xs = consumer.run p' rest :=
  Consumer.run_of_step h

theorem run_wait {p : HttpParser} {xs : Bytes} (h : p.advance xs = .wait) :
    consumer.run p xs = (none, p, xs) :=
  Consumer.run_of_wait h

theorem run_stop {p p' : HttpParser} {xs rest : Bytes} {result : Result}
    (h : p.advance xs = .stop result p' rest) : consumer.run p xs = (some result, p', rest) :=
  Consumer.run_of_stop h

/-- The consumer is complete behind the body it has read, or was complete before. -/
theorem advance_complete_cases {p p' : HttpParser} {xs rest : Bytes}
    (h : p.advance xs = .stop .complete p' rest) :
    (p.state = .body ∧ p.contentLength ≤ p.limits.bodyBytes ∧ p.contentLength ≤ xs.length ∧
        p' = { p with request := { p.request with body := xs.take p.contentLength }, state :=
        .done } ∧
        rest = xs.drop p.contentLength) ∨
      (p.state = .done ∧ p' = p ∧ rest = xs) := by
  unfold advance at h
  cases hState : p.state with
  | requestLine =>
    simp only [hState] at h
    split at h <;> split_ifs at h <;> cases h
  | headers =>
    simp only [hState] at h
    split at h
    · split_ifs at h
      cases h
    · split at h
      · cases h
      · split at h
        · cases h
        · split at h <;> cases h
  | body =>
    simp only [hState] at h
    split_ifs at h with hLimit hShort
    · cases h
    · simp only [Verdict.stop.injEq] at h
      exact .inl ⟨rfl, Nat.le_of_not_lt hLimit, Nat.le_of_not_lt hShort, h.2.1.symm, h.2.2.symm⟩
  | done =>
    simp only [hState] at h
    cases h
    exact .inr ⟨rfl, rfl, rfl⟩

/-- The rejections in front of the headers. -/
theorem advance_error_requestLine {p : HttpParser} (hState : p.state = .requestLine) (xs : Bytes) :
    (∃ p' rest, p.advance xs = .stop .error p' rest) ↔
      match firstLine xs with
      | none => p.limits.requestLineBytes < xs.length
      | some (line, _) =>
        p.limits.requestLineBytes < line.length ∨ (p.acceptRequestLine line).2 = false := by
  simp only [advance, hState]
  cases firstLine xs with
  | none => by_cases hLong : xs.length > p.limits.requestLineBytes <;> simp [hLong]
  | some found =>
    obtain ⟨line, rest⟩ := found
    by_cases hLong : line.length > p.limits.requestLineBytes
    · simp [hLong]
    · cases hOk : (p.acceptRequestLine line).2 <;> simp [hLong, hOk]

/-- One header line with its limit check, as a step of the header loop. -/
def acceptLine (p : HttpParser) (header : Bytes) : Option HttpParser :=
  if p.headerBytes + header.length + 2 > p.limits.headerBytes then none
  else { p with headerBytes := p.headerBytes + (header.length + 2) }.acceptHeader header

/-- The rejections inside the headers. -/
theorem advance_error_headers {p : HttpParser} (hState : p.state = .headers) (xs : Bytes) :
    (∃ p' rest, p.advance xs = .stop .error p' rest) ↔
      match firstLine xs with
      | none => p.limits.headerBytes < p.headerBytes + xs.length
      | some (line, _) =>
        p.limits.headerBytes < p.headerBytes + line.length + 2 ∨
          (line ≠ [] ∧ p.acceptLine line = none) := by
  simp only [advance, acceptLine, hState]
  cases firstLine xs with
  | none => by_cases hLong : p.headerBytes + xs.length > p.limits.headerBytes <;> simp [hLong]
  | some found =>
    obtain ⟨line, rest⟩ := found
    by_cases hLong : p.headerBytes + line.length + 2 > p.limits.headerBytes
    · simp [hLong]
    · simp only [if_neg hLong]
      by_cases hBlank : line = []
      · simp only [if_pos hBlank, reduceCtorEq, exists_false, false_iff, not_or]
        exact ⟨hLong, fun h => h.1 hBlank⟩
      · simp only [if_neg hBlank]
        split
        · rename_i hNone
          simp [hBlank, hNone]
        · rename_i p' hSome
          simp only [reduceCtorEq, exists_false, false_iff, not_or, not_and]
          exact ⟨hLong, fun _ hNone => by simp [hSome] at hNone⟩

theorem run_error_of_advance {p : HttpParser} {xs : Bytes}
    (h : ∃ p' rest, p.advance xs = .stop .error p' rest) : (consumer.run p xs).1 = some .error := by
  obtain ⟨p', rest, hStop⟩ := h
  rw [run_stop hStop]

/-- A completed request stays completed, whatever bytes follow it. -/
theorem settled_complete : consumer.Settled .complete := by
  intro p xs p' rest h ys
  change p.advance (xs ++ ys) = _
  rcases advance_complete_cases h with ⟨hState, hLimit, hEnough, rfl, rfl⟩ | ⟨hState, rfl, rfl⟩
  · have hLong : ¬ (xs ++ ys).length < p.contentLength := by
      rw [List.length_append]
      omega
    simp only [advance, hState, if_neg (Nat.not_lt.mpr hLimit), if_neg hLong]
    rw [List.take_append_of_le_length hEnough, List.drop_append_of_le_length hEnough]
  · simp only [advance, hState]

/-- What is left of the request in each state, to order the turns of `parse`. -/
def rank : State → Nat
  | .requestLine => 3
  | .headers => 2
  | .body => 1
  | .done => 0

/-- A call over a buffer agrees with the consumer's run over its bytes: either
the call has the run's result, or the run goes on from where the call returned.
In the latter case the call has moved to a later state or the consumer waits. -/
def Tracks (p : HttpParser) (buffer : Buffer)
    (outcome : Except StdError (Result × HttpParser × Buffer)) : Prop :=
  ∃ result p' buffer', outcome = .ok (result, p', buffer') ∧ buffer'.writeIdx ≤ buffer.writeIdx ∧
    ((result ≠ .incomplete ∧ consumer.run p buffer.bytes = (some result, p', buffer'.bytes)) ∨
      (result = .incomplete ∧ consumer.run p buffer.bytes = consumer.run p' buffer'.bytes ∧
        (rank p'.state < rank p.state ∨
          (p'.state = p.state ∧ p'.advance buffer'.bytes = .wait))))

variable {buffer : Buffer}

theorem Tracks.of_stop {p p' : HttpParser} {buffer' : Buffer} {result : Result} {rest : Bytes}
    (hStop : p.advance buffer.bytes = .stop result p' rest) (hResult : result ≠ .incomplete)
    (hRest : buffer'.bytes = rest) (hWrite : buffer'.writeIdx ≤ buffer.writeIdx) :
    Tracks p buffer (.ok (result, p', buffer')) := by
  refine ⟨result, p', buffer', rfl, hWrite, .inl ⟨hResult, ?_⟩⟩
  rw [hRest]
  exact run_stop hStop

theorem Tracks.of_wait {p : HttpParser} (hWait : p.advance buffer.bytes = .wait) :
    Tracks p buffer (.ok (.incomplete, p, buffer)) :=
  ⟨.incomplete, p, buffer, rfl, Nat.le_refl _, .inr ⟨rfl, rfl, .inr ⟨rfl, hWait⟩⟩⟩

theorem Tracks.of_step {p p' : HttpParser} {buffer' : Buffer} {rest : Bytes}
    (hStep : p.advance buffer.bytes = .step p' rest) (hRest : buffer'.bytes = rest)
    (hWrite : buffer'.writeIdx ≤ buffer.writeIdx) (hRank : rank p'.state < rank p.state) :
    Tracks p buffer (.ok (.incomplete, p', buffer')) := by
  refine ⟨.incomplete, p', buffer', rfl, hWrite, .inr ⟨rfl, ?_, .inl hRank⟩⟩
  rw [hRest]
  exact run_step hStep

theorem findCrlf_eq_none (h : firstLine buffer.bytes = none) : buffer.findCrlf = none :=
  Option.map_eq_none_iff.mp h

/-- A line found in the buffer is copied out and consumed without an exception. -/
theorem findCrlf_eq_some {line rest : Bytes} (h : firstLine buffer.bytes = some (line, rest)) :
    buffer.findCrlf = some line.length ∧ buffer.readPtr.take line.length = line ∧
      ∃ buffer', buffer.consume (line.length + 2) = .ok buffer' ∧ buffer'.bytes = rest ∧
        buffer'.writeIdx ≤ buffer.writeIdx := by
  have hLength := length_of_firstLine h
  rw [Buffer.length_bytes] at hLength
  obtain ⟨buffer', hConsume, hBytes, hWrite⟩ := buffer.consume_ok (line.length + 2) (by omega)
  obtain ⟨n, hFind, hParts⟩ := Option.map_eq_some_iff.mp h
  have hEq := ((firstLine_eq_some_iff _ _ _).mp h).1
  have hTake : buffer.bytes.take line.length = line := by simp [hEq]
  have hN : n = line.length := by
    have hLe : n ≤ line.length ∨ line.length < n := Nat.lt_or_ge line.length n |>.symm
    have hFirst := congrArg (fun pair => pair.1.length) hParts
    have hSecond := congrArg (fun pair => pair.2.length) hParts
    simp only [List.length_take, List.length_drop, Buffer.length_bytes] at hFirst hSecond
    omega
  refine ⟨?_, ?_, buffer', hConsume, ?_, hWrite⟩
  · rw [← hN]
    exact hFind
  · rw [Buffer.take_readPtr _ _ (by omega), hTake]
  · rw [hBytes, hEq, List.append_assoc, ← List.drop_drop]
    simp [crlf]

/-- The request line is read from the buffer as the consumer reads it from the bytes. -/
theorem parseRequestLine_tracks {p : HttpParser} (buffer : Buffer)
    (hState : p.state = .requestLine) : Tracks p buffer (p.parseRequestLine buffer) := by
  unfold parseRequestLine
  cases hLine : firstLine buffer.bytes with
  | none =>
    rw [findCrlf_eq_none hLine]
    dsimp only
    rw [← Buffer.length_bytes]
    split_ifs with hLong
    · exact .of_stop (by simp [advance, hState, hLine, hLong]) (by decide) rfl (Nat.le_refl _)
    · exact .of_wait (by simp [advance, hState, hLine, hLong])
  | some found =>
    obtain ⟨line, rest⟩ := found
    obtain ⟨hFind, hTake, buffer', hConsume, hBytes, hWrite⟩ := findCrlf_eq_some hLine
    simp only [hFind, hTake, hConsume, bind, Except.bind, pure, Except.pure]
    by_cases hLong : line.length > p.limits.requestLineBytes
    · rw [if_pos hLong]
      exact .of_stop (by simp [advance, hState, hLine, hLong]) (by decide) rfl (Nat.le_refl _)
    · rw [if_neg hLong]
      cases hOk : (p.acceptRequestLine line).2 with
      | true =>
        refine .of_step ?_ hBytes hWrite ?_
        · simp [advance, hState, hLine, hLong, hOk]
        · have hNext : (p.acceptRequestLine line).1.state = .headers := by
            unfold acceptRequestLine at hOk ⊢
            dsimp only at hOk ⊢
            split_ifs at hOk ⊢
            rfl
          rw [hNext, hState]
          decide
      | false =>
        refine .of_stop ?_ (by decide) hBytes hWrite
        simp [advance, hState, hLine, hLong, hOk]

theorem parseBody_tracks {p : HttpParser} (buffer : Buffer) (hState : p.state = .body) :
    Tracks p buffer (p.parseBody buffer) := by
  unfold parseBody
  split_ifs with hLimit hShort
  · exact .of_stop (by simp [advance, hState, hLimit]) (by decide) rfl (Nat.le_refl _)
  · rw [← Buffer.length_bytes] at hShort
    exact .of_wait (by simp [advance, hState, hLimit, hShort])
  · obtain ⟨buffer', hConsume, hBytes, hWrite⟩ := buffer.consume_ok _ (Nat.le_of_not_lt hShort)
    rw [Buffer.take_readPtr _ _ (Nat.le_of_not_lt hShort)]
    rw [← Buffer.length_bytes] at hShort
    simp only [hConsume, bind, Except.bind, pure, Except.pure]
    exact .of_stop (by simp [advance, hState, hLimit, hShort]) (by decide) hBytes hWrite

theorem acceptFraming_state {p p' : HttpParser} {key value : Bytes}
    (h : p.acceptFraming key value = some p') : p'.state = p.state := by
  unfold acceptFraming at h
  split at h
  · split at h
    · cases h
    · split_ifs at h
      cases h
      rfl
  · split_ifs at h
    cases h
    rfl

theorem acceptHeader_state {p p' : HttpParser} {line : Bytes} (h : p.acceptHeader line = some p') :
    p'.state = p.state := by
  unfold acceptHeader at h
  split at h
  · cases h
  · dsimp only at h
    split_ifs at h
    obtain ⟨q, hFraming, rfl⟩ := Option.map_eq_some_iff.mp h
    exact (acceptFraming_state hFraming :)

/-- A step in front of a tracked call is tracked as well, if it keeps the state. -/
theorem Tracks.step {p p' : HttpParser} {buffer buffer' : Buffer} {rest : Bytes}
    {outcome : Except StdError (Result × HttpParser × Buffer)}
    (hStep : p.advance buffer.bytes = .step p' rest) (hRest : buffer'.bytes = rest)
    (hWrite : buffer'.writeIdx ≤ buffer.writeIdx) (hState : p'.state = p.state)
    (h : Tracks p' buffer' outcome) : Tracks p buffer outcome := by
  obtain ⟨result, q, last, hOutcome, hLast, hRun⟩ := h
  have hFirst : consumer.run p buffer.bytes = consumer.run p' buffer'.bytes := by
    rw [hRest]
    exact run_step hStep
  refine ⟨result, q, last, hOutcome, hLast.trans hWrite, ?_⟩
  rw [hFirst, ← hState]
  exact hRun

/-- The header lines likewise, with fuel for every byte that is left. -/
theorem parseHeadersLoop_tracks {p : HttpParser} {fuel : Nat} (hState : p.state = .headers)
    (hFuel : buffer.bytes.length < fuel) : Tracks p buffer (parseHeadersLoop fuel p buffer) := by
  induction fuel generalizing p buffer with
  | zero => exact absurd hFuel (Nat.not_lt_zero _)
  | succ fuel ih =>
    simp only [parseHeadersLoop, parseHeaderLine, bind, Except.bind, pure, Except.pure]
    cases hLine : firstLine buffer.bytes with
    | none =>
      simp only [findCrlf_eq_none hLine, ← Buffer.length_bytes]
      split_ifs with hLong
      · exact .of_stop (by simp [advance, hState, hLine, hLong]) (by decide) rfl (Nat.le_refl _)
      · exact .of_wait (by simp [advance, hState, hLine, hLong])
    | some found =>
      obtain ⟨line, rest⟩ := found
      obtain ⟨hFind, hTake, buffer', hConsume, hBytes, hWrite⟩ := findCrlf_eq_some hLine
      simp only [hFind, hTake]
      by_cases hLong : p.headerBytes + line.length + 2 > p.limits.headerBytes
      · rw [if_pos hLong]
        exact .of_stop (by simp [advance, hState, hLine, hLong]) (by decide) rfl (Nat.le_refl _)
      rw [if_neg hLong]
      have hFits := Nat.le_of_not_lt hLong
      cases line with
      | nil =>
        simp only [List.length_nil, Nat.zero_add] at hConsume
        simp only [List.length_nil, Nat.zero_add, if_true, hConsume]
        refine .of_step (advance_blankLine hState hLine hFits) hBytes hWrite ?_
        rw [hState]
        dsimp only
        split_ifs <;> decide
      | cons c line =>
        rw [if_neg (by simp)]
        simp only [hConsume]
        have hNonempty : c :: line ≠ [] := by simp
        cases hAccept : { p with
            headerBytes := p.headerBytes + ((c :: line).length + 2) }.acceptHeader (c :: line) with
        | none =>
          refine .of_stop ?_ (by decide) hBytes hWrite
          rw [hState] at hAccept
          simp only [advance, hState, hLine, if_neg hLong, if_neg hNonempty, hAccept]
        | some p' =>
          have hStep := advance_headerLine hState hLine hFits hNonempty hAccept
          have hSame : p'.state = p.state := (acceptHeader_state hAccept :)
          refine .step hStep hBytes hWrite hSame (ih (hSame.trans hState) ?_)
          have hShorter := consumer.progress hStep
          rw [hBytes]
          omega

theorem parseHeaders_tracks {p : HttpParser} (buffer : Buffer) (hState : p.state = .headers) :
    Tracks p buffer (p.parseHeaders buffer) := by
  apply parseHeadersLoop_tracks hState
  rw [Buffer.length_bytes]
  omega

theorem parseState_tracks (p : HttpParser) (buffer : Buffer) :
    Tracks p buffer (p.parseState buffer) := by
  unfold parseState
  cases hState : p.state with
  | requestLine => exact parseRequestLine_tracks buffer hState
  | headers => exact parseHeaders_tracks buffer hState
  | body => exact parseBody_tracks buffer hState
  | done => exact .of_stop (advance_done hState _) (by decide) rfl (Nat.le_refl _)

/-- The loop of `parse` runs the consumer until it stops or waits. The fuel is enough because
each turn goes to a later state. -/
theorem parseLoop_tracks {p : HttpParser} {fuel : Nat} (hFuel : rank p.state < fuel) :
    ∃ buffer', parseLoop fuel p buffer = .ok
        ((consumer.run p buffer.bytes).1.getD .incomplete, (consumer.run p buffer.bytes).2.1,
        buffer') ∧
      buffer'.bytes = (consumer.run p buffer.bytes).2.2 ∧ buffer'.writeIdx ≤ buffer.writeIdx := by
  induction fuel generalizing p buffer with
  | zero => exact absurd hFuel (Nat.not_lt_zero _)
  | succ fuel ih =>
    obtain ⟨result, p', buffer', hOutcome, hWrite, hRun⟩ := parseState_tracks p buffer
    simp only [parseLoop, bind, Except.bind, pure, Except.pure, hOutcome]
    rcases hRun with ⟨hStopped, hRun⟩ | ⟨rfl, hRun, hLater | ⟨hSame, hWait⟩⟩
    · have hEnds : result = .error ∨ result = .complete := by
        cases result <;> simp_all
      rw [if_pos hEnds]
      exact ⟨buffer', by simp [hRun], by simp [hRun], hWrite⟩
    · have hMoved : p'.state ≠ p.state := by
        intro hEq
        rw [hEq] at hLater
        exact Nat.lt_irrefl _ hLater
      rw [if_neg (by decide), if_neg hMoved, hRun]
      have hRank : rank p'.state < fuel := by omega
      obtain ⟨last, hLoop, hBytes, hLast⟩ := @ih buffer' p' hRank
      exact ⟨last, hLoop, hBytes, hLast.trans hWrite⟩
    · rw [if_neg (by decide), if_pos hSame, hRun, run_wait hWait]
      exact ⟨buffer', rfl, rfl, hWrite⟩

/-- One call of `parse` is one run of the consumer over the readable bytes. It
never throws, and it leaves exactly the bytes that the run did not read. -/
theorem parse_eq_run (p : HttpParser) (buffer : Buffer) :
    ∃ buffer', p.parse buffer = .ok
        ((consumer.run p buffer.bytes).1.getD .incomplete, (consumer.run p buffer.bytes).2.1,
        buffer') ∧
      buffer'.bytes = (consumer.run p buffer.bytes).2.2 ∧ buffer'.writeIdx ≤ buffer.writeIdx := by
  apply parseLoop_tracks
  cases p.state <;> decide

/-- The parser stops with `COMPLETE` or `ERROR` only. -/
theorem advance_ne_incomplete {p p' : HttpParser} {xs rest : Bytes} :
    p.advance xs ≠ .stop .incomplete p' rest := by
  intro h
  unfold advance at h
  repeat' (first | cases h | split at h | (dsimp only at h; split at h))

theorem run_ne_incomplete (p : HttpParser) (xs : Bytes) :
    (consumer.run p xs).1 ≠ some .incomplete := by
  apply Consumer.run_induction (M := consumer) (P := fun _ _ => True)
    (Q := fun outcome => outcome.1 ≠ some .incomplete)
  · exact fun _ _ => trivial
  · exact fun _ _ => by simp
  · intro p xs result p' rest _ h hEq
    cases hEq
    exact advance_ne_incomplete h
  · trivial

/-- `parse` returns `COMPLETE` or `ERROR` exactly where the run stops with it. -/
theorem parse_ok_iff {result : Result} (hResult : result ≠ .incomplete) (p p' : HttpParser)
    (buffer : Buffer) (rest : Bytes) :
    (∃ buffer', p.parse buffer = .ok (result, p', buffer') ∧ buffer'.bytes = rest) ↔
      consumer.run p buffer.bytes = (some result, p', rest) := by
  obtain ⟨parsed, hParse, hBytes, -⟩ := parse_eq_run p buffer
  rcases hRun : consumer.run p buffer.bytes with ⟨stopped, q, left⟩
  rw [hRun] at hParse hBytes
  dsimp only at hParse hBytes
  constructor
  · rintro ⟨buffer', hOk, rfl⟩
    rw [hParse] at hOk
    simp only [Except.ok.injEq, Prod.mk.injEq] at hOk
    obtain ⟨hStopped, rfl, rfl⟩ := hOk
    cases stopped with
    | none => exact absurd hStopped.symm hResult
    | some => rw [hBytes, ← hStopped, Option.getD_some]
  · intro hEq
    cases hEq
    exact ⟨parsed, hParse, hBytes⟩

/-- Only a rejection can depend on bytes that have not arrived. -/
theorem settled_of_ne_error {result : Result} (h : result ≠ .error) : consumer.Settled result := by
  cases result with
  | incomplete => exact fun _ _ _ _ hStop => absurd hStop advance_ne_incomplete
  | complete => exact settled_complete
  | error => exact absurd rfl h

end HttpParser
end Tinycoro.Http
