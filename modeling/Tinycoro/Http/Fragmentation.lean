import Tinycoro.Http.Grammar

/-! A request that arrives in pieces. The pieces are appended to a buffer one
at a time and `parse` runs after each, up to the first `COMPLETE` or `ERROR`.
Success and waiting do not depend on the cuts. A rejection does in one case:
the size check made while no CRLF has arrived counts a lone CR as part of the
request line. -/
namespace Tinycoro.Http

open Incremental

namespace HttpParser

/-- Append the chunks one at a time and parse after each, until a call returns
`COMPLETE` or `ERROR` or the chunks run out. The chunks not fed are returned. -/
def parseChunks (p : HttpParser) (buffer : Buffer) :
    List Bytes → Except StdError (Result × HttpParser × Buffer × List Bytes)
  | [] => .ok (.incomplete, p, buffer, [])
  | chunk :: chunks => do
    let buffer ← buffer.appendString chunk
    let (result, p, buffer) ← p.parse buffer
    match result with
    | .incomplete => parseChunks p buffer chunks
    | _ => return (result, p, buffer, chunks)

/-- The chunked run never throws while the chunks fit in `size_t`, and it is
the consumer's run over the pieces. -/
theorem parseChunks_eq_feed (p : HttpParser) (buffer : Buffer) (chunks : List Bytes)
    (hRoom : buffer.writeIdx + chunks.flatten.length ≤ sizeMax) :
    ∃ buffer' unfed,
      p.parseChunks buffer chunks = .ok ((consumer.feed p buffer.bytes chunks).1.getD .incomplete,
        (consumer.feed p buffer.bytes chunks).2.1, buffer', unfed) ∧
      buffer'.bytes ++ unfed.flatten = (consumer.feed p buffer.bytes chunks).2.2 := by
  induction chunks generalizing p buffer with
  | nil => exact ⟨buffer, [], rfl, List.append_nil _⟩
  | cons chunk chunks ih =>
    rw [List.flatten_cons, List.length_append] at hRoom
    rcases buffer.appendString_cases chunk with ⟨filled, hAppend, hFilled, hWrite⟩ | ⟨hBig, -⟩
    · obtain ⟨parsed, hParse, hParsed, hLe⟩ := parse_eq_run p filled
      have hNever := run_ne_incomplete p filled.bytes
      simp only [parseChunks, Consumer.feed, hAppend, hParse, bind, Except.bind, pure, Except.pure,
        ← hFilled]
      rcases hRun : consumer.run p filled.bytes with ⟨result, p', rest⟩
      rw [hRun] at hParsed hNever
      dsimp only at hParsed
      cases result with
      | none =>
        subst hParsed
        exact ih p' parsed (by omega)
      | some result =>
        cases result with
        | incomplete => exact absurd rfl hNever
        | complete | error => exact ⟨parsed, chunks, rfl, by rw [hParsed]⟩
    · omega

/-- A fresh buffer has room for any pieces whose concatenation some buffer
holds. -/
theorem create_room {initial : Nat} (hInitial : initial ≤ sizeMax) {whole : Buffer}
    {chunks : List Bytes} (hWhole : whole.bytes = chunks.flatten) :
    (Buffer.create initial hInitial).writeIdx + chunks.flatten.length ≤ sizeMax := by
  rw [← hWhole]
  change 0 + whole.bytes.length ≤ sizeMax
  rw [Nat.zero_add]
  exact whole.bytes_length_le

/-- Cutting a request into chunks changes neither a success nor a wait: the
result, the whole parser with the request in it, and the unconsumed bytes are
those of one `parse` call on everything. What one call rejects is rejected in
chunks too. -/
theorem parseChunks_eq_parse (limits : Limits) (initial : Nat) (hInitial : initial ≤ sizeMax)
    {whole : Buffer} {chunk : Bytes} {chunks : List Bytes}
    (hWhole : whole.bytes = (chunk :: chunks).flatten) :
    ∃ result p buffer unfed result' p' buffer',
      (create limits).parseChunks (Buffer.create initial hInitial) (chunk :: chunks) =
        .ok (result, p, buffer, unfed) ∧
      (create limits).parse whole = .ok (result', p', buffer') ∧
      (result ≠ .error →
        result = result' ∧ p = p' ∧ buffer.bytes ++ unfed.flatten = buffer'.bytes) ∧
      (result' = .error → result = .error) := by
  obtain ⟨buffer, unfed, hChunks, hLeft⟩ := parseChunks_eq_feed (create limits) _ (chunk :: chunks)
    (create_room hInitial hWhole)
  obtain ⟨buffer', hParse, hRest, -⟩ := parse_eq_run (create limits) whole
  rw [Buffer.bytes_create] at hChunks hLeft
  have hSame : (consumer.feed (create limits) [] (chunk :: chunks)).1 ≠ some .error →
      consumer.feed (create limits) [] (chunk :: chunks) = consumer.run (create limits)
      whole.bytes := by
    intro hResult
    rw [hWhole]
    apply Consumer.feed_eq_run
    intro result hStop
    exact settled_of_ne_error (fun hError => hResult (hError ▸ hStop))
  refine ⟨_, _, buffer, unfed, _, _, buffer', hChunks, hParse, ?_, ?_⟩
  · intro hResult
    have hEq := hSame (fun hError => hResult (by rw [hError]; rfl))
    rw [hLeft, hRest, hEq]
    exact ⟨rfl, rfl, rfl⟩
  · intro hResult
    by_contra hOther
    have hEq := hSame (fun hError => hOther (by rw [hError]; rfl))
    rw [hEq] at hOther
    exact hOther hResult

/-- A small request cut between the CR and the LF of its line. -/
theorem parseChunks_eq_parse_split_crlf :
    ∃ result p buffer unfed result' p' buffer',
      (create {}).parseChunks (Buffer.create 1 (by decide))
          [ascii "GET / HTTP/1.1\r", ascii "\n\r\n"] = .ok (result, p, buffer, unfed) ∧
      (create {}).parse (Buffer.holding (ascii "GET / HTTP/1.1\r\n\r\n") (by decide)) =
        .ok (result', p', buffer') ∧
      (result ≠ .error →
        result = result' ∧ p = p' ∧ buffer.bytes ++ unfed.flatten = buffer'.bytes) ∧
      (result' = .error → result = .error) :=
  parseChunks_eq_parse {} 1 (by decide) (by rw [Buffer.bytes_holding]; decide)

end HttpParser

/-- The cut that the early check gets wrong: it falls between the CR and the LF
behind a request line of exactly the allowed length. -/
def CutAtLimit (limits : Limits) (xs ys : Bytes) : Prop :=
  ∃ line rest, xs = line ++ [13] ∧ ys = 10 :: rest ∧
    line.length = limits.requestLineBytes ∧ ¬ crlf <:+: line

variable {xs : Bytes} {limits : Limits}

/-- A line that ends behind bytes without a CRLF ends at their last CR, or
later. -/
theorem line_of_append {ys line rest : Bytes} (hCrlf : ¬ crlf <:+: xs)
    (h : xs ++ ys = line ++ crlf ++ rest) :
    xs.length ≤ line.length ∨ (xs = line ++ [13] ∧ ys = 10 :: rest) := by
  rw [List.append_assoc] at h
  rcases List.append_eq_append_iff.mp h with ⟨after, hLine, -⟩ | ⟨after, hXs, hAfter⟩
  · left
    rw [hLine, List.length_append]
    exact Nat.le_add_right _ _
  · match after with
    | [] =>
      left
      rw [hXs, List.append_nil]
    | [c] =>
      right
      simp only [crlf, List.cons_append, List.nil_append, List.cons.injEq] at hAfter
      obtain ⟨rfl, rfl⟩ := hAfter
      exact ⟨hXs, rfl⟩
    | c :: d :: more =>
      simp only [crlf, List.cons_append, List.nil_append, List.cons.injEq] at hAfter
      obtain ⟨rfl, rfl, -⟩ := hAfter
      exact absurd ⟨line, more, by simp [hXs, crlf]⟩ hCrlf

/-- The early check of the header bytes agrees with the check on the complete
line: a line that ends later has at least the bytes already there. -/
theorem BadTail.append {headers : List Bytes} {tail : Bytes} (h : BadTail limits headers tail)
    (ys : Bytes) : BadTail limits headers (tail ++ ys) := by
  cases h with
  | line rest hCrlf hBad =>
    rw [List.append_assoc]
    exact .line _ hCrlf hBad
  | unfinished hCrlf hLong =>
    cases hFirst : firstLine (tail ++ ys) with
    | none =>
      refine .unfinished ((firstLine_eq_none_iff _).mp hFirst) ?_
      rw [List.length_append]
      omega
    | some found =>
      obtain ⟨h, rest⟩ := found
      obtain ⟨hEq, hLine⟩ := (firstLine_eq_some_iff _ _ _).mp hFirst
      rw [hEq]
      refine .line rest hLine (.inl ?_)
      rcases line_of_append hCrlf hEq with hLe | ⟨rfl, -⟩
      · omega
      · simp only [List.length_append, List.length_singleton] at hLong
        omega

/-- More bytes keep a rejected input rejected, unless the cut is at the limit:
there the early check counts the CR and the check on the line does not. -/
theorem Malformed.append (h : Malformed limits xs) (ys : Bytes) :
    Malformed limits (xs ++ ys) ∨ CutAtLimit limits xs ys := by
  cases h with
  | line rest hCrlf hBad =>
    rw [List.append_assoc]
    exact .inl (.line _ hCrlf hBad)
  | headers hCrlf hLength hLine hHeaderCrlf hNonempty hSize hOk hTail =>
    rw [List.append_assoc (_ ++ crlf), List.append_assoc (renderHeaders _)]
    exact .inl (.headers hCrlf hLength hLine hHeaderCrlf hNonempty hSize hOk (hTail.append ys))
  | unfinished hCrlf hLong =>
    cases hFirst : firstLine (xs ++ ys) with
    | none =>
      refine .inl (.unfinished ((firstLine_eq_none_iff _).mp hFirst) ?_)
      rw [List.length_append]
      omega
    | some found =>
      obtain ⟨line, rest⟩ := found
      obtain ⟨hEq, hLine⟩ := (firstLine_eq_some_iff _ _ _).mp hFirst
      by_cases hBad : limits.requestLineBytes < line.length
      · rw [hEq]
        exact .inl (.line rest hLine (.inl hBad))
      rcases line_of_append hCrlf hEq with hLe | ⟨rfl, rfl⟩
      · omega
      · rw [List.length_append, List.length_singleton] at hLong
        exact .inr ⟨line, rest, rfl, rfl, by omega, hLine⟩

theorem not_crlf_concat_cr {line : Bytes} (h : ¬ crlf <:+: line) : ¬ crlf <:+: line ++ [13] := by
  rw [List.infix_concat_iff]
  rintro (⟨before, hEq⟩ | hInfix)
  · have hLast := congrArg List.getLast? hEq
    simp [crlf] at hLast
  · exact h hInfix

/-- At the cut the parser has given up. -/
theorem CutAtLimit.malformed {ys : Bytes} (h : CutAtLimit limits xs ys) : Malformed limits xs := by
  obtain ⟨line, rest, rfl, -, hLength, hCrlf⟩ := h
  refine .unfinished (not_crlf_concat_cr hCrlf) ?_
  rw [List.length_append, List.length_singleton]
  omega

namespace HttpParser

variable {limits : Limits}

/-- Without a CRLF the parser can only wait or reject. -/
theorem run_of_no_crlf {xs : Bytes} (hCrlf : ¬ crlf <:+: xs) {result : Result}
    (h : (consumer.run (create limits) xs).1 = some result) : result = .error := by
  rcases hRun : consumer.run (create limits) xs with ⟨stopped, p, rest⟩
  rw [hRun] at h
  cases h
  cases result with
  | error => rfl
  | incomplete => exact absurd (congrArg Prod.fst hRun) (run_ne_incomplete _ _)
  | complete =>
    obtain ⟨m, method, path, version, -, rfl, -⟩ := (run_complete_iff _ _ _ _).mp hRun
    exact absurd ⟨m.line, _, by simp only [Message.render, List.append_assoc]; rfl⟩ hCrlf

theorem parse_error_iff (limits : Limits) (whole : Buffer) :
    (∃ p buffer, (create limits).parse whole = .ok (.error, p, buffer)) ↔
      Malformed limits whole.bytes := by
  have hParse := fun p rest =>
    parse_ok_iff (show Result.error ≠ .incomplete by decide) (create limits) p whole rest
  rw [← run_error_iff]
  constructor
  · rintro ⟨p, buffer, hOk⟩
    rw [(hParse p buffer.bytes).mp ⟨buffer, hOk, rfl⟩]
  · intro hRun
    obtain ⟨buffer, hOk, -⟩ := (hParse _ _).mpr (Prod.ext hRun rfl)
    exact ⟨_, buffer, hOk⟩

/-- Input in pieces is refused exactly where the consumer refuses it. -/
theorem parseChunks_error_iff (limits : Limits) {initial : Nat} (hInitial : initial ≤ sizeMax)
    {whole : Buffer} {chunks : List Bytes} (hWhole : whole.bytes = chunks.flatten) :
    (∃ p buffer unfed, (create limits).parseChunks (Buffer.create initial hInitial) chunks =
        .ok (.error, p, buffer, unfed)) ↔
      (consumer.feed (create limits) [] chunks).1 = some .error := by
  obtain ⟨buffer, unfed, hChunks, -⟩ := parseChunks_eq_feed (create limits) _ chunks
    (create_room hInitial hWhole)
  rw [hChunks, Buffer.bytes_create]
  constructor
  · rintro ⟨p, buffer', unfed', hEq⟩
    simp only [Except.ok.injEq, Prod.mk.injEq] at hEq
    cases hResult : (consumer.feed (create limits) [] chunks).1 with
    | none =>
      rw [hResult] at hEq
      cases hEq.1
    | some =>
      rw [hResult, Option.getD_some] at hEq
      rw [hEq.1]
  · intro hResult
    rw [hResult]
    exact ⟨_, buffer, unfed, rfl⟩

/-- A cut at the limit makes the chunked run reject. -/
theorem feed_error_of_cut {fed unfed : List Bytes}
    (h : CutAtLimit limits fed.flatten unfed.flatten) :
    (consumer.feed (create limits) [] (fed ++ unfed)).1 = some .error := by
  have hMalformed := h.malformed
  obtain ⟨line, rest, hFed, -, -, hCrlf⟩ := h
  have hNonempty : fed ≠ [] := by
    intro hNil
    rw [hNil] at hFed
    simp at hFed
  refine Consumer.feed_result unfed hNonempty ((run_error_iff _ _).mpr hMalformed) ?_
  rintro first ⟨later, rfl⟩ other hOther
  apply run_of_no_crlf _ hOther
  intro hInfix
  apply not_crlf_concat_cr hCrlf
  rw [← hFed, List.flatten_append]
  exact hInfix.trans (List.prefix_append _ _).isInfix

/-- A rejection in chunks is a rejection of everything, unless a cut is at the
limit. -/
theorem malformed_of_feed_error {chunks : List Bytes}
    (hCut : ∀ fed unfed, chunks = fed ++ unfed → ¬ CutAtLimit limits fed.flatten unfed.flatten)
    (h : (consumer.feed (create limits) [] chunks).1 = some .error) :
    Malformed limits chunks.flatten := by
  obtain ⟨fed, unfed, left, rfl, hRun, -⟩ := Consumer.feed_stop (Prod.ext h rfl)
  have hMalformed := (run_error_iff limits fed.flatten).mp (congrArg Prod.fst hRun)
  rw [List.flatten_append]
  exact (hMalformed.append _).resolve_right (hCut fed unfed rfl)

/-- Early rejection is sound exactly when no cut falls between the CR and the
LF of a request line at the limit, or the whole input is malformed anyway. -/
theorem early_rejection_sound_iff (limits : Limits) (initial : Nat) (hInitial : initial ≤ sizeMax)
    {whole : Buffer} {chunks : List Bytes} (hWhole : whole.bytes = chunks.flatten) :
    ((∃ p buffer unfed, (create limits).parseChunks (Buffer.create initial hInitial) chunks =
        .ok (.error, p, buffer, unfed)) →
      ∃ p buffer, (create limits).parse whole = .ok (.error, p, buffer)) ↔
    (∀ fed unfed, chunks = fed ++ unfed → ¬ CutAtLimit limits fed.flatten unfed.flatten) ∨
      Malformed limits whole.bytes := by
  rw [parseChunks_error_iff limits hInitial hWhole, parse_error_iff]
  constructor
  · intro hSound
    by_cases hMalformed : Malformed limits whole.bytes
    · exact .inr hMalformed
    · left
      rintro fed unfed rfl hCut
      exact hMalformed (hSound (feed_error_of_cut hCut))
  · rintro (hCut | hMalformed) hError
    · rw [hWhole]
      exact malformed_of_feed_error hCut hError
    · exact hMalformed

theorem exists_ok_of_fst {ε α β : Type} {outcome : Except ε (α × β)} {a : α}
    (h : outcome.toOption.map Prod.fst = some a) : ∃ b, outcome = .ok (a, b) := by
  cases outcome with
  | error => cases h
  | ok pair =>
    cases h
    exact ⟨pair.2, rfl⟩

/-- A line over the limit is rejected in chunks, and therefore whole. -/
theorem early_rejection_sound_over_limit :
    (∃ p buffer unfed, (create { requestLineBytes := 3 }).parseChunks (Buffer.create 1 (by decide))
        [ascii "GET /", ascii "\r\n"] = .ok (.error, p, buffer, unfed)) ∧
      ∃ p buffer, (create { requestLineBytes := 3 }).parse
        (Buffer.holding (ascii "GET /\r\n") (by decide)) = .ok (.error, p, buffer) := by
  have hChunks : ((create { requestLineBytes := 3 }).parseChunks (Buffer.create 1 (by decide))
      [ascii "GET /", ascii "\r\n"]).toOption.map Prod.fst = some .error := by decide
  obtain ⟨⟨p, buffer, unfed⟩, hChunks⟩ := exists_ok_of_fst hChunks
  have hWhole : (Buffer.holding (ascii "GET /\r\n") (by decide)).bytes =
      [ascii "GET /", ascii "\r\n"].flatten := by
    rw [Buffer.bytes_holding]
    decide
  have hMalformed : Malformed { requestLineBytes := 3 } (ascii "GET /" ++ crlf ++ []) :=
    .line [] (by decide) (.inl (by decide))
  have hSound := (early_rejection_sound_iff { requestLineBytes := 3 } 1 (by decide) hWhole).mpr
    (.inr (by rw [hWhole]; exact hMalformed))
  exact ⟨⟨p, buffer, unfed, hChunks⟩, hSound ⟨p, buffer, unfed, hChunks⟩⟩

/-- A request line of fourteen bytes is accepted whole under a limit of fourteen
bytes. Cut between its CR and its LF the same request is rejected. -/
theorem early_rejection_unsound_at_limit :
    ¬ ((∃ p buffer unfed, (create { requestLineBytes := 14 }).parseChunks
        (Buffer.create 1 (by decide)) [ascii "GET / HTTP/1.1\r", ascii "\n\r\n"] =
      .ok (.error, p, buffer, unfed)) →
      ∃ p buffer, (create { requestLineBytes := 14 }).parse
        (Buffer.holding (ascii "GET / HTTP/1.1\r\n\r\n") (by decide)) =
          .ok (.error, p, buffer)) := by
  have hChunks : ((create { requestLineBytes := 14 }).parseChunks (Buffer.create 1 (by decide))
      [ascii "GET / HTTP/1.1\r", ascii "\n\r\n"]).toOption.map Prod.fst = some .error := by decide
  have hWhole : ((create { requestLineBytes := 14 }).parse
      (Buffer.holding (ascii "GET / HTTP/1.1\r\n\r\n") (by decide))).toOption.map Prod.fst =
        some .complete := by decide
  obtain ⟨⟨p, buffer, unfed⟩, hChunks⟩ := exists_ok_of_fst hChunks
  obtain ⟨⟨p', buffer'⟩, hWhole⟩ := exists_ok_of_fst hWhole
  intro hSound
  obtain ⟨q, left, hError⟩ := hSound ⟨p, buffer, unfed, hChunks⟩
  rw [hWhole] at hError
  cases hError

end HttpParser
end Tinycoro.Http
