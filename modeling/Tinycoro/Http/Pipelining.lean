import Tinycoro.Http.Fragmentation

/-! The server loop over one connection: parse, answer and reset on `COMPLETE`
without reading, read the next chunk on `INCOMPLETE`, give up on `ERROR`. On
pipelined requests the loop yields each request as if it had come alone. -/
namespace Tinycoro.Http

open Incremental

/-- What the loop has when it leaves: the requests answered, the last result of
`parse`, the parser and the input buffer. -/
structure Served where
  requests : List HttpRequest
  result : Result
  parser : HttpParser
  input : Buffer

/-- The loop of `serve_http`, with the chunks that `read_some` will deliver. It
leaves on `ERROR` and when nothing more arrives; `none` is a loop cut off by the
turn count. -/
def serveHttp (turns : Nat) (parser : HttpParser) (input : Buffer) (chunks : List Bytes) :
    Except StdError (Option Served) :=
  match turns with
  | 0 => return none
  | turns + 1 => do
    let (parsed, parser, input) ← parser.parse input
    match parsed with
    | .complete =>
      let served ← serveHttp turns parser.reset input chunks
      return served.map (fun s => { s with requests := parser.request :: s.requests })
    | .error => return some ⟨[], .error, parser, input⟩
    | .incomplete =>
      match chunks with
      | [] => return some ⟨[], .incomplete, parser, input⟩
      | chunk :: chunks => do
        let input ← input.appendString chunk
        serveHttp turns parser input chunks

/-- The bytes are one complete request: a fresh parser accepts them with nothing
left over, and the request line is strictly shorter than its limit. -/
structure AcceptedAlone (limits : Limits) (bytes : Bytes) (request : HttpRequest) : Prop where
  accepted : ∃ buffer p buffer', buffer.bytes = bytes ∧
    (HttpParser.create limits).parse buffer = .ok (.complete, p, buffer') ∧
    buffer'.bytes = [] ∧ p.request = request
  shortLine : ∃ line rest, bytes = line ++ crlf ++ rest ∧ ¬ crlf <:+: line ∧
    line.length < limits.requestLineBytes

namespace AcceptedAlone

variable {limits : Limits} {bytes : Bytes} {request : HttpRequest}

/-- The parser ends ready for the next request once it is reset. -/
theorem run_eq (h : AcceptedAlone limits bytes request) :
    ∃ p, HttpParser.consumer.run (.create limits) bytes = (some .complete, p, []) ∧
      p.request = request ∧ p.reset = .create limits := by
  obtain ⟨buffer, p, buffer', rfl, hParse, hEmpty, hRequest⟩ := h.accepted
  have hRun := (HttpParser.parse_ok_iff (show Result.complete ≠ .incomplete by decide) _ p buffer
    []).mp ⟨buffer', hParse, hEmpty⟩
  obtain ⟨m, method, path, version, -, -, rfl⟩ := (HttpParser.run_complete_iff _ _ _ _).mp hRun
  exact ⟨_, hRun, hRequest, rfl⟩

/-- A proper part of the request is neither complete nor rejected. It is not
rejected because the line is too short for a cut at the limit. -/
theorem run_incomplete (h : AcceptedAlone limits bytes request) {fed missing : Bytes}
    (hBytes : bytes = fed ++ missing) (hMissing : missing ≠ []) :
    (HttpParser.consumer.run (.create limits) fed).1 = none := by
  obtain ⟨p, hRun, -, -⟩ := h.run_eq
  rcases hFed : HttpParser.consumer.run (.create limits) fed with ⟨result, p', rest⟩
  rw [hBytes] at hRun
  cases result with
  | none => rfl
  | some result =>
    cases result with
    | incomplete => exact absurd (congrArg Prod.fst hFed) (HttpParser.run_ne_incomplete _ _)
    | complete =>
      rw [Consumer.run_append_of_stop HttpParser.settled_complete hFed] at hRun
      simp only [Prod.mk.injEq, List.append_eq_nil_iff] at hRun
      exact absurd hRun.2.2.2 hMissing
    | error =>
      have hMalformed := (HttpParser.run_error_iff limits fed).mp (congrArg Prod.fst hFed)
      rcases hMalformed.append missing with hAll | ⟨line, after, rfl, rfl, hLength, hCrlf⟩
      · rw [← HttpParser.run_error_iff, hRun] at hAll
        cases hAll
      · -- the request line of the whole is the line before the cut
        obtain ⟨short, rest', hShort, hShortCrlf, hLess⟩ := h.shortLine
        have hFirst : firstLine bytes = some (line, after) :=
          (firstLine_eq_some_iff _ _ _).mpr ⟨by rw [hBytes]; simp [crlf], hCrlf⟩
        have hSame : firstLine bytes = some (short, rest') :=
          (firstLine_eq_some_iff _ _ _).mpr ⟨hShort, hShortCrlf⟩
        rw [hFirst] at hSame
        cases hSame
        omega

end AcceptedAlone

section Stream

/-! The stream behind a connection: complete requests, and then the first part
of one more. -/
variable {limits : Limits} {requests : List (Bytes × HttpRequest)} {next : HttpRequest}
  {t missing : Bytes}

/-- What has arrived since the last reset holds a complete request in front, or
it is a proper part of a request and the parser waits. -/
theorem stream_cases (hRequests : ∀ r ∈ requests, AcceptedAlone limits r.1 r.2)
    (hNext : AcceptedAlone limits (t ++ missing) next) (hMissing : missing ≠ [])
    {fed unfed : Bytes} (hStream : fed ++ unfed = (requests.map Prod.fst).flatten ++ t) :
    (∃ r rest more, requests = r :: rest ∧ fed = r.1 ++ more ∧
        more ++ unfed = (rest.map Prod.fst).flatten ++ t) ∨
      ((HttpParser.consumer.run (.create limits) fed).1 = none ∧ (unfed = [] → requests = [])) := by
  cases requests with
  | nil =>
    right
    refine ⟨?_, fun _ => rfl⟩
    have hParts : t ++ missing = fed ++ (unfed ++ missing) := by
      rw [← List.append_assoc, hStream]
      rfl
    exact hNext.run_incomplete hParts (by simp [hMissing])
  | cons r rest =>
    rw [List.map_cons, List.flatten_cons, List.append_assoc] at hStream
    rcases List.append_eq_append_iff.mp hStream with ⟨after, hRequest, hUnfed⟩ | ⟨more, hFed, hMore⟩
    · cases after with
      | nil =>
        left
        rw [List.append_nil] at hRequest
        exact ⟨r, rest, [], rfl, by rw [hRequest, List.append_nil], hUnfed⟩
      | cons =>
        right
        refine ⟨(hRequests r List.mem_cons_self).run_incomplete hRequest (by simp), ?_⟩
        intro hNone
        rw [hNone] at hUnfed
        cases hUnfed
    · exact .inl ⟨r, rest, more, rfl, hFed, hMore.symm⟩

/-- The loop from the middle of a stream. `fed` is what arrived since the last
reset: the parser and its input stand for a fresh parser with those bytes. -/
theorem serveHttp_resume (hRequests : ∀ r ∈ requests, AcceptedAlone limits r.1 r.2)
    (hNext : AcceptedAlone limits (t ++ missing) next) (hMissing : missing ≠ []) {turns : Nat}
    {parser : HttpParser} {input : Buffer} {fed : Bytes} {chunks : List Bytes}
    (hTurns : requests.length + chunks.length < turns)
    (hStream : fed ++ chunks.flatten = (requests.map Prod.fst).flatten ++ t)
    (hResume : ∀ ys, HttpParser.consumer.run parser (input.bytes ++ ys) = HttpParser.consumer.run
      (.create limits) (fed ++ ys)) :
    (∃ served, serveHttp turns parser input chunks = .ok (some served) ∧
        served.requests = requests.map Prod.snd ∧ served.result = .incomplete) ∨
      (sizeMax < input.writeIdx + chunks.flatten.length ∧
        serveHttp turns parser input chunks =
          .error (.lengthError "Buffer capacity overflow")) := by
  induction turns generalizing requests parser input fed chunks with
  | zero => exact absurd hTurns (Nat.not_lt_zero _)
  | succ turns ih =>
    obtain ⟨input', hParse, hRest, hWrite⟩ := HttpParser.parse_eq_run parser input
    have hHere := hResume []
    rw [List.append_nil, List.append_nil] at hHere
    rw [hHere] at hParse hRest
    rcases stream_cases hRequests hNext hMissing hStream with
      ⟨r, rest, more, rfl, rfl, hMore⟩ | ⟨hWait, hEnd⟩
    · obtain ⟨p, hRun, hRequest, hReset⟩ := (hRequests r List.mem_cons_self).run_eq
      have hComplete := Consumer.run_append_of_stop HttpParser.settled_complete hRun more
      rw [hComplete] at hParse hRest
      simp only [serveHttp, hParse, bind, Except.bind, Option.getD_some, hReset]
      have hFresh : ∀ ys, HttpParser.consumer.run (.create limits) (input'.bytes ++ ys) =
          HttpParser.consumer.run (.create limits) (more ++ ys) := by
        intro ys
        rw [hRest]
        rfl
      rw [List.length_cons] at hTurns
      rcases ih (fun r' hr' => hRequests r' (List.mem_cons_of_mem _ hr')) (by omega) hMore hFresh
        with ⟨served, hServed, hEmitted, hResult⟩ | ⟨hBig, hError⟩
      · left
        refine ⟨{ served with requests := p.request :: served.requests }, ?_, ?_, hResult⟩
        · rw [hServed]
          rfl
        · dsimp only
          rw [List.map_cons, hEmitted, hRequest]
      · exact .inr ⟨by omega, by rw [hError]⟩
    · rcases hFed : HttpParser.consumer.run (.create limits) fed with ⟨result, p, left⟩
      rw [hFed] at hWait hParse hRest
      cases hWait
      simp only [serveHttp, hParse, bind, Except.bind, Option.getD_none]
      cases chunks with
      | nil =>
        left
        exact ⟨_, rfl, by rw [hEnd rfl]; rfl, rfl⟩
      | cons chunk =>
        rw [List.flatten_cons, List.length_append]
        dsimp only
        rcases input'.appendString_cases chunk with
          ⟨filled, hAppend, hFilled, hFilledWrite⟩ | ⟨hBig, hError⟩
        · rw [hAppend]
          dsimp only
          rw [List.length_cons] at hTurns
          rw [List.flatten_cons, ← List.append_assoc] at hStream
          have hContinue : ∀ ys, HttpParser.consumer.run p (filled.bytes ++ ys) =
              HttpParser.consumer.run (.create limits) (fed ++ chunk ++ ys) := by
            intro ys
            rw [hFilled, hRest, List.append_assoc, List.append_assoc,
              Consumer.run_append_of_wait hFed]
          rcases ih hRequests (by omega) hStream hContinue with hServed | ⟨hBig, hError⟩
          · exact .inl hServed
          · exact .inr ⟨by omega, hError⟩
        · exact .inr ⟨by omega, by rw [hError]⟩

/-- Pipelining without loss: however complete requests and a proper part of one
more are cut into chunks, the loop answers exactly those requests, in order and
each as a fresh parser reads it alone, and then waits for the rest. One turn for
each request and each chunk, and the last one, are enough. Only a stream that
`size_t` cannot count may end in the buffer's capacity error instead. -/
theorem serveHttp_pipelined (hRequests : ∀ r ∈ requests, AcceptedAlone limits r.1 r.2)
    (hNext : AcceptedAlone limits (t ++ missing) next) (hMissing : missing ≠ [])
    {chunks : List Bytes} (hChunks : chunks.flatten = (requests.map Prod.fst).flatten ++ t)
    (initial : Nat) (hInitial : initial ≤ sizeMax) {turns : Nat}
    (hTurns : requests.length + chunks.length < turns) :
    (∃ served,
        serveHttp turns (.create limits) (Buffer.create initial hInitial) chunks =
          .ok (some served) ∧
        served.requests = requests.map Prod.snd ∧ served.result = .incomplete) ∨
      (sizeMax < chunks.flatten.length ∧
        serveHttp turns (.create limits) (Buffer.create initial hInitial) chunks =
          .error (.lengthError "Buffer capacity overflow")) := by
  have hFresh : ∀ ys, HttpParser.consumer.run (.create limits)
      ((Buffer.create initial hInitial).bytes ++ ys) =
        HttpParser.consumer.run (.create limits) ([] ++ ys) := by
    intro ys
    rw [Buffer.bytes_create]
  have hServe := serveHttp_resume hRequests hNext hMissing hTurns hChunks hFresh
  have hStart : (Buffer.create initial hInitial).writeIdx = 0 := rfl
  rwa [hStart, Nat.zero_add] at hServe

end Stream

theorem acceptedAlone_get : AcceptedAlone {} (ascii "GET / HTTP/1.1\r\n\r\n")
    ⟨ascii "GET", ascii "/", ascii "HTTP/1.1", ∅, []⟩ where
  accepted := ⟨Buffer.holding (ascii "GET / HTTP/1.1\r\n\r\n") (by decide), _, _, rfl, rfl, rfl,
    rfl⟩
  shortLine := ⟨ascii "GET / HTTP/1.1", ascii "\r\n", by decide, by decide, by decide⟩

/-- Two requests and the start of a third, the second spread over all chunks. -/
theorem serveHttp_pipelined_three_chunks :
    ∃ served, serveHttp 6 (.create {}) (Buffer.create 1 (by decide))
        [ascii "GET / HTTP/1.1\r\n\r\nG", ascii "ET / HTTP/1.1\r\n\r", ascii "\nGE"] =
          .ok (some served) ∧
      served.requests = [⟨ascii "GET", ascii "/", ascii "HTTP/1.1", ∅, []⟩,
        ⟨ascii "GET", ascii "/", ascii "HTTP/1.1", ∅, []⟩] ∧
      served.result = .incomplete := by
  let get : Bytes × HttpRequest :=
    (ascii "GET / HTTP/1.1\r\n\r\n", ⟨ascii "GET", ascii "/", ascii "HTTP/1.1", ∅, []⟩)
  have hRequests : ∀ r ∈ [get, get], AcceptedAlone {} r.1 r.2 := by
    intro r hr
    have hGet : r = get := by simpa using hr
    rw [hGet]
    exact acceptedAlone_get
  have hNext : AcceptedAlone {} (ascii "GE" ++ ascii "T / HTTP/1.1\r\n\r\n") get.2 :=
    acceptedAlone_get
  have hChunks : [ascii "GET / HTTP/1.1\r\n\r\nG", ascii "ET / HTTP/1.1\r\n\r",
      ascii "\nGE"].flatten = ([get, get].map Prod.fst).flatten ++ ascii "GE" := by decide
  have hServe := serveHttp_pipelined hRequests hNext (by decide) hChunks 1 (by decide)
    (show [get, get].length + 3 < 6 by decide)
  exact hServe.resolve_right (fun hBig => absurd hBig.1 (by decide))

end Tinycoro.Http
