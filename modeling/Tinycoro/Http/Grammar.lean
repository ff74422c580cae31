import Tinycoro.Http.Stream
import Mathlib.Algebra.BigOperators.Group.List.Basic
import Mathlib.Algebra.GroupWithZero.Nat

/-! The requests the parser is meant to accept, stated without reference to its
states or to the order of its checks, and the proof that it accepts exactly
these. A separate predicate lists what it rejects; everything else waits. -/
namespace Tinycoro.Http

open Incremental

/-- Equal up to ASCII case. -/
def SameIgnoringCase (lhs rhs : Bytes) : Prop := lhs.map tolower = rhs.map tolower

instance (lhs rhs : Bytes) : Decidable (SameIgnoringCase lhs rhs) :=
  inferInstanceAs (Decidable (lhs.map tolower = rhs.map tolower))

/-- A request line: three words, the last of which is a supported version. -/
def RequestLine (line method path version : Bytes) : Prop :=
  words line = [method, path, version] ∧
    (version = ascii "HTTP/1.1" ∨ version = ascii "HTTP/1.0")

/-- The part before the first colon, without blanks around it. -/
def headerKey (header : Bytes) : Bytes := strip (header.takeWhile (· ≠ 58))

/-- The part after the first colon, without blanks around it. -/
def headerValue (header : Bytes) : Bytes := strip ((header.dropWhile (· ≠ 58)).drop 1)

def IsContentLength (header : Bytes) : Prop :=
  SameIgnoringCase (headerKey header) (ascii "Content-Length")

def IsTransferEncoding (header : Bytes) : Prop :=
  SameIgnoringCase (headerKey header) (ascii "Transfer-Encoding")

instance (header : Bytes) : Decidable (IsContentLength header) :=
  inferInstanceAs (Decidable (SameIgnoringCase _ _))

instance (header : Bytes) : Decidable (IsTransferEncoding header) :=
  inferInstanceAs (Decidable (SameIgnoringCase _ _))

/-- A decimal that fits `size_t` and the configured body limit. -/
structure IsBodySize (limits : Limits) (value : Bytes) : Prop where
  nonempty : value ≠ []
  digits : ∀ c ∈ value, isDigit c = true
  fits : decimal value ≤ sizeMax
  allowed : decimal value ≤ limits.bodyBytes

/-- The conditions on the header lines of one request, in any order. -/
structure HeadersOk (limits : Limits) (headers : List Bytes) : Prop where
  colon : ∀ h ∈ headers, 58 ∈ h
  key : ∀ h ∈ headers, headerKey h ≠ []
  size : ∀ h ∈ headers, IsContentLength h → IsBodySize limits (headerValue h)
  agree : ∀ h ∈ headers, ∀ h' ∈ headers, IsContentLength h → IsContentLength h' →
    decimal (headerValue h) = decimal (headerValue h')
  encoding : ∀ h ∈ headers, IsTransferEncoding h →
    SameIgnoringCase (headerValue h) (ascii "identity")

/-- The bytes of the header lines, each with its CRLF. -/
def renderHeaders (headers : List Bytes) : Bytes := headers.flatMap (· ++ crlf)

/-- What the header lines count towards the header limit. -/
def headersSize (headers : List Bytes) : Nat := (headers.map (·.length + 2)).sum

/-- The announced body size; the announcements agree in a good request. -/
def bodySize (headers : List Bytes) : Nat :=
  ((headers.find? (fun h => IsContentLength h)).map (fun h => decimal (headerValue h))).getD 0

/-- Each key has the value of its last occurrence. -/
def headerMap (headers : List Bytes) : Finmap (fun _ : Bytes => Bytes) :=
  headers.foldl (fun map h => map.insert (headerKey h) (headerValue h)) ∅

theorem lookup_headerMap (headers : List Bytes) (key : Bytes) :
    (headerMap headers).lookup key =
      (headers.reverse.find? (fun h => headerKey h = key)).map headerValue := by
  induction headers using List.reverseRecOn with
  | nil => rfl
  | append_singleton headers h ih =>
    rw [List.reverse_append, List.reverse_singleton, List.singleton_append]
    simp only [headerMap, List.foldl_append, List.foldl_cons, List.foldl_nil] at ih ⊢
    by_cases hKey : headerKey h = key
    · subst hKey
      rw [Finmap.lookup_insert, List.find?_cons_of_pos (by simp)]
      rfl
    · rw [Finmap.lookup_insert_of_ne _ (Ne.symm hKey), ih, List.find?_cons_of_neg (by simp [hKey])]

/-- One good request: a line, headers and a body within the limits. -/
structure Message where
  line : Bytes
  headers : List Bytes
  body : Bytes

namespace Message

/-- The bytes of the request. -/
def render (m : Message) : Bytes :=
  m.line ++ crlf ++ renderHeaders m.headers ++ crlf ++ m.body

/-- A request of the grammar with these three words on its line. -/
structure WellFormed (limits : Limits) (m : Message) (method path version : Bytes) : Prop where
  line_crlf : ¬ crlf <:+: m.line
  line_length : m.line.length ≤ limits.requestLineBytes
  line_words : RequestLine m.line method path version
  header_crlf : ∀ h ∈ m.headers, ¬ crlf <:+: h
  header_nonempty : ∀ h ∈ m.headers, h ≠ []
  headers_length : headersSize m.headers + 2 ≤ limits.headerBytes
  headers_ok : HeadersOk limits m.headers
  body_length : m.body.length = bodySize m.headers

end Message

/-- Cutting at the found colon gives the key and the value of the header. -/
theorem trim_colon {line : Bytes} {colon : Nat} (h : line.findIdx? (· = 58) = some colon) :
    trim (substr line 0 colon) = headerKey line ∧
      trim (line.drop (colon + 1)) = headerValue line := by
  have hIdx := (List.findIdx?_eq_some_iff_findIdx_eq.mp h).2
  have hPred : (fun x : UInt8 => !decide (x ≠ 58)) = fun x => decide (x = 58) := by
    funext x
    simp
  constructor
  · rw [trim_eq_strip, headerKey, substr, List.drop_zero, List.takeWhile_eq_take_findIdx_not, hPred,
      hIdx]
  · rw [trim_eq_strip, headerValue, List.dropWhile_eq_drop_findIdx_not, hPred, hIdx, List.drop_drop]

namespace HttpParser

/-- The request line is accepted exactly when it is one of the grammar. -/
theorem acceptRequestLine_iff (p p' : HttpParser) (line : Bytes) :
    p.acceptRequestLine line = (p', true) ↔
      ∃ method path version, RequestLine line method path version ∧
        p' = { p with
          request := { p.request with method, path, version }
          state := .headers } := by
  unfold acceptRequestLine readFields RequestLine
  rw [words_eq_extractToken line]
  cases extractToken line with
  | none => simp
  | some first =>
    obtain ⟨method, input⟩ := first
    simp only [words_eq_extractToken input]
    cases extractToken input with
    | none => simp
    | some second =>
      obtain ⟨path, input⟩ := second
      simp only [words_eq_extractToken input]
      cases extractToken input with
      | none => simp
      | some third =>
        obtain ⟨version, input⟩ := third
        simp only [words_eq_extractToken input]
        cases extractToken input with
        | some => simp
        | none =>
          by_cases hVersion : version = ascii "HTTP/1.1" ∨ version = ascii "HTTP/1.0"
          · have hNot : ¬ (version ≠ ascii "HTTP/1.1" ∧ version ≠ ascii "HTTP/1.0") :=
              fun h => hVersion.elim h.1 h.2
            simp [hNot, hVersion, eq_comm]
          · have hBad : version ≠ ascii "HTTP/1.1" ∧ version ≠ ascii "HTTP/1.0" :=
              not_or.mp hVersion
            simp [hBad]

/-- The parser after a header line that passes its checks. -/
def withHeader (p : HttpParser) (header : Bytes) : HttpParser :=
  { p with
    request := { p.request with
      headers := p.request.headers.insert (headerKey header) (headerValue header) }
    contentLength := if IsContentLength header then decimal (headerValue header)
    else p.contentLength
    contentLengthSeen := p.contentLengthSeen || decide (IsContentLength header) }

/-- The checks on one header line, spelled out. -/
theorem acceptHeader_iff (p p' : HttpParser) (header : Bytes) :
    p.acceptHeader header = some p' ↔
      58 ∈ header ∧ headerKey header ≠ [] ∧
        (IsContentLength header → IsBodySize p.limits (headerValue header) ∧
          (p.contentLengthSeen = true → decimal (headerValue header) = p.contentLength)) ∧
        (IsTransferEncoding header → SameIgnoringCase (headerValue header) (ascii "identity")) ∧
        p' = p.withHeader header := by
  unfold acceptHeader
  cases hColon : header.findIdx? (· = 58) with
  | none =>
    have hMissing : 58 ∉ header := by
      intro hMem
      simpa using List.findIdx?_eq_none_iff.mp hColon 58 hMem
    simp [hMissing]
  | some colon =>
    obtain ⟨hBefore, hAfter⟩ := trim_colon hColon
    have hPresent : 58 ∈ header := by
      obtain ⟨hLt, hAt, -⟩ := List.findIdx?_eq_some_iff_getElem.mp hColon
      have hIs : header[colon] = 58 := by simpa using hAt
      rw [← hIs]
      exact List.getElem_mem hLt
    simp only [hBefore, hAfter]
    by_cases hKey : headerKey header = []
    · simp [hKey]
    rw [if_neg hKey]
    simp only [hPresent, hKey, ne_eq, not_false_eq_true, true_and, Option.map_eq_some_iff]
    unfold acceptFraming
    by_cases hLength : IsContentLength header
    · have hNotBoth : ¬ IsTransferEncoding header := by
        intro hBoth
        have hAbsurd := hLength.symm.trans hBoth
        exact absurd hAbsurd (by decide)
      rw [if_pos ((iequals_iff _ _).mpr hLength)]
      cases hParse : parseSize (headerValue header) with
      | none =>
        have hBad : ¬ IsBodySize p.limits (headerValue header) := by
          intro hOk
          have hSome := (parseSize_eq_some_iff (headerValue header) _).mpr
            ⟨hOk.nonempty, hOk.digits, rfl, hOk.fits⟩
          rw [hParse] at hSome
          cases hSome
        simp [hLength, hBad]
      | some =>
        obtain ⟨hNonempty, hDigits, rfl, hFits⟩ := (parseSize_eq_some_iff _ _).mp hParse
        by_cases hBig : decimal (headerValue header) > p.limits.bodyBytes
        · have hBad : ¬ IsBodySize p.limits (headerValue header) :=
            fun hOk => Nat.not_lt.mpr hOk.allowed hBig
          simp [hBig, hLength, hBad]
        · have hOk : IsBodySize p.limits (headerValue header) :=
            ⟨hNonempty, hDigits, hFits, Nat.le_of_not_lt hBig⟩
          by_cases hConflict : p.contentLengthSeen ∧ decimal (headerValue header) ≠ p.contentLength
          · simp [hBig, hConflict, hLength]
          · have hAgree : p.contentLengthSeen = true →
                decimal (headerValue header) = p.contentLength := by
              intro hSeen
              by_contra hDiffer
              exact hConflict ⟨hSeen, hDiffer⟩
            simp only [if_neg hBig, if_neg hConflict]
            constructor
            · rintro ⟨q, hq, rfl⟩
              cases hq
              exact ⟨fun _ => ⟨hOk, hAgree⟩, fun h => absurd h hNotBoth,
                by simp [withHeader, hLength]⟩
            · rintro ⟨-, -, rfl⟩
              exact ⟨_, rfl, by simp [withHeader, hLength]⟩
    · have hNo : ¬ iequals (headerKey header) (ascii "Content-Length") = true :=
        fun h => hLength ((iequals_iff _ _).mp h)
      rw [if_neg hNo]
      have hEncoding : (iequals (headerKey header) (ascii "Transfer-Encoding") &&
            !iequals (headerValue header) (ascii "identity")) = true ↔
          ¬ (IsTransferEncoding header →
            SameIgnoringCase (headerValue header) (ascii "identity")) := by
        rw [Bool.and_eq_true, iequals_iff, Bool.not_eq_true', ← Bool.not_eq_true, iequals_iff]
        exact Classical.not_imp.symm
      by_cases hTransfer : IsTransferEncoding header →
          SameIgnoringCase (headerValue header) (ascii "identity")
      · rw [if_neg (fun h => hEncoding.mp h hTransfer)]
        constructor
        · rintro ⟨q, hq, rfl⟩
          cases hq
          exact ⟨fun h => absurd h hLength, hTransfer, by simp [withHeader, hLength]⟩
        · rintro ⟨-, -, rfl⟩
          exact ⟨p, rfl, by simp [withHeader, hLength]⟩
      · rw [if_pos (hEncoding.mpr hTransfer)]
        simp [hLength, hTransfer]

/-- The header lines one after the other. -/
def acceptLines (p : HttpParser) (headers : List Bytes) : Option HttpParser :=
  headers.foldlM acceptLine p

theorem acceptLines_concat (p : HttpParser) (headers : List Bytes) (h : Bytes) :
    p.acceptLines (headers ++ [h]) = (p.acceptLines headers).bind (·.acceptLine h) := by
  rw [acceptLines, List.foldlM_append]
  simp only [List.foldlM_cons, List.foldlM_nil, bind_pure]
  rfl

/-- The parser right behind its request line. -/
structure AtHeaders (p : HttpParser) : Prop where
  state : p.state = .headers
  headerBytes : p.headerBytes = 0
  contentLength : p.contentLength = 0
  contentLengthSeen : p.contentLengthSeen = false
  headers : p.request.headers = ∅

/-- The parser after reading these header lines. -/
def withHeaders (p : HttpParser) (headers : List Bytes) : HttpParser :=
  { p with
    headerBytes := headersSize headers
    contentLength := bodySize headers
    contentLengthSeen := headers.any (fun h => IsContentLength h)
    request := { p.request with headers := headerMap headers } }

end HttpParser

/-- What one more header line has to satisfy, given the lines before it. -/
theorem HeadersOk.concat_iff (limits : Limits) (headers : List Bytes) (h : Bytes) :
    HeadersOk limits (headers ++ [h]) ↔
      HeadersOk limits headers ∧ 58 ∈ h ∧ headerKey h ≠ [] ∧
        (IsContentLength h → IsBodySize limits (headerValue h) ∧
          ∀ h' ∈ headers, IsContentLength h' → decimal (headerValue h) = decimal (headerValue h')) ∧
        (IsTransferEncoding h → SameIgnoringCase (headerValue h) (ascii "identity")) := by
  have hLast : h ∈ headers ++ [h] := by simp
  have hEarly : ∀ h' ∈ headers, h' ∈ headers ++ [h] := fun h' hMem => by simp [hMem]
  constructor
  · intro ok
    refine ⟨⟨fun h' m => ok.colon h' (hEarly h' m), fun h' m => ok.key h' (hEarly h' m),
      fun h' m => ok.size h' (hEarly h' m),
      fun a ma b mb => ok.agree a (hEarly a ma) b (hEarly b mb),
      fun h' m => ok.encoding h' (hEarly h' m)⟩, ok.colon h hLast, ok.key h hLast, ?_,
      ok.encoding h hLast⟩
    intro hLength
    exact ⟨ok.size h hLast hLength, fun h' m => ok.agree h hLast h' (hEarly h' m) hLength⟩
  · rintro ⟨ok, hColon, hKey, hSize, hEncoding⟩
    have hSplit : ∀ h' ∈ headers ++ [h], h' ∈ headers ∨ h' = h := by simp
    refine ⟨?_, ?_, ?_, ?_, ?_⟩
    · intro h' m
      rcases hSplit h' m with m | rfl
      · exact ok.colon h' m
      · exact hColon
    · intro h' m
      rcases hSplit h' m with m | rfl
      · exact ok.key h' m
      · exact hKey
    · intro h' m hLength
      rcases hSplit h' m with m | rfl
      · exact ok.size h' m hLength
      · exact (hSize hLength).1
    · intro a ma b mb hA hB
      rcases hSplit a ma with hInA | rfl <;> rcases hSplit b mb with hInB | rfl
      · exact ok.agree a hInA b hInB hA hB
      · exact ((hSize hB).2 a hInA hA).symm
      · exact (hSize hA).2 b hInB hB
      · rfl
    · intro h' m hTransfer
      rcases hSplit h' m with m | rfl
      · exact ok.encoding h' m hTransfer
      · exact hEncoding hTransfer

/-- In a good list every announcement is the announced body size. -/
theorem HeadersOk.bodySize_eq {limits : Limits} {headers : List Bytes}
    (ok : HeadersOk limits headers) {h : Bytes} (hMem : h ∈ headers) (hLength : IsContentLength h) :
    decimal (headerValue h) = bodySize headers := by
  unfold bodySize
  cases hFind : headers.find? (fun h => IsContentLength h) with
  | none =>
    have hNone := List.find?_eq_none.mp hFind h hMem
    exact absurd (by simpa using hLength) hNone
  | some first =>
    have hFirst : IsContentLength first := by simpa using List.find?_some hFind
    exact ok.agree h hMem first (List.mem_of_find?_eq_some hFind) hLength hFirst

theorem bodySize_concat {headers : List Bytes} {h : Bytes}
    (hAgree : IsContentLength h → ∀ h' ∈ headers, IsContentLength h' →
      decimal (headerValue h) = decimal (headerValue h')) :
    bodySize (headers ++ [h]) =
      if IsContentLength h then decimal (headerValue h) else bodySize headers := by
  unfold bodySize
  rw [List.find?_append]
  cases hFind : headers.find? (fun h => IsContentLength h) with
  | none =>
    by_cases hLength : IsContentLength h <;> simp [hLength]
  | some first =>
    have hFirst : IsContentLength first := by simpa using List.find?_some hFind
    by_cases hLength : IsContentLength h
    · simp [hLength, hAgree hLength first (List.mem_of_find?_eq_some hFind) hFirst]
    · simp [hLength]

theorem headersSize_concat (headers : List Bytes) (h : Bytes) :
    headersSize (headers ++ [h]) = headersSize headers + (h.length + 2) := by
  simp [headersSize]

namespace HttpParser

theorem withHeader_withHeaders (p : HttpParser) {headers : List Bytes} {h : Bytes}
    (hAgree : IsContentLength h → ∀ h' ∈ headers, IsContentLength h' →
      decimal (headerValue h) = decimal (headerValue h')) :
    { p.withHeaders headers with headerBytes := headersSize headers + (h.length + 2) }.withHeader h
      = p.withHeaders (headers ++ [h]) := by
  simp only [withHeader, withHeaders, bodySize_concat hAgree, headersSize_concat, headerMap,
    List.foldl_append, List.foldl_cons, List.foldl_nil, List.any_append, List.any_cons,
    List.any_nil, Bool.or_false]

variable {p : HttpParser}

/-- The header loop accepts exactly the good lists within the header limit, and
its accumulators are the summary of the lines read. -/
theorem acceptLines_iff (hp : p.AtHeaders) (headers : List Bytes) (q : HttpParser) :
    p.acceptLines headers = some q ↔
      headersSize headers ≤ p.limits.headerBytes ∧ HeadersOk p.limits headers ∧
        q = p.withHeaders headers := by
  induction headers using List.reverseRecOn generalizing q with
  | nil =>
    have hSelf : p.withHeaders [] = p := by
      obtain ⟨-, hBytes, hLength, hSeen, hHeaders⟩ := hp
      obtain ⟨limits, state, request, contentLength, headerBytes, seen⟩ := p
      obtain ⟨method, path, version, map, body⟩ := request
      dsimp only at hBytes hLength hSeen hHeaders
      subst hBytes hLength hSeen hHeaders
      rfl
    have hOk : HeadersOk p.limits [] :=
      ⟨by simp, by simp, by simp, by simp, by simp⟩
    simp [acceptLines, headersSize, hSelf, hOk, eq_comm]
  | append_singleton headers h ih =>
    rw [acceptLines_concat, Option.bind_eq_some_iff, HeadersOk.concat_iff, headersSize_concat]
    simp only [ih, acceptLine]
    constructor
    · rintro ⟨r, ⟨-, ok, rfl⟩, hStep⟩
      split_ifs at hStep with hLong
      obtain ⟨hColon, hKey, hLength, hEncoding, rfl⟩ := (acceptHeader_iff _ _ _).mp hStep
      have hAgree : IsContentLength h → ∀ h' ∈ headers, IsContentLength h' →
          decimal (headerValue h) = decimal (headerValue h') := by
        intro hIs h' hMem hIs'
        have hSeen : (p.withHeaders headers).contentLengthSeen = true := by
          simpa [withHeaders] using ⟨h', hMem, hIs'⟩
        exact ((hLength hIs).2 hSeen).trans (ok.bodySize_eq hMem hIs').symm
      refine ⟨?_, ⟨ok, hColon, hKey, fun hIs => ⟨(hLength hIs).1, hAgree hIs⟩, hEncoding⟩,
        withHeader_withHeaders p hAgree⟩
      simp only [withHeaders] at hLong
      omega
    · rintro ⟨hSize, ⟨ok, hColon, hKey, hLength, hEncoding⟩, rfl⟩
      refine ⟨p.withHeaders headers, ⟨by omega, ok, rfl⟩, ?_⟩
      have hShort : ¬ (p.withHeaders headers).headerBytes + h.length + 2 >
          (p.withHeaders headers).limits.headerBytes := by
        simp only [withHeaders]
        omega
      rw [if_neg hShort, acceptHeader_iff]
      refine ⟨hColon, hKey, fun hIs => ⟨(hLength hIs).1, fun hSeen => ?_⟩, hEncoding,
        (withHeader_withHeaders p (fun hIs => (hLength hIs).2)).symm⟩
      simp only [withHeaders, List.any_eq_true, decide_eq_true_eq] at hSeen
      obtain ⟨h', hMem, hIs'⟩ := hSeen
      exact ((hLength hIs).2 h' hMem hIs').trans (ok.bodySize_eq hMem hIs')

theorem acceptLine_state {p' : HttpParser} {header : Bytes} (h : p.acceptLine header = some p') :
    p'.state = p.state := by
  unfold acceptLine at h
  split_ifs at h
  exact (acceptHeader_state h :)

/-- An accepted header line is one step of the consumer. -/
theorem advance_of_acceptLine {p' : HttpParser} {xs header rest : Bytes}
    (hState : p.state = .headers) (hLine : firstLine xs = some (header, rest))
    (hNonempty : header ≠ []) (h : p.acceptLine header = some p') :
    p.advance xs = .step p' rest := by
  unfold acceptLine at h
  split_ifs at h with hLong
  exact advance_headerLine hState hLine (Nat.le_of_not_lt hLong) hNonempty h

theorem firstLine_render {line : Bytes} (h : ¬ crlf <:+: line) (rest : Bytes) :
    firstLine (line ++ crlf ++ rest) = some (line, rest) :=
  (firstLine_eq_some_iff _ _ _).mpr ⟨rfl, h⟩

/-- Reading accepted header lines is part of every run that starts on them. -/
theorem run_acceptLines {q : HttpParser} {headers : List Bytes} (hState : p.state = .headers)
    (hCrlf : ∀ h ∈ headers, ¬ crlf <:+: h) (hNonempty : ∀ h ∈ headers, h ≠ [])
    (h : p.acceptLines headers = some q) (tail : Bytes) :
    q.state = .headers ∧ consumer.run p (renderHeaders headers ++ tail) = consumer.run q tail := by
  induction headers generalizing p with
  | nil =>
    cases h
    exact ⟨hState, rfl⟩
  | cons header headers ih =>
    rw [acceptLines, List.foldlM_cons] at h
    obtain ⟨p', hLine, hLines⟩ := Option.bind_eq_some_iff.mp h
    obtain ⟨hQ, hRun⟩ := ih ((acceptLine_state hLine).trans hState)
      (fun h' m => hCrlf h' (List.mem_cons_of_mem _ m))
      (fun h' m => hNonempty h' (List.mem_cons_of_mem _ m)) hLines
    refine ⟨hQ, ?_⟩
    have hFirst := firstLine_render (hCrlf header (List.mem_cons_self ..))
        (renderHeaders headers ++ tail)
    have hStep := advance_of_acceptLine hState hFirst (hNonempty header (List.mem_cons_self ..))
        hLine
    rw [renderHeaders, List.flatMap_cons, List.append_assoc]
    exact (run_step hStep).trans hRun

/-- Every input behind a request line splits into the header lines that the
parser accepts and a tail on which no further header line is accepted. -/
theorem exists_acceptLines (hState : p.state = .headers) (xs : Bytes) :
    ∃ headers tail q, xs = renderHeaders headers ++ tail ∧ (∀ h ∈ headers, ¬ crlf <:+: h) ∧
      (∀ h ∈ headers, h ≠ []) ∧ p.acceptLines headers = some q ∧
      ∀ line rest, firstLine tail = some (line, rest) → line ≠ [] → q.acceptLine line = none := by
  induction hn : xs.length using Nat.strongRecOn generalizing p xs with
  | _ n ih =>
    by_cases hStep : ∃ line rest p', firstLine xs = some (line, rest) ∧ line ≠ [] ∧
        p.acceptLine line = some p'
    · obtain ⟨line, rest, p', hLine, hNonempty, hAccept⟩ := hStep
      have hShorter : rest.length < n := by
        have hLength := length_of_firstLine hLine
        omega
      obtain ⟨headers, tail, q, rfl, hCrlf, hFull, hLines, hEnd⟩ :=
        ih _ hShorter ((acceptLine_state hAccept).trans hState) rest rfl
      obtain ⟨hXs, hNoCrlf⟩ := (firstLine_eq_some_iff _ _ _).mp hLine
      refine ⟨line :: headers, tail, q, ?_, ?_, ?_, ?_, hEnd⟩
      · simp only [hXs, renderHeaders, List.flatMap_cons, List.append_assoc]
      · simpa using ⟨hNoCrlf, hCrlf⟩
      · simpa using ⟨hNonempty, hFull⟩
      · rw [acceptLines, List.foldlM_cons]
        exact Option.bind_eq_some_iff.mpr ⟨p', hAccept, hLines⟩
    · refine ⟨[], xs, p, rfl, by simp, by simp, rfl, ?_⟩
      intro line rest hLine hNonempty
      rw [Option.eq_none_iff_forall_not_mem]
      intro p' hAccept
      exact hStep ⟨line, rest, p', hLine, hNonempty, hAccept⟩

/-- The parser behind a request line of the grammar. -/
def atHeaders (limits : Limits) (method path version : Bytes) : HttpParser :=
  { create limits with
    request := { HttpRequest.empty with method, path, version }
    state := .headers }

theorem atHeaders_atHeaders (limits : Limits) (method path version : Bytes) :
    (atHeaders limits method path version).AtHeaders := ⟨rfl, rfl, rfl, rfl, rfl⟩

theorem run_requestLine {limits : Limits} {line method path version : Bytes}
    (hCrlf : ¬ crlf <:+: line) (hLength : line.length ≤ limits.requestLineBytes)
    (hLine : RequestLine line method path version) (rest : Bytes) :
    consumer.run (create limits) (line ++ crlf ++ rest) =
      consumer.run (atHeaders limits method path version) rest := by
  have hAccept := (acceptRequestLine_iff (create limits) _ line).mpr ⟨method, path, version, hLine,
      rfl⟩
  exact run_step
    (advance_requestLine rfl (firstLine_render hCrlf rest) hLength hAccept)

/-- The parser after the complete request. -/
def finished (limits : Limits) (m : Message) (method path version : Bytes) : HttpParser where
  limits := limits
  state := .done
  request := ⟨method, path, version, headerMap m.headers, m.body⟩
  contentLength := bodySize m.headers
  headerBytes := headersSize m.headers + 2
  contentLengthSeen := m.headers.any (fun h => IsContentLength h)

/-- The blank line ends the headers; an empty body completes the request, any
other is taken from what follows once enough of it is there. -/
theorem run_blankLine {limits : Limits} {headers : List Bytes} (ok : HeadersOk limits headers)
    (hLimit : headersSize headers + 2 ≤ limits.headerBytes) (method path version rest : Bytes) :
    consumer.run ((atHeaders limits method path version).withHeaders headers) (crlf ++ rest) =
      if rest.length < bodySize headers then
        (none, { (atHeaders limits method path version).withHeaders headers with
          headerBytes := headersSize headers + 2, state := .body }, rest)
      else (some .complete, finished limits ⟨[], headers, rest.take (bodySize headers)⟩ method path
        version, rest.drop (bodySize headers)) := by
  have hStep := advance_blankLine (p := (atHeaders limits method path version).withHeaders headers)
    rfl (firstLine_crlf rest) hLimit
  change consumer.run _ (13 :: 10 :: rest) = _
  rw [run_step hStep]
  by_cases hEmpty : bodySize headers = 0
  · have hDone : ((atHeaders limits method path version).withHeaders headers).contentLength = 0 :=
      hEmpty
    rw [if_pos hDone, hEmpty, if_neg (Nat.not_lt_zero _)]
    rw [run_stop (advance_done rfl rest)]
    simp only [finished, withHeaders, atHeaders, create, HttpRequest.empty, hEmpty, List.take_zero,
      List.drop_zero]
  · have hBody : ((atHeaders limits method path version).withHeaders headers).contentLength ≠ 0 :=
      hEmpty
    have hAllowed : ¬ bodySize headers > limits.bodyBytes := by
      unfold bodySize at hEmpty ⊢
      cases hFind : headers.find? (fun h => IsContentLength h) with
      | none => simp [hFind] at hEmpty
      | some first =>
        have hFirst : IsContentLength first := by simpa using List.find?_some hFind
        exact Nat.not_lt.mpr (ok.size first (List.mem_of_find?_eq_some hFind) hFirst).allowed
    rw [if_neg hBody]
    split_ifs with hShort
    · refine run_wait ?_
      change (if bodySize headers > limits.bodyBytes then _ else _) = _
      rw [if_neg hAllowed]
      exact if_pos hShort
    · refine run_stop ?_
      change (if bodySize headers > limits.bodyBytes then _ else _) = _
      rw [if_neg hAllowed]
      exact if_neg hShort

end HttpParser

/-- What makes the parser give up on the bytes behind good header lines: too
many of them, or a line that does not fit the lines before it. -/
inductive BadTail (limits : Limits) (headers : List Bytes) : Bytes → Prop where
  | unfinished {tail : Bytes} (hCrlf : ¬ crlf <:+: tail)
      (hLong : limits.headerBytes < headersSize headers + tail.length) : BadTail limits headers tail
  | line {h : Bytes} (rest : Bytes) (hCrlf : ¬ crlf <:+: h)
      (hBad : limits.headerBytes < headersSize headers + h.length + 2 ∨
        (h ≠ [] ∧ ¬ HeadersOk limits (headers ++ [h]))) :
      BadTail limits headers (h ++ crlf ++ rest)

/-- The inputs that are rejected: a request line that is too long or not of the
grammar, or a bad tail behind a good line and good headers. -/
inductive Malformed (limits : Limits) : Bytes → Prop where
  | unfinished {xs : Bytes} (hCrlf : ¬ crlf <:+: xs) (hLong : limits.requestLineBytes < xs.length) :
      Malformed limits xs
  | line {line : Bytes} (rest : Bytes) (hCrlf : ¬ crlf <:+: line)
      (hBad : limits.requestLineBytes < line.length ∨
        ¬ ∃ method path version, RequestLine line method path version) :
      Malformed limits (line ++ crlf ++ rest)
  | headers {line method path version : Bytes} {headers : List Bytes} {tail : Bytes}
      (hCrlf : ¬ crlf <:+: line) (hLength : line.length ≤ limits.requestLineBytes)
      (hLine : RequestLine line method path version) (hHeaderCrlf : ∀ h ∈ headers, ¬ crlf <:+: h)
      (hNonempty : ∀ h ∈ headers, h ≠ []) (hSize : headersSize headers ≤ limits.headerBytes)
      (hOk : HeadersOk limits headers) (hTail : BadTail limits headers tail) :
      Malformed limits (line ++ crlf ++ (renderHeaders headers ++ tail))

namespace HttpParser

theorem acceptRequestLine_reject {p : HttpParser} {line : Bytes}
    (h : ¬ ∃ method path version, RequestLine line method path version) :
    (p.acceptRequestLine line).2 = false := by
  by_contra hAccept
  have hPair : p.acceptRequestLine line = ((p.acceptRequestLine line).1, true) :=
    Prod.ext rfl (by simpa using hAccept)
  obtain ⟨method, path, version, hWords, -⟩ := (acceptRequestLine_iff _ _ _).mp hPair
  exact h ⟨method, path, version, hWords⟩

variable {limits : Limits} {method path version : Bytes} {headers : List Bytes}

/-- A line is refused behind good headers when it is too long or spoils them. -/
theorem acceptLine_eq_none_iff
    (hAccept : (atHeaders limits method path version).acceptLines headers =
      some ((atHeaders limits method path version).withHeaders headers)) (h : Bytes) :
    ((atHeaders limits method path version).withHeaders headers).acceptLine h = none ↔
      limits.headerBytes < headersSize headers + h.length + 2 ∨
      ¬ HeadersOk limits (headers ++ [h]) := by
  have hNext := acceptLines_concat (atHeaders limits method path version) headers h
  rw [hAccept, Option.bind_some] at hNext
  rw [← hNext, Option.eq_none_iff_forall_ne_some]
  simp only [ne_eq, acceptLines_iff (atHeaders_atHeaders limits method path version),
    headersSize_concat]
  constructor
  · intro hNone
    by_contra hBoth
    rw [not_or, not_not] at hBoth
    have hFits : headersSize headers + (h.length + 2) ≤ limits.headerBytes := by omega
    exact hNone _ ⟨hFits, hBoth.2, rfl⟩
  · rintro hBad q ⟨hFits, hOk, -⟩
    have hFits : headersSize headers + (h.length + 2) ≤ limits.headerBytes := hFits
    rcases hBad with hLong | hSpoils
    · omega
    · exact hSpoils hOk

/-- On the tail behind its last accepted header line the parser rejects, waits
for more, or finds the blank line within the limit. -/
theorem run_tail {tail : Bytes}
    (hAccept : (atHeaders limits method path version).acceptLines headers =
      some ((atHeaders limits method path version).withHeaders headers))
    (hEnd : ∀ line rest, firstLine tail = some (line, rest) → line ≠ [] →
      ((atHeaders limits method path version).withHeaders headers).acceptLine line = none) :
    (BadTail limits headers tail ∧
        (consumer.run ((atHeaders limits method path version).withHeaders headers) tail).1 =
        some .error) ∨
      (consumer.run ((atHeaders limits method path version).withHeaders headers) tail).1 = none ∨
      ∃ rest, tail = crlf ++ rest ∧ headersSize headers + 2 ≤ limits.headerBytes := by
  have hError := advance_error_headers
    (p := (atHeaders limits method path version).withHeaders headers) rfl tail
  cases hFirst : firstLine tail with
  | none =>
    have hCrlf := (firstLine_eq_none_iff tail).mp hFirst
    simp only [hFirst] at hError
    by_cases hLong : limits.headerBytes < headersSize headers + tail.length
    · exact .inl ⟨.unfinished hCrlf hLong, run_error_of_advance (hError.mpr hLong)⟩
    · right; left
      rw [run_wait]
      simp [advance, atHeaders, withHeaders, create, hFirst, hLong]
  | some found =>
    obtain ⟨line, rest⟩ := found
    obtain ⟨rfl, hCrlf⟩ := (firstLine_eq_some_iff _ _ _).mp hFirst
    simp only [hFirst] at hError
    by_cases hLong : limits.headerBytes < headersSize headers + line.length + 2
    · exact .inl ⟨.line rest hCrlf (.inl hLong), run_error_of_advance (hError.mpr (.inl hLong))⟩
    by_cases hBlank : line = []
    · subst hBlank
      exact .inr (.inr ⟨rest, rfl, Nat.le_of_not_lt hLong⟩)
    · have hNone := hEnd line rest hFirst hBlank
      have hSpoils := ((acceptLine_eq_none_iff hAccept line).mp hNone).resolve_left hLong
      exact .inl ⟨.line rest hCrlf (.inr ⟨hBlank, hSpoils⟩),
        run_error_of_advance (hError.mpr (.inr ⟨hBlank, hNone⟩))⟩

/-- An input is malformed at once, has no complete request line yet, or is a
good request line with good headers and a tail the header loop stops on. -/
theorem run_cases (limits : Limits) (xs : Bytes) :
    (Malformed limits xs ∧ (consumer.run (create limits) xs).1 = some .error) ∨
      (consumer.run (create limits) xs).1 = none ∨
      ∃ line method path version headers rest, ¬ crlf <:+: line ∧
        line.length ≤ limits.requestLineBytes ∧ RequestLine line method path version ∧
        (∀ h ∈ headers, ¬ crlf <:+: h) ∧ (∀ h ∈ headers, h ≠ []) ∧
        headersSize headers + 2 ≤ limits.headerBytes ∧ HeadersOk limits headers ∧
        xs = line ++ crlf ++ (renderHeaders headers ++ (crlf ++ rest)) ∧
        consumer.run (create limits) xs =
          consumer.run ((atHeaders limits method path version).withHeaders headers)
          (crlf ++ rest) := by
  have hError := advance_error_requestLine (p := create limits) rfl xs
  cases hFirst : firstLine xs with
  | none =>
    have hCrlf := (firstLine_eq_none_iff xs).mp hFirst
    simp only [hFirst] at hError
    by_cases hLong : limits.requestLineBytes < xs.length
    · exact .inl ⟨.unfinished hCrlf hLong, run_error_of_advance (hError.mpr hLong)⟩
    · right; left
      rw [run_wait]
      simp [advance, create, hFirst, hLong]
  | some found =>
    obtain ⟨line, rest⟩ := found
    obtain ⟨rfl, hCrlf⟩ := (firstLine_eq_some_iff _ _ _).mp hFirst
    simp only [hFirst] at hError
    by_cases hLong : limits.requestLineBytes < line.length
    · exact .inl ⟨.line rest hCrlf (.inl hLong), run_error_of_advance (hError.mpr (.inl hLong))⟩
    have hLength := Nat.le_of_not_lt hLong
    by_cases hLine : ∃ method path version, RequestLine line method path version
    · obtain ⟨method, path, version, hLine⟩ := hLine
      obtain ⟨headers, tail, q, rfl, hHeaderCrlf, hNonempty, hAccept, hEnd⟩ :=
        exists_acceptLines (p := atHeaders limits method path version) rfl rest
      obtain ⟨hSize, hOk, rfl⟩ :=
        (acceptLines_iff (atHeaders_atHeaders limits method path version) _ _).mp hAccept
      have hRun := (run_acceptLines rfl hHeaderCrlf hNonempty hAccept tail).2
      rw [run_requestLine hCrlf hLength hLine, hRun]
      rcases run_tail hAccept hEnd with ⟨hBad, hStop⟩ | hWait | ⟨rest, rfl, hLimit⟩
      · exact .inl ⟨.headers hCrlf hLength hLine hHeaderCrlf hNonempty hSize hOk hBad, hStop⟩
      · exact .inr (.inl hWait)
      · exact .inr (.inr ⟨line, method, path, version, headers, rest, hCrlf, hLength, hLine,
          hHeaderCrlf, hNonempty, hLimit, hOk, rfl, rfl⟩)
    · refine .inl ⟨.line rest hCrlf (.inr hLine), run_error_of_advance (hError.mpr (.inr ?_))⟩
      exact acceptRequestLine_reject (fun h => hLine h)

/-- The parser completes on exactly the requests of the grammar. It then holds
the request, and what follows the request is left unread. -/
theorem run_complete_iff (limits : Limits) (xs : Bytes) (p : HttpParser) (rest : Bytes) :
    consumer.run (create limits) xs = (some .complete, p, rest) ↔
      ∃ m method path version, Message.WellFormed limits m method path version ∧
        xs = m.render ++ rest ∧ p = finished limits m method path version := by
  constructor
  · intro h
    rcases run_cases limits xs with ⟨-, hStop⟩ | hWait |
      ⟨line, method, path, version, headers, after, hCrlf, hLength, hLine, hHeaderCrlf, hNonempty,
        hLimit, hOk, rfl, hRun⟩
    · rw [h] at hStop
      cases hStop
    · rw [h] at hWait
      cases hWait
    · rw [hRun, run_blankLine hOk hLimit] at h
      split_ifs at h with hShort
      · cases h
      simp only [Prod.mk.injEq, true_and] at h
      obtain ⟨rfl, rfl⟩ := h
      refine ⟨⟨line, headers, after.take (bodySize headers)⟩, method, path, version,
        ⟨hCrlf, hLength, hLine, hHeaderCrlf, hNonempty, hLimit, hOk, ?_⟩, ?_, rfl⟩
      · rw [List.length_take]
        exact Nat.min_eq_left (Nat.le_of_not_lt hShort)
      · simp only [Message.render, List.append_assoc, List.take_append_drop]
  · rintro ⟨m, method, path, version, hm, rfl, rfl⟩
    have hHeaders := (acceptLines_iff (atHeaders_atHeaders limits method path version) m.headers
      _).mpr ⟨Nat.le_of_add_right_le hm.headers_length, hm.headers_ok, rfl⟩
    have hSplit : m.render ++ rest =
        m.line ++ crlf ++ (renderHeaders m.headers ++ (crlf ++ (m.body ++ rest))) := by
      simp only [Message.render, List.append_assoc]
    rw [hSplit, run_requestLine hm.line_crlf hm.line_length hm.line_words,
      (run_acceptLines rfl hm.header_crlf hm.header_nonempty hHeaders _).2,
      run_blankLine hm.headers_ok hm.headers_length, if_neg]
    · rw [← hm.body_length, List.take_left, List.drop_left]
      rfl
    · rw [← hm.body_length, List.length_append]
      omega

theorem run_error_of_badTail {tail : Bytes}
    (hAccept : (atHeaders limits method path version).acceptLines headers =
      some ((atHeaders limits method path version).withHeaders headers))
    (h : BadTail limits headers tail) :
    (consumer.run ((atHeaders limits method path version).withHeaders headers) tail).1 =
      some .error := by
  apply run_error_of_advance
  rw [advance_error_headers rfl]
  cases h with
  | unfinished hCrlf hLong =>
    rw [(firstLine_eq_none_iff tail).mpr hCrlf]
    exact hLong
  | @line h rest hCrlf hBad =>
    rw [firstLine_render hCrlf]
    rcases hBad with hLong | ⟨hNonempty, hSpoils⟩
    · exact .inl hLong
    · exact .inr ⟨hNonempty, (acceptLine_eq_none_iff hAccept h).mpr (.inr hSpoils)⟩

/-- The parser rejects exactly the malformed inputs. -/
theorem run_error_iff (limits : Limits) (xs : Bytes) :
    (consumer.run (create limits) xs).1 = some .error ↔ Malformed limits xs := by
  constructor
  · intro h
    rcases run_cases limits xs with ⟨hBad, -⟩ | hWait |
      ⟨line, method, path, version, headers, after, -, -, -, -, -, hLimit, hOk, rfl, hRun⟩
    · exact hBad
    · rw [h] at hWait
      cases hWait
    · rw [hRun, run_blankLine hOk hLimit] at h
      split_ifs at h
      cases h
  · intro h
    cases h with
    | unfinished hCrlf hLong =>
      apply run_error_of_advance
      rw [advance_error_requestLine rfl, (firstLine_eq_none_iff xs).mpr hCrlf]
      exact hLong
    | line rest hCrlf hBad =>
      apply run_error_of_advance
      rw [advance_error_requestLine rfl, firstLine_render hCrlf]
      exact hBad.imp_right acceptRequestLine_reject
    | @headers line method path version headers tail hCrlf hLength hLine hHeaderCrlf hNonempty hSize
        hOk hTail =>
        have hAccept := (acceptLines_iff (atHeaders_atHeaders limits method path version) headers
          _).mpr ⟨hSize, hOk, rfl⟩
        rw [run_requestLine hCrlf hLength hLine,
          (run_acceptLines rfl hHeaderCrlf hNonempty hAccept _).2]
        exact run_error_of_badTail hAccept hTail

/-- A fresh parser on a buffer holding the bytes completes exactly on a request
of the grammar followed by anything. The completed request has the words of the
line, each key with the value of its last occurrence, and the body; exactly the
bytes behind the request stay readable. -/
theorem parse_complete_iff (limits : Limits) (buffer : Buffer) :
    ((∃ p buffer', (create limits).parse buffer = .ok (.complete, p, buffer')) ↔
      ∃ m method path version rest, Message.WellFormed limits m method path version ∧
        buffer.bytes = m.render ++ rest) ∧
    ∀ request rest,
      (∃ p buffer', (create limits).parse buffer = .ok (.complete, p, buffer') ∧
        p.request = request ∧ buffer'.bytes = rest) ↔
      ∃ m, Message.WellFormed limits m request.method request.path request.version ∧
        buffer.bytes = m.render ++ rest ∧ request.body = m.body ∧
        ∀ key, request.headers.lookup key =
          (m.headers.reverse.find? (fun h => headerKey h = key)).map headerValue := by
  have hComplete := fun p rest =>
    parse_ok_iff (show Result.complete ≠ .incomplete by decide) (create limits) p buffer rest
  refine ⟨⟨?_, ?_⟩, fun request rest => ⟨?_, ?_⟩⟩
  · rintro ⟨p, b, h⟩
    obtain ⟨m, method, path, version, hm, hEq, -⟩ :=
      (run_complete_iff _ _ _ _).mp ((hComplete p b.bytes).mp ⟨b, h, rfl⟩)
    exact ⟨m, method, path, version, b.bytes, hm, hEq⟩
  · rintro ⟨m, method, path, version, rest, hm, hEq⟩
    obtain ⟨b, h, -⟩ := (hComplete _ rest).mpr
      ((run_complete_iff _ _ _ _).mpr ⟨m, method, path, version, hm, hEq, rfl⟩)
    exact ⟨_, b, h⟩
  · rintro ⟨p, b, h, rfl, hRest⟩
    obtain ⟨m, method, path, version, hm, hEq, rfl⟩ :=
      (run_complete_iff _ _ _ _).mp ((hComplete p rest).mp ⟨b, h, hRest⟩)
    exact ⟨m, hm, hEq, rfl, lookup_headerMap m.headers⟩
  · rintro ⟨m, hm, hEq, hBody, hMap⟩
    obtain ⟨b, h, hRest⟩ := (hComplete _ rest).mpr
      ((run_complete_iff _ _ _ _).mpr ⟨m, _, _, _, hm, hEq, rfl⟩)
    refine ⟨_, b, h, ?_, hRest⟩
    have hHeaders : headerMap m.headers = request.headers :=
      Finmap.ext_lookup (fun key => (lookup_headerMap m.headers key).trans (hMap key).symm)
    obtain ⟨method, path, version, headers, body⟩ := request
    dsimp only at hHeaders hBody
    simp only [finished, hHeaders, hBody]

end HttpParser
end Tinycoro.Http
