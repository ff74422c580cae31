import Tinycoro.Buffer
import Tinycoro.Http.Text
import Mathlib.Data.Finmap

/-! The incremental HTTP/1.x request parser. The functions follow the source
over a real `Buffer`, so every `consume` may in principle throw; that none does
is proved with the refinement. Sizes are added as natural numbers: the sums
count bytes that went through one buffer. -/
namespace Tinycoro.Http

structure HttpRequest where
  method : Bytes
  path : Bytes
  version : Bytes
  headers : Finmap (fun _ : Bytes => Bytes)
  body : Bytes
  deriving DecidableEq

/-- The default-constructed request. -/
def HttpRequest.empty : HttpRequest := ⟨[], [], [], ∅, []⟩

inductive Result where
  | incomplete
  | complete
  | error
  deriving DecidableEq, Repr

structure Limits where
  requestLineBytes : Nat := 8 * 1024
  headerBytes : Nat := 64 * 1024
  bodyBytes : Nat := 1024 * 1024
  deriving DecidableEq

inductive State where
  | requestLine
  | headers
  | body
  | done
  deriving DecidableEq, Repr

structure HttpParser where
  limits : Limits
  state : State
  request : HttpRequest
  contentLength : Nat
  headerBytes : Nat
  contentLengthSeen : Bool
  deriving DecidableEq

namespace HttpParser

/-- A parser fresh from its constructor. -/
def create (limits : Limits) : HttpParser := ⟨limits, .requestLine, .empty, 0, 0, false⟩

/-- `reset` forgets everything except the limits. -/
def reset (p : HttpParser) : HttpParser :=
  { p with
    state := .requestLine
    request := .empty
    contentLength := 0
    headerBytes := 0
    contentLengthSeen := false }

/-- The stream expression `input >> method >> path >> version` and the check
that no `extra` word follows. A failed extraction leaves its target and all
later targets as they were. -/
def readFields (request : HttpRequest) (line : Bytes) : HttpRequest × Bool :=
  match extractToken line with
  | none => (request, false)
  | some (method, input) =>
    let request := { request with method }
    match extractToken input with
    | none => (request, false)
    | some (path, input) =>
      let request := { request with path }
      match extractToken input with
      | none => (request, false)
      | some (version, input) => ({ request with version }, (extractToken input).isNone)

/-- The treatment of one complete request line; `false` is the `ERROR` exit. -/
def acceptRequestLine (p : HttpParser) (line : Bytes) : HttpParser × Bool :=
  let (request, ok) := readFields p.request line
  let p := { p with request }
  if !ok then (p, false)
  else if request.version ≠ ascii "HTTP/1.1" ∧ request.version ≠ ascii "HTTP/1.0" then (p, false)
  else ({ p with state := .headers }, true)

def parseRequestLine (p : HttpParser) (buffer : Buffer) :
    Except StdError (Result × HttpParser × Buffer) :=
  match buffer.findCrlf with
  | none =>
    .ok (if buffer.readable > p.limits.requestLineBytes then .error else .incomplete, p, buffer)
  | some crlf =>
    if crlf > p.limits.requestLineBytes then .ok (.error, p, buffer)
    else do
      let line := buffer.readPtr.take crlf
      let buffer ← buffer.consume (crlf + 2)
      let (p, ok) := p.acceptRequestLine line
      return (if ok then .incomplete else .error, p, buffer)

/-- The framing checks on one header: `none` is the `ERROR` exit. -/
def acceptFraming (p : HttpParser) (key value : Bytes) : Option HttpParser :=
  if iequals key (ascii "Content-Length") then
    match parseSize value with
    | none => none
    | some parsed =>
      if parsed > p.limits.bodyBytes then none
      else if p.contentLengthSeen ∧ parsed ≠ p.contentLength then none
      else some { p with contentLengthSeen := true, contentLength := parsed }
  else if iequals key (ascii "Transfer-Encoding") && !iequals value (ascii "identity") then none
  else some p

/-- The treatment of one complete, nonempty header line; `none` is the `ERROR`
exit, all of which leave the parser's fields as they were. -/
def acceptHeader (p : HttpParser) (line : Bytes) : Option HttpParser :=
  match line.findIdx? (· = 58) with
  | none => none
  | some colon =>
    let key := trim (substr line 0 colon)
    let value := trim (line.drop (colon + 1))
    if key = [] then none
    else (p.acceptFraming key value).map fun p =>
      { p with request := { p.request with headers := p.request.headers.insert key value } }

/-- One turn of the loop in `parse_headers`; the result `none` goes round again. -/
def parseHeaderLine (p : HttpParser) (buffer : Buffer) :
    Except StdError (Option Result × HttpParser × Buffer) :=
  match buffer.findCrlf with
  | none =>
    .ok (some (if p.headerBytes + buffer.readable > p.limits.headerBytes
      then .error else .incomplete), p, buffer)
  | some crlf =>
    if p.headerBytes + crlf + 2 > p.limits.headerBytes then .ok (some .error, p, buffer)
    else
      let p := { p with headerBytes := p.headerBytes + (crlf + 2) }
      if crlf = 0 then do
        let buffer ← buffer.consume 2
        return (some .incomplete,
          { p with state := if p.contentLength = 0 then .done else .body }, buffer)
      else do
        let line := buffer.readPtr.take crlf
        let buffer ← buffer.consume (crlf + 2)
        match p.acceptHeader line with
        | none => return (some .error, p, buffer)
        | some p => return (none, p, buffer)

/-- The loop of `parse_headers`, cut off after `fuel` turns. -/
def parseHeadersLoop : Nat → HttpParser → Buffer → Except StdError (Result × HttpParser × Buffer)
  | 0, p, buffer => .ok (.incomplete, p, buffer)
  | fuel + 1, p, buffer => do
    let (result, p, buffer) ← p.parseHeaderLine buffer
    match result with
    | some result => return (result, p, buffer)
    | none => parseHeadersLoop fuel p buffer

/-- Every turn that goes round again consumes a line, so the readable bytes
bound the number of turns. -/
def parseHeaders (p : HttpParser) (buffer : Buffer) :
    Except StdError (Result × HttpParser × Buffer) :=
  parseHeadersLoop (buffer.readable + 1) p buffer

def parseBody (p : HttpParser) (buffer : Buffer) :
    Except StdError (Result × HttpParser × Buffer) :=
  if p.contentLength > p.limits.bodyBytes then .ok (.error, p, buffer)
  else if buffer.readable < p.contentLength then .ok (.incomplete, p, buffer)
  else do
    let body := buffer.readPtr.take p.contentLength
    let buffer ← buffer.consume p.contentLength
    return (.complete, { p with request := { p.request with body }, state := .done }, buffer)

/-- The `switch` of `parse`. In the final state the source returns at once. -/
def parseState (p : HttpParser) (buffer : Buffer) :
    Except StdError (Result × HttpParser × Buffer) :=
  match p.state with
  | .requestLine => p.parseRequestLine buffer
  | .headers => p.parseHeaders buffer
  | .body => p.parseBody buffer
  | .done => .ok (.complete, p, buffer)

/-- The loop of `parse`, cut off after `fuel` turns. -/
def parseLoop : Nat → HttpParser → Buffer → Except StdError (Result × HttpParser × Buffer)
  | 0, p, buffer => .ok (.incomplete, p, buffer)
  | fuel + 1, p, buffer => do
    let before := p.state
    let (result, p, buffer) ← p.parseState buffer
    if result = .error ∨ result = .complete then return (result, p, buffer)
    else if p.state = before then return (.incomplete, p, buffer)
    else parseLoop fuel p buffer

/-- The states follow a fixed order, so four turns always suffice. -/
def parse (p : HttpParser) (buffer : Buffer) : Except StdError (Result × HttpParser × Buffer) :=
  parseLoop 4 p buffer

end HttpParser
end Tinycoro.Http
