import Tinycoro.Library.Transition
import Tinycoro.Net.TcpStream
import Mathlib.Data.List.TakeDrop

/-! The coroutine `TcpStream::write_all` among the other tasks of its context. Each
`::send` is one step with the kernel's answer as its label. While the coroutine is
suspended, others may close the stream, and the kernel may give its descriptor number
to another connection. -/
namespace Tinycoro.Net.WriteAll

open Transition

variable {κ : Type}

/-- Where the coroutine stands. `arming` is in front of `co_await wait_writable`. -/
inductive Pc where
  | start
  | sending (deadline : Deadline) (written : Nat)
  | arming (deadline : Deadline) (written : Nat)
  | waiting (deadline : Deadline) (written : Nat)
  | returned (result : IoResult)
  | threw (written : Nat) (e : StdError)
  deriving DecidableEq

/-- `owner` says which connection an open descriptor refers to, and `fd` is the
stream's own descriptor. -/
structure State (κ : Type) where
  owner : Int → Option κ
  fd : Int
  pc : Pc

/-- `sent` is a call of `::send`: the connection behind the descriptor and the bytes
the kernel took. -/
inductive Event (κ : Type) where
  | began (isOpen : Bool)
  | sent (target : Option κ) (chunk : Bytes)
  | waitWritable (fd : Int) (timeout : Duration)
  | closed
  deriving DecidableEq

/-- The coroutine takes its next step, with the clock, the kernel's answer to `::send`
and the exception of a wait that cannot be armed; it is resumed from a wait; another
task calls `close`, whose `cancel` may throw; a descriptor number is given to a new
connection or closed by whoever owns it. -/
inductive Action (κ : Type) where
  | run (now : Int) (answer : Transfer) (refused : Option StdError)
  | resume (ready : Bool)
  | close (threw : Bool)
  | opened (fd : Int) (conn : κ)
  | released (fd : Int)

namespace State

/-- The answer to one `::send` of `data.size() - written` bytes. -/
def sent (s : State κ) (data : Bytes) (deadline : Deadline) (written : Nat) :
    Transfer → Option (State κ × List (Event κ))
  | .count n =>
    if (s.owner s.fd).isSome ∧ n ≤ data.length - written then
      let events := [.sent (s.owner s.fd) ((data.drop written).take n)]
      if n > 0 then some ({ s with pc := .sending deadline (written + n) }, events)
      else some ({ s with pc := .arming deadline written }, events)
    else none
  | .failed errno =>
    if (s.owner s.fd).isSome ∨ errno = EBADF then
      let events := [.sent (s.owner s.fd) []]
      if errno = EINTR then some ({ s with pc := .sending deadline written }, events)
      else if errno ≠ EAGAIN ∧ errno ≠ EWOULDBLOCK then
        some ({ s with pc := .returned ⟨.error, written, errno⟩ }, events)
      else some ({ s with pc := .arming deadline written }, events)
    else none

def run (s : State κ) (data : Bytes) (timeout : Duration) (now : Int) (answer : Transfer)
    (refused : Option StdError) : Option (State κ × List (Event κ)) :=
  match s.pc with
  | .start =>
    if s.fd < 0 then some ({ s with pc := .returned ⟨.closed, 0, EBADF⟩ }, [.began false])
    else some ({ s with pc := .sending (.create timeout now) 0 }, [.began true])
  | .sending deadline written =>
    if written < data.length then s.sent data deadline written answer
    else some ({ s with pc := .returned ⟨.ok, written, 0⟩ }, [])
  | .arming deadline written =>
    match refused with
    | some e => some ({ s with pc := .threw written e }, [])
    | none => some ({ s with pc := .waiting deadline written },
        [.waitWritable s.fd (deadline.remaining now)])
  | _ => none

/-- The rest of the loop body behind `co_await wait_writable`. -/
def resume (s : State κ) (ready : Bool) : Option (State κ × List (Event κ)) :=
  match s.pc with
  | .waiting deadline written =>
    if !ready then
      if s.fd < 0 then some ({ s with pc := .returned ⟨.closed, written, EBADF⟩ }, [])
      else some ({ s with pc := .returned ⟨.timeout, written, 0⟩ }, [])
    else if s.fd < 0 then some ({ s with pc := .returned ⟨.closed, written, EBADF⟩ }, [])
    else some ({ s with pc := .sending deadline written }, [])
  | _ => none

/-- `TcpStream::close`, while the coroutine is not on the stack. -/
def close (s : State κ) (threw : Bool) : Option (State κ × List (Event κ)) :=
  match s.pc with
  | .sending _ _ => none
  | .arming _ _ => none
  | _ =>
    if s.fd < 0 ∨ threw then some (s, [])
    else some ({ s with owner := Function.update s.owner s.fd none, fd := -1 }, [.closed])

/-- `own` is the connection of this stream. A new connection is another one, and
nobody else closes this stream's descriptor. -/
def next [DecidableEq κ] (own : κ) (data : Bytes) (timeout : Duration) (s : State κ) :
    Action κ → Option (State κ × List (Event κ))
  | .run now answer refused => s.run data timeout now answer refused
  | .resume ready => s.resume ready
  | .close threw => s.close threw
  | .opened fd conn =>
    if s.owner fd = none ∧ conn ≠ own then
      some ({ s with owner := Function.update s.owner fd (some conn) }, [])
    else none
  | .released fd =>
    if fd ≠ s.fd then some ({ s with owner := Function.update s.owner fd none }, []) else none

end State

/-- `write_all(data, timeout)` on a stream with descriptor `fd` for the connection
`own`. -/
def machine [DecidableEq κ] (own : κ) (fd : Int) (data : Bytes) (timeout : Duration) :
    Machine (State κ) (Action κ) (Event κ) where
  start := ⟨Function.update (fun _ => none) fd (some own), fd, .start⟩
  next := State.next own data timeout

/-- What a step can do. Of the descriptor table only what the stream sees is kept: as
long as its descriptor is open, it refers to the same connection. -/
inductive Step (data : Bytes) (s : State κ) : State κ → List (Event κ) → Prop where
  | refused : s.pc = .start → s.fd < 0 →
      Step data s { s with pc := .returned ⟨.closed, 0, EBADF⟩ } [.began false]
  | began {deadline} : s.pc = .start → 0 ≤ s.fd →
      Step data s { s with pc := .sending deadline 0 } [.began true]
  | accepted {deadline written n} : s.pc = .sending deadline written → n ≤ data.length - written →
      Step data s { s with pc := .sending deadline (written + n) }
        [.sent (s.owner s.fd) ((data.drop written).take n)]
  | blocked {deadline written} : s.pc = .sending deadline written → written < data.length →
      Step data s { s with pc := .arming deadline written } [.sent (s.owner s.fd) []]
  | failed {deadline written errno} : s.pc = .sending deadline written → written < data.length →
      Step data s { s with pc := .returned ⟨.error, written, errno⟩ } [.sent (s.owner s.fd) []]
  | finished {deadline written} : s.pc = .sending deadline written → data.length ≤ written →
      Step data s { s with pc := .returned ⟨.ok, written, 0⟩ } []
  | threw {deadline written e} : s.pc = .arming deadline written →
      Step data s { s with pc := .threw written e } []
  | armed {deadline written timeout} : s.pc = .arming deadline written →
      Step data s { s with pc := .waiting deadline written } [.waitWritable s.fd timeout]
  | gone {deadline written} : s.pc = .waiting deadline written → s.fd < 0 →
      Step data s { s with pc := .returned ⟨.closed, written, EBADF⟩ } []
  | expired {deadline written} : s.pc = .waiting deadline written → 0 ≤ s.fd →
      Step data s { s with pc := .returned ⟨.timeout, written, 0⟩ } []
  | ready {deadline written} : s.pc = .waiting deadline written → 0 ≤ s.fd →
      Step data s { s with pc := .sending deadline written } []
  | closed : (∀ deadline written, s.pc ≠ .sending deadline written) →
      (∀ deadline written, s.pc ≠ .arming deadline written) → 0 ≤ s.fd →
      Step data s { s with owner := Function.update s.owner s.fd none, fd := -1 } [.closed]
  | elsewhere {owner} :
      owner s.fd = s.owner s.fd ∨ s.owner s.fd = none → Step data s { s with owner } []

namespace Step

variable {data : Bytes} {s s' : State κ} {events : List (Event κ)}

theorem of_sent {deadline : Deadline} {written : Nat} {answer : Transfer}
    (hPc : s.pc = .sending deadline written) (hMore : written < data.length)
    (h : s.sent data deadline written answer = some (s', events)) : Step data s s' events := by
  cases answer with
  | count n =>
    simp only [State.sent] at h
    split at h
    · rename_i hFits
      split at h
      · cases h
        exact .accepted hPc hFits.2
      · rename_i hZero
        cases h
        rw [Nat.le_zero.mp (Nat.not_lt.mp hZero), List.take_zero]
        exact .blocked hPc hMore
    · cases h
  | failed =>
    simp only [State.sent] at h
    split at h
    · split at h
      · cases h
        exact .accepted (n := 0) hPc (Nat.zero_le _)
      · split at h
        · cases h
          exact .failed hPc hMore
        · cases h
          exact .blocked hPc hMore
    · cases h

theorem of_run {timeout : Duration} {now : Int} {answer : Transfer} {refused : Option StdError}
    (h : s.run data timeout now answer refused = some (s', events)) : Step data s s' events := by
  unfold State.run at h
  cases hPc : s.pc with
  | start =>
    simp only [hPc] at h
    split at h
    · cases h
      exact .refused hPc ‹_›
    · cases h
      exact .began hPc (Int.not_lt.mp ‹_›)
  | sending =>
    simp only [hPc] at h
    split at h
    · exact of_sent hPc ‹_› h
    · cases h
      exact .finished hPc (Nat.not_lt.mp ‹_›)
  | arming =>
    simp only [hPc] at h
    cases refused with
    | some =>
      cases h
      exact .threw hPc
    | none =>
      cases h
      exact .armed hPc
  | _ => simp [hPc] at h

theorem of_resume {ready : Bool} (h : s.resume ready = some (s', events)) :
    Step data s s' events := by
  unfold State.resume at h
  cases hPc : s.pc with
  | waiting =>
    simp only [hPc] at h
    split at h
    · split at h
      · cases h
        exact .gone hPc ‹_›
      · cases h
        exact .expired hPc (Int.not_lt.mp ‹_›)
    · split at h
      · cases h
        exact .gone hPc ‹_›
      · cases h
        exact .ready hPc (Int.not_lt.mp ‹_›)
  | _ => simp [hPc] at h

theorem of_close {threw : Bool} (h : s.close threw = some (s', events)) :
    Step data s s' events := by
  unfold State.close at h
  split at h
  · cases h
  · cases h
  · rename_i hSending hArming
    split at h
    · cases h
      exact .elsewhere (.inl rfl)
    · rename_i hOpen
      cases h
      exact .closed hSending hArming (Int.not_lt.mp (fun hNeg => hOpen (.inl hNeg)))

theorem of_next [DecidableEq κ] {own : κ} {timeout : Duration} {a : Action κ}
    (h : s.next own data timeout a = some (s', events)) : Step data s s' events := by
  cases a with
  | run => exact of_run h
  | resume => exact of_resume h
  | close => exact of_close h
  | opened fd conn =>
    simp only [State.next] at h
    split at h
    · rename_i hFree
      cases h
      by_cases hSame : s.fd = fd
      · subst hSame
        exact .elsewhere (.inr hFree.1)
      · exact .elsewhere (.inl (Function.update_of_ne hSame ..))
    · cases h
  | released fd =>
    simp only [State.next] at h
    split at h
    · rename_i hOther
      cases h
      exact .elsewhere (.inl (Function.update_of_ne hOther.symm ..))
    · cases h

end Step

/-- How far the coroutine has come. -/
def Pc.written : Pc → Nat
  | .start => 0
  | .sending _ written => written
  | .arming _ written => written
  | .waiting _ written => written
  | .returned result => result.bytes
  | .threw written _ => written

/-- The bytes handed to the kernel, in order. -/
def sentBytes (trace : List (Event κ)) : Bytes :=
  trace.flatMap fun
    | .sent _ chunk => chunk
    | _ => []

def Event.isSend : Event κ → Bool
  | .sent _ _ => true
  | _ => false

/-- What the coroutine knows where it stands. -/
def Pc.Ok (data : Bytes) (fd : Int) (trace : List (Event κ)) : Pc → Prop
  | .start => .began true ∉ trace
  | .sending _ written => 0 ≤ fd ∧ written ≤ data.length
  | .arming _ written => 0 ≤ fd ∧ written < data.length
  | .waiting _ written => written < data.length
  | .returned result => result.bytes ≤ data.length ∧
      (.began true ∈ trace → (result.status = .ok ↔ result.bytes = data.length))
  | .threw written _ => written < data.length

structure Inv (own : κ) (data : Bytes) (s : State κ) (trace : List (Event κ)) : Prop where
  owned : 0 ≤ s.fd → s.owner s.fd = some own
  pc : s.pc.Ok data s.fd trace
  sent : sentBytes trace = data.take s.pc.written
  targets : ∀ target chunk, .sent target chunk ∈ trace → target = some own
  closed : .closed ∈ trace → s.fd < 0
  silent : trace.Pairwise fun e later => e = .closed → later.isSend = false

/-- A result other than `Ok` comes from inside the loop, where bytes are left. -/
theorem Pc.ok_of_short {data : Bytes} {fd : Int} {trace : List (Event κ)} {status : IoStatus}
    {written errno : Nat} (hLt : written < data.length) (hStatus : status ≠ .ok) :
    (Pc.returned ⟨status, written, errno⟩).Ok data fd trace :=
  ⟨Nat.le_of_lt hLt, fun _ => ⟨fun hEq => absurd hEq hStatus, fun hEq =>
    absurd hEq (Nat.ne_of_lt hLt)⟩⟩

theorem sentBytes_append (trace events : List (Event κ)) :
    sentBytes (trace ++ events) = sentBytes trace ++ sentBytes events := List.flatMap_append

/-- Events of others do not touch what the suspended coroutine knows. -/
theorem Pc.Ok.frame {pc : Pc} {data : Bytes} {fd fd' : Int} {trace events : List (Event κ)}
    (h : pc.Ok data fd trace) (hBegan : .began true ∉ events)
    (hFd : fd' = fd ∨ ((∀ deadline written, pc ≠ .sending deadline written) ∧
      ∀ deadline written, pc ≠ .arming deadline written)) : pc.Ok data fd' (trace ++ events) := by
  have hMem : .began true ∈ trace ++ events → .began true ∈ trace := by
    intro hIn
    rcases List.mem_append.mp hIn with hOld | hNew
    · exact hOld
    · exact absurd hNew hBegan
  cases pc with
  | start => exact fun hIn => h (hMem hIn)
  | sending deadline written =>
    rcases hFd with rfl | ⟨hNot, _⟩
    · exact h
    · exact absurd rfl (hNot deadline written)
  | arming deadline written =>
    rcases hFd with rfl | ⟨_, hNot⟩
    · exact h
    · exact absurd rfl (hNot deadline written)
  | waiting => exact h
  | returned => exact ⟨h.1, fun hIn => h.2 (hMem hIn)⟩
  | threw => exact h

namespace Inv

variable {own : κ} {data : Bytes} {s s' : State κ} {trace events : List (Event κ)}

/-- One more event at most, and a `::send` only through the open descriptor. -/
theorem extend (h : Inv own data s trace) (hOwned : 0 ≤ s'.fd → s'.owner s'.fd = some own)
    (hPc : s'.pc.Ok data s'.fd (trace ++ events))
    (hSent : data.take s'.pc.written = data.take s.pc.written ++ sentBytes events)
    (hTargets : ∀ target chunk, .sent target chunk ∈ events → 0 ≤ s.fd ∧ target = s.owner s.fd)
    (hClosed : .closed ∈ trace ++ events → s'.fd < 0) (hOne : events.length ≤ 1) :
    Inv own data s' (trace ++ events) where
  owned := hOwned
  pc := hPc
  sent := by rw [sentBytes_append, h.sent, hSent]
  targets := by
    intro target chunk hMem
    rcases List.mem_append.mp hMem with hOld | hNew
    · exact h.targets target chunk hOld
    · obtain ⟨hOpen, rfl⟩ := hTargets target chunk hNew
      exact h.owned hOpen
  closed := hClosed
  silent := by
    refine List.pairwise_append.mpr ⟨h.silent, ?_, ?_⟩
    · match events, hOne with
      | [], _ => exact .nil
      | [e], _ => exact List.pairwise_singleton _ _
    · rintro _ hOld later hNew rfl
      cases later with
      | sent target chunk =>
        have hOpen := (hTargets target chunk hNew).1
        have hGone := h.closed hOld
        omega
      | _ => rfl

/-- The coroutine moves on without sending, its descriptor as it was. -/
theorem turn (h : Inv own data s trace) {pc : Pc} (hPc : pc.Ok data s.fd (trace ++ events))
    (hWritten : pc.written = s.pc.written) (hSend : ∀ e ∈ events, e.isSend = false)
    (hClosed : .closed ∉ events) (hOne : events.length ≤ 1) :
    Inv own data { s with pc } (trace ++ events) := by
  have hNoBytes : sentBytes events = [] := by
    apply List.flatMap_eq_nil_iff.mpr
    intro e hMem
    have hNot := hSend e hMem
    cases e with
    | sent => cases hNot
    | _ => rfl
  refine h.extend h.owned hPc ?_ ?_ ?_ hOne
  · rw [hNoBytes, List.append_nil, hWritten]
  · intro target chunk hMem
    exact absurd (hSend _ hMem) nofun
  · intro hMem
    rcases List.mem_append.mp hMem with hOld | hNew
    · exact h.closed hOld
    · exact absurd hNew hClosed

/-- The coroutine calls `::send`. -/
theorem send (h : Inv own data s trace) {deadline : Deadline} {written : Nat} {pc : Pc}
    {chunk : Bytes} (hFrom : s.pc = .sending deadline written)
    (hPc : pc.Ok data s.fd (trace ++ [.sent (s.owner s.fd) chunk]))
    (hChunk : data.take pc.written = data.take written ++ chunk) :
    Inv own data { s with pc } (trace ++ [.sent (s.owner s.fd) chunk]) := by
  have hOk := h.pc
  rw [hFrom] at hOk
  refine h.extend h.owned hPc ?_ ?_ ?_ (Nat.le_refl _)
  · rw [hFrom, sentBytes, List.flatMap_singleton]
    exact hChunk
  · intro target chunk' hMem
    cases List.mem_singleton.mp hMem
    exact ⟨hOk.1, rfl⟩
  · intro hMem
    rcases List.mem_append.mp hMem with hOld | hNew
    · exact h.closed hOld
    · cases List.mem_singleton.mp hNew

/-- Every step keeps what was sent a prefix of the data, all of it to the own connection. -/
theorem step (h : Inv own data s trace) (hStep : Step data s s' events) :
    Inv own data s' (trace ++ events) := by
  have hOk := h.pc
  cases hStep with
  | refused hPc =>
    rw [hPc] at hOk
    refine h.turn ⟨Nat.zero_le _, fun hMem => ?_⟩ (by rw [hPc]; rfl) (by simp [Event.isSend])
      (by simp) (Nat.le_refl _)
    exact absurd (by simpa using hMem) hOk
  | began hPc hOpen =>
    exact h.turn ⟨hOpen, Nat.zero_le _⟩ (by rw [hPc]; rfl) (by simp [Event.isSend]) (by simp)
      (Nat.le_refl _)
  | accepted hPc =>
    rw [hPc] at hOk
    refine h.send hPc ⟨hOk.1, ?_⟩ ?_
    · have hLe := hOk.2
      omega
    · exact List.take_add
  | blocked hPc hMore =>
    rw [hPc] at hOk
    exact h.send hPc ⟨hOk.1, hMore⟩ (List.append_nil _).symm
  | failed hPc hMore =>
    exact h.send hPc (Pc.ok_of_short hMore nofun) (List.append_nil _).symm
  | finished hPc hAll =>
    rw [hPc] at hOk
    have hEq := Nat.le_antisymm hOk.2 hAll
    exact h.turn ⟨hOk.2, fun _ => ⟨fun _ => hEq, fun _ => rfl⟩⟩ (by rw [hPc]; rfl) nofun nofun
      (Nat.zero_le _)
  | threw hPc =>
    rw [hPc] at hOk
    exact h.turn hOk.2 (by rw [hPc]; rfl) nofun nofun (Nat.zero_le _)
  | armed hPc =>
    rw [hPc] at hOk
    exact h.turn hOk.2 (by rw [hPc]; rfl) (by simp [Event.isSend]) (by simp) (Nat.le_refl _)
  | gone hPc | expired hPc =>
    rw [hPc] at hOk
    exact h.turn (Pc.ok_of_short hOk nofun) (by rw [hPc]; rfl) nofun nofun (Nat.zero_le _)
  | ready hPc hOpen =>
    rw [hPc] at hOk
    exact h.turn ⟨hOpen, Nat.le_of_lt hOk⟩ (by rw [hPc]; rfl) nofun nofun (Nat.zero_le _)
  | closed hSending hArming =>
    have hGone : (-1 : Int) < 0 := by decide
    exact h.extend (fun hPos => absurd hPos (Int.not_le.mpr hGone))
      (hOk.frame (by simp) (.inr ⟨hSending, hArming⟩)) (List.append_nil _).symm (by simp)
      (fun _ => hGone)
      (Nat.le_refl _)
  | elsewhere hOwner =>
    refine h.extend (fun hOpen => ?_) (hOk.frame nofun (.inl rfl)) (List.append_nil _).symm nofun ?_
      (Nat.zero_le _)
    · rcases hOwner with hSame | hNone
      · exact hSame.trans (h.owned hOpen)
      · exact absurd ((h.owned hOpen).symm.trans hNone) nofun
    · rw [List.append_nil]
      exact h.closed

theorem of_reaches [DecidableEq κ] {fd : Int} {timeout : Duration}
    (h : (machine own fd data timeout).Reaches s trace) : Inv own data s trace := by
  refine h.invariant (P := Inv own data) ?_ (fun _ hInv hNext => hInv.step (.of_next hNext))
  have hOwned : (machine own fd data timeout).start.owner fd = some own := by
    simp [machine]
  exact ⟨fun _ => hOwned, nofun, rfl, nofun, nofun, .nil⟩

end Inv

/-- What `write_all` guarantees, in the middle of a call and when it has returned. -/
structure SendsPrefix (own : κ) (data : Bytes) (s : State κ) (trace : List (Event κ)) : Prop where
  inOrder : sentBytes trace <+: data
  exact : ∀ result, s.pc = .returned result →
    sentBytes trace = data.take result.bytes ∧ result.bytes ≤ data.length
  status : ∀ result, s.pc = .returned result → .began true ∈ trace →
    (result.status = .ok ↔ result.bytes = data.length)
  own : ∀ target chunk, .sent target chunk ∈ trace → target = some own
  silent : ∀ before after, trace = before ++ .closed :: after → ∀ e ∈ after, e.isSend = false

/-- Whatever the kernel answers and whoever closes the stream meanwhile, the bytes
sent are the prefix that the result counts, all of them to this stream's connection
and none after `close`. -/
theorem writeAll_sendsPrefix [DecidableEq κ] {own : κ} {fd : Int} {data : Bytes}
    {timeout : Duration} {s : State κ} {trace : List (Event κ)}
    (h : (machine own fd data timeout).Reaches s trace) : SendsPrefix own data s trace := by
  have hInv := Inv.of_reaches h
  have hPc := hInv.pc
  refine ⟨?_, ?_, ?_, hInv.targets, ?_⟩
  · rw [hInv.sent]
    exact List.take_prefix _ _
  · intro result hReturned
    rw [hReturned] at hPc
    exact ⟨by rw [hInv.sent, hReturned]; rfl, hPc.1⟩
  · intro result hReturned hBegan
    rw [hReturned] at hPc
    exact hPc.2 hBegan
  · rintro before after rfl e hMem
    have hLater := (List.pairwise_append.mp hInv.silent).2.1
    exact (List.pairwise_cons.mp hLater).1 e hMem rfl

/-- The stream is closed while a wake-up is queued, and its number is given to another
connection before the coroutine runs again. -/
theorem writeAll_sendsPrefix_closed :
    ∃ (s : State Bool) (trace : List (Event Bool)),
      s.owner 4 = some false ∧ s.pc = .returned ⟨.closed, 2, EBADF⟩ ∧
      trace = [.began true, .sent (some true) [1, 2], .sent (some true) [], .sent (some true) [],
        .waitWritable 4 5, .closed] ∧ SendsPrefix true [1, 2, 3] s trace := by
  have hRun : ((machine true 4 [1, 2, 3] 5).run (machine true 4 [1, 2, 3] 5).start
      [.run 7 (.count 0) none, .run 7 (.count 2) none, .run 7 (.failed EINTR) none,
        .run 7 (.failed EAGAIN) none, .run 7 (.count 0) none, .close false, .opened 4 false,
        .resume true]).map
      (fun r => (r.1.owner 4, r.1.pc, r.2)) =
      some (some false, .returned ⟨.closed, 2, EBADF⟩, [.began true, .sent (some true) [1, 2],
        .sent (some true) [], .sent (some true) [], .waitWritable 4 5, .closed])
        := by decide +kernel
  obtain ⟨⟨s, trace⟩, hRun, hEq⟩ := Option.map_eq_some_iff.mp hRun
  simp only [Prod.mk.injEq] at hEq
  exact ⟨s, trace, hEq.1, hEq.2.1, hEq.2.2, writeAll_sendsPrefix (Machine.Reaches.start.run hRun)⟩

end Tinycoro.Net.WriteAll
