import Tinycoro.Net.Operations
import Tinycoro.Net.ReadSome
import Tinycoro.Net.WriteAll

/-! The code of `read_some` and `write_all` is in the model twice: with the bytes, among tasks that
share a buffer or a descriptor, and with counts only, on the executor. Between two suspensions both
do the same. -/
namespace Tinycoro.Net.Operations

section WriteAll

variable {κ : Type} {s : WriteAll.State κ} {data : Bytes} {deadline : Deadline} {written : Nat}
  {failure : Option Failure}

/-- Where a `write_all` that has the bytes stands, in terms of the counts. -/
def placeOf : WriteAll.Pc → Option Pc
  | .sending _ written => some (.trying written)
  | .arming _ written => some (.asking written)
  | .returned result => some (.ended (.io result))
  | _ => none

/-- The kernel's answer to `::send` takes `write_all` to the same place. -/
theorem attempt_writeAll {answer : Transfer} (hOpen : (s.owner s.fd).isSome = true)
    (hMore : written < data.length) :
    (s.sent data deadline written answer).bind (fun r => placeOf r.1.pc) =
      (writeAll data.length).attempt written answer failure := by
  simp only [writeAll, if_pos hMore]
  cases answer with
  | count n =>
    simp only [WriteAll.State.sent, hOpen, true_and]
    by_cases hFits : n ≤ data.length - written
    · rw [if_pos hFits, if_neg (Nat.not_lt.mpr hFits)]
      split_ifs <;> rfl
    · rw [if_neg hFits, if_pos (Nat.lt_of_not_le hFits)]
      rfl
  | failed errno =>
    simp only [WriteAll.State.sent, hOpen, true_or, if_true]
    split_ifs <;> rfl

theorem begin_writeAll {timeout : Duration} {now : Int} {answer : Transfer}
    {refused : Option StdError} (hPc : s.pc = .start) :
    (s.run data timeout now answer refused).bind (fun r => placeOf r.1.pc) =
      some ((writeAll data.length).begin s.fd failure) := by
  simp only [WriteAll.State.run, hPc, writeAll]
  split_ifs <;> rfl

theorem resume_writeAll {ready : Bool} (hPc : s.pc = .waiting deadline written) :
    (s.resume ready).bind (fun r => placeOf r.1.pc) =
      some ((writeAll data.length).resume written ready s.fd) := by
  simp only [WriteAll.State.resume, hPc, writeAll]
  split_ifs <;> rfl

end WriteAll

section ReadSome

variable {ι : Type} {i : ι} {r : ReadSome.Reader} {maxBytes : UInt64} {deadline : Deadline}
  {now fd : Int} {output : RawBuffer} {answers : List ReadSome.Answer}

/-- An answer of `::recv` without the bytes, and whether `has_written` throws behind it. -/
def countOf (output : RawBuffer) : ReadSome.Answer → Transfer × Option Failure
  | .data chunk => (.count chunk.length, (ReadSome.commit output chunk).error.map (fun _ => .room))
  | .failed errno => (.failed errno, none)

/-- Answers are taken until one ends the loop or asks for a wait. -/
def Body.attempts (body : Body) (written : Nat) : List (Transfer × Option Failure) → Option Pc
  | [] => none
  | (answer, failure) :: rest =>
    match body.attempt written answer failure with
    | some (.trying written) => body.attempts written rest
    | place => place

/-- Where a `read_some` that has the bytes stands: it waits, or its last event tells how it has
ended. -/
def stopOf (r : ReadSome.Pc × RawBuffer × List (ReadSome.Event ι)) : Option Pc :=
  match r.1, r.2.2.getLast? with
  | .waiting _ _, _ => some (.asking 0)
  | .idle, some (.returned _ result _) => some (.ended (.io result))
  | .idle, some (.threw _ e _) => some (.ended (.threw e))
  | .idle, _ => none

theorem stopOf_recv (r : ReadSome.Pc × RawBuffer × List (ReadSome.Event ι)) {room : UInt64}
    {chunk : Bytes} : stopOf (r.1, r.2.1, .recv i room maxBytes chunk :: r.2.2) = stopOf r := by
  obtain ⟨pc, output, events⟩ := r
  rcases List.eq_nil_or_concat events with rfl | ⟨front, last, rfl⟩
  · cases pc <;> rfl
  · simp [stopOf, List.getLast?_cons]

/-- The loop of `read_some` takes the answers of `::recv` to the same place. -/
theorem attempts_readSome (b : Buffer) :
    (ReadSome.receive i fd maxBytes deadline now none b.toRaw answers).bind stopOf =
      (readSome maxBytes.toNat).attempts 0 (answers.map (countOf b.toRaw)) := by
  induction answers with
  | nil => rfl
  | cons answer answers ih =>
    rw [List.map_cons]
    cases answer with
    | data chunk =>
      simp only [ReadSome.receive, Body.attempts, countOf, readSome]
      by_cases hFits : chunk.length ≤ maxBytes.toNat
      · rw [if_pos hFits, if_neg (Nat.not_lt.mpr hFits)]
        cases chunk with
        | nil => rfl
        | cons x xs =>
          have hSome : (x :: xs).length > 0 := Nat.succ_pos _
          rw [if_neg (List.cons_ne_nil x xs), if_pos hSome]
          rcases ReadSome.commit_toRaw b hFits with ⟨b', hCommit, -⟩ | ⟨-, b', hCommit⟩
          · rw [hCommit]
            rfl
          · rw [hCommit]
            rfl
      · rw [if_neg hFits, if_pos (Nat.lt_of_not_le hFits)]
        rfl
    | failed errno =>
      have hAttempt : (readSome maxBytes.toNat).attempt 0 (.failed errno) none =
          if errno = EINTR then some (.trying 0)
          else if errno ≠ EAGAIN ∧ errno ≠ EWOULDBLOCK then some (.ended (.io ⟨.error, 0, errno⟩))
          else some (.asking 0) := rfl
      simp only [ReadSome.receive, Body.attempts, countOf, hAttempt]
      split_ifs
      · rw [Option.bind_map]
        exact (congrArg _ (funext fun r => stopOf_recv r)).trans ih
      · rfl
      · rfl

/-- Behind the `co_await` both go on or end alike. -/
theorem resume_readSome {ready : Bool} {refused : Option StdError}
    (hPc : r.pc = .waiting maxBytes deadline) :
    r.resume i ready now refused output answers =
      match (readSome maxBytes.toNat).resume 0 ready r.fd with
      | .ended (.io result) => some (.idle, output, [.returned i result output.bytes])
      | _ => ReadSome.receive i r.fd maxBytes deadline now refused output answers := by
  simp only [ReadSome.Reader.resume, hPc, readSome]
  split_ifs <;> rfl

end ReadSome

end Tinycoro.Net.Operations
