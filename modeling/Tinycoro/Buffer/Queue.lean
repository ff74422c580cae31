import Tinycoro.Buffer.Word

/-! What the buffer is for: a queue of bytes. `Fifo` says how a call and its answer
change the queue, without cursors or storage. Every run of the buffer is a run of the
queue, and the capacity matters only to calls that the queue may refuse for want of
room. -/
namespace Tinycoro

open Effect

/-- The calls on a buffer. `write` stores bytes at `write_ptr()` and commits `n` of
them with `has_written`. -/
inductive BufferOp where
  | append (short : Bool) (data : Option Bytes) (len : UInt64)
  | write (data : Bytes) (n : UInt64)
  | consume (n : UInt64)
  | ensureWritable (short : Bool) (len : UInt64)
  | retrieveAllAsString (short : Bool)
  deriving DecidableEq

/-- The strings a call returned, or its exception. -/
abbrev BufferResult := Except StdError (List Bytes)

namespace BufferOp

/-- What a caller must keep to: a pointer has `len` bytes behind it, and a direct
write stays inside the writable space and commits only what it wrote. -/
def Valid (b : RawBuffer) : BufferOp → Prop
  | append _ (some source) len => len.toNat ≤ source.length
  | write data n => data.length ≤ b.writable.toNat ∧ (n.toNat ≤ data.length ∨ n > b.writable)
  | _ => True

instance (b : RawBuffer) (op : BufferOp) : Decidable (op.Valid b) := by
  unfold Valid
  split <;> infer_instance

def perform (b : RawBuffer) : BufferOp → BufferOutcome
  | append short data len => b.append short data len
  | write data n => (b.writeDirect data).hasWritten n
  | consume n => b.consume n
  | ensureWritable short len => b.ensureWritable short len
  | retrieveAllAsString short => b.retrieveAllAsString short

/-- What the caller sees of a call. -/
def result (b : RawBuffer) (op : BufferOp) : BufferResult :=
  match (op.perform b).error with
  | none => .ok (op.perform b).events
  | some e => .error e

end BufferOp

/-- Make the calls one after the other, going on after an exception. -/
def RawBuffer.run (b : RawBuffer) : List BufferOp → Option (RawBuffer × List BufferResult)
  | [] => some (b, [])
  | op :: ops =>
    if op.Valid b then
      (run (op.perform b).state ops).map (fun r => (r.1, op.result b :: r.2))
    else none

/-- When a call throws, and what. -/
def BufferOp.Throws (b : RawBuffer) : BufferOp → StdError → Prop
  | append _ none len, e =>
    len ≠ 0 ∧ e = .invalidArgument "Buffer::append requires non-null data"
  | append short (some _) len, e | ensureWritable short len, e => b.Refuses short len e
  | write _ n, e => b.writable < n ∧ e = .outOfRange "Buffer::has_written"
  | consume n, e => b.bytes.length < n.toNat ∧ e = .outOfRange "Buffer::consume"
  | retrieveAllAsString short, e =>
    stringMax < b.bytes.length ∧ e = .lengthError "basic_string::_M_create" ∨
      b.bytes.length ≤ stringMax ∧ short = true ∧ e = .badAlloc

/-- The queue of bytes: the content, and how many bytes have come in since it was last
empty. -/
structure ByteQueue where
  content : Bytes
  since : Nat

namespace ByteQueue

def empty : ByteQueue := ⟨[], 0⟩

def push (q : ByteQueue) (data : Bytes) : ByteQueue :=
  ⟨q.content ++ data, q.since + data.length⟩

def pop (q : ByteQueue) (n : Nat) : ByteQueue :=
  if q.content.length ≤ n then empty else ⟨q.content.drop n, q.since⟩

/-- The answer to a call that gets the room it needs, and what it makes of the queue. A
direct write fits if no more is committed than was written. -/
def answer (q : ByteQueue) : BufferOp → BufferResult × ByteQueue
  | .append _ data len =>
    if len = 0 then (.ok [], q)
    else match data with
      | none => (.error (.invalidArgument "Buffer::append requires non-null data"), q)
      | some source => (.ok [], q.push (source.take len.toNat))
  | .write data n =>
    if n.toNat ≤ data.length then (.ok [], q.push (data.take n.toNat))
    else (.error (.outOfRange "Buffer::has_written"), q)
  | .consume n =>
    if n.toNat ≤ q.content.length then (.ok [], q.pop n.toNat)
    else (.error (.outOfRange "Buffer::consume"), q)
  | .ensureWritable _ _ => (.ok [], q)
  | .retrieveAllAsString _ => (.ok [q.content], empty)

/-- When room for `len` more bytes may be refused: there is no memory, or with what has
come in since the queue was last empty they are more than a vector, or `size_t`, can
count. -/
def Denied (q : ByteQueue) (short : Bool) (len : Nat) (e : StdError) : Prop :=
  0 < len ∧ (short = true ∧ e = .badAlloc ∨
    vectorMax < q.since + len ∧ e = .lengthError "vector::_M_default_append" ∨
      sizeMax < q.since + len ∧ e = .lengthError "Buffer capacity overflow")

/-- When a call may be refused for want of room. -/
def Refuses (q : ByteQueue) : BufferOp → StdError → Prop
  | .append short (some _) len, e | .ensureWritable short len, e => q.Denied short len.toNat e
  | .retrieveAllAsString short, e => short = true ∧ e = .badAlloc ∨
      stringMax < q.content.length ∧ e = .lengthError "basic_string::_M_create"
  | _, _ => False

/-- None of the calls can be refused where it is made. -/
def Ample : ByteQueue → List BufferOp → Prop
  | _, [] => True
  | q, op :: ops => (∀ e, ¬ q.Refuses op e) ∧ (q.answer op).2.Ample ops

/-- Only calls that the queue would serve are refused. -/
theorem Refuses.answer_ne {q : ByteQueue} {op : BufferOp} {e e' : StdError}
    (h : q.Refuses op e) : (q.answer op).1 ≠ .error e' := by
  match op, h with
  | .append _ (some _) len, h =>
    rw [answer]
    split <;> nofun
  | .ensureWritable _ _, _ => nofun
  | .retrieveAllAsString _, _ => nofun

end ByteQueue

/-- A call on the queue gets its answer, or is refused and changes nothing. -/
inductive Fifo (q : ByteQueue) (op : BufferOp) : BufferResult → ByteQueue → Prop where
  | answered : Fifo q op (q.answer op).1 (q.answer op).2
  | refused {e} : q.Refuses op e → Fifo q op (.error e) q

inductive FifoRun : ByteQueue → List BufferOp → List BufferResult → ByteQueue → Prop where
  | nil {q} : FifoRun q [] [] q
  | cons {q op result q' ops results q''} : Fifo q op result q' →
      FifoRun q' ops results q'' → FifoRun q (op :: ops) (result :: results) q''

variable {left right : ByteQueue}

/-- The call and its answer determine the queue. -/
theorem Fifo.deterministic {q : ByteQueue} {op : BufferOp} {result result' : BufferResult}
    (hLeft : Fifo q op result left) (hRight : Fifo q op result' right) (hSame : result = result') :
    left = right := by
  cases hLeft with
  | answered =>
    cases hRight with
    | answered => rfl
    | refused hRefuses => exact absurd hSame hRefuses.answer_ne
  | refused hRefuses =>
    cases hRight with
    | answered => exact absurd hSame.symm hRefuses.answer_ne
    | refused => rfl

theorem ByteQueue.content_pop (q : ByteQueue) (n : Nat) : (q.pop n).content = q.content.drop n := by
  unfold pop
  split
  · rename_i hAll
    exact (List.drop_eq_nil_of_le hAll).symm
  · rfl

theorem Fifo.of_consume {q q' : ByteQueue} {n : UInt64} {result : BufferResult}
    (h : Fifo q (.consume n) result q') :
    n.toNat ≤ q.content.length ∧ result = .ok [] ∧ q'.content = q.content.drop n.toNat ∨
      (∃ e, result = .error e) ∧ q' = q := by
  cases h with
  | refused hRefuses => exact hRefuses.elim
  | answered =>
    rw [ByteQueue.answer]
    split
    · rename_i hLe
      exact .inl ⟨hLe, rfl, q.content_pop n.toNat⟩
    · exact .inr ⟨⟨_, rfl⟩, rfl⟩

theorem Fifo.of_retrieve {q q' : ByteQueue} {short : Bool} {result : BufferResult}
    (h : Fifo q (.retrieveAllAsString short) result q') :
    result = .ok [q.content] ∧ q'.content = [] ∨ (∃ e, result = .error e) ∧ q' = q := by
  cases h with
  | refused => exact .inr ⟨⟨_, rfl⟩, rfl⟩
  | answered => exact .inl ⟨rfl, rfl⟩

theorem FifoRun.deterministic {q : ByteQueue} {ops : List BufferOp} {results : List BufferResult}
    (hLeft : FifoRun q ops results left) (hRight : FifoRun q ops results right) : left = right := by
  induction hLeft with
  | nil =>
    cases hRight
    rfl
  | cons hStep _ ih =>
    cases hRight with
    | cons hStep' hRun =>
      cases hStep.deterministic hStep' rfl
      exact ih hRun

/-- Where no call can be refused, the calls alone determine the answers. -/
theorem FifoRun.answers_unique {q : ByteQueue} {ops : List BufferOp}
    {results results' : List BufferResult} (hLeft : FifoRun q ops results left)
    (hRight : FifoRun q ops results' right) (hAmple : q.Ample ops) : results = results' := by
  induction hLeft generalizing results' with
  | nil =>
    cases hRight
    rfl
  | cons hStep _ ih =>
    cases hRight with
    | cons hStep' hRun =>
      cases hStep with
      | refused hRefuses => exact absurd hRefuses (hAmple.1 _)
      | answered =>
        cases hStep' with
        | refused hRefuses => exact absurd hRefuses (hAmple.1 _)
        | answered => rw [ih hRun hAmple.2]

/-- A call that has thrown: the cursors and the readable bytes are as before. -/
structure Untouched (before after : RawBuffer) : Prop where
  readIdx : after.readIdx = before.readIdx
  writeIdx : after.writeIdx = before.writeIdx
  bytes : after.bytes = before.bytes

/-- A call from a buffer with ordered cursors leads to one and is a step of the
queue. The write cursor has not run ahead of the bytes that came in since the queue was
last empty. -/
structure Served (b : Buffer) (op : BufferOp) (b' : Buffer) : Prop where
  state : (op.perform b.toRaw).state = b'.toRaw
  fifo : ∀ since, b.writeIdx ≤ since → ∃ since', b'.writeIdx ≤ since' ∧
    Fifo ⟨b.bytes, since⟩ op (op.result b.toRaw) ⟨b'.bytes, since'⟩
  size : b'.buf.length ≤ max b.buf.length vectorMax
  untouched : (op.perform b.toRaw).error ≠ none → Untouched b.toRaw b'.toRaw
  room : ∀ {short len}, op = .ensureWritable short len → (op.perform b.toRaw).error = none →
    len.toNat ≤ b'.writable

section Calls

variable {b : Buffer} {op : BufferOp}

theorem served_returned {b' : Buffer} {events : List Bytes}
    (h : op.perform b.toRaw = .ok b'.toRaw events)
    (hFifo : ∀ since, b.writeIdx ≤ since → ∃ since', b'.writeIdx ≤ since' ∧
      Fifo ⟨b.bytes, since⟩ op (.ok events) ⟨b'.bytes, since'⟩)
    (hSize : b'.buf.length ≤ max b.buf.length vectorMax)
    (hRoom : ∀ {short len}, op = .ensureWritable short len → len.toNat ≤ b'.writable) :
    Served b op b' where
  state := by rw [h, Outcome.ok_state]
  fifo := by
    rw [BufferOp.result, h]
    exact hFifo
  size := hSize
  untouched := by
    rw [h]
    exact fun hError => absurd rfl hError
  room := fun hOp _ => hRoom hOp

variable {e : StdError} {len : UInt64}

theorem served_thrown {b' : Buffer} (h : op.perform b.toRaw = .fail e b'.toRaw [])
    (hFifo : ∀ since, b.writeIdx ≤ since → Fifo ⟨b.bytes, since⟩ op (.error e) ⟨b.bytes, since⟩)
    (hBytes : b'.bytes = b.bytes) (hRead : b'.readIdx = b.readIdx)
    (hWrite : b'.writeIdx = b.writeIdx) (hSize : b'.buf.length = b.buf.length) :
    Served b op b' where
  state := by rw [h, Outcome.fail_state]
  fifo := by
    intro since hSince
    rw [BufferOp.result, h, hBytes, hWrite]
    exact ⟨since, hSince, hFifo since hSince⟩
  size := hSize.trans_le (Nat.le_max_left ..)
  untouched := fun _ =>
    ⟨congrArg UInt64.ofNat hRead, congrArg UInt64.ofNat hWrite, by
      rw [Buffer.bytes_toRaw, Buffer.bytes_toRaw, hBytes]⟩
  room := by
    rw [h]
    exact fun _ => nofun

theorem served_unchanged (h : op.perform b.toRaw = .fail e b.toRaw [])
    (hFifo : ∀ since, b.writeIdx ≤ since → Fifo ⟨b.bytes, since⟩ op (.error e) ⟨b.bytes, since⟩) :
    Served b op b :=
  served_thrown h hFifo rfl rfl rfl rfl

theorem length_consume (raw : RawBuffer) (n : UInt64) :
    (raw.consume n).state.buf.length = raw.buf.length := by
  unfold RawBuffer.consume
  split_ifs
  · rfl
  · dsimp only
    split_ifs <;> rfl

/-- `consume` takes a prefix of the queue, or answers with the exception of the queue. -/
theorem consume_served (b : Buffer) (n : UInt64) : ∃ b', Served b (.consume n) b' := by
  have hLength := b.length_bytes
  rcases Nat.lt_trichotomy n.toNat b.readable with hLt | hAll | hPast
  · obtain ⟨b', hConsume, hBytes, hWrite⟩ := b.consume_ok n.toNat (Nat.le_of_lt hLt)
    have hRaw : b.toRaw.consume n = .ok b'.toRaw [] := by
      rw [b.consume_toRaw, hConsume]
      rfl
    refine ⟨b', served_returned hRaw ?_ ?_ nofun⟩
    · intro since hSince
      refine ⟨since, hWrite.trans hSince, ?_⟩
      have hStep : Fifo ⟨b.bytes, since⟩ (.consume n) _ _ := .answered
      rw [ByteQueue.answer, if_pos (by simpa [hLength] using Nat.le_of_lt hLt), ByteQueue.pop,
        if_neg (by simpa [hLength] using hLt)] at hStep
      rwa [hBytes]
    · have hBuf := congrArg (·.state.buf.length) hRaw
      exact (hBuf.symm.trans (length_consume ..)).trans_le (Nat.le_max_left ..)
  · obtain ⟨b', hConsume, hBytes, hBuf, hWrite⟩ := b.consume_all
    have hRaw : b.toRaw.consume n = .ok b'.toRaw [] := by
      rw [b.consume_toRaw, hAll, hConsume]
      rfl
    refine ⟨b', served_returned hRaw ?_ (hBuf ▸ Nat.le_max_left ..) nofun⟩
    intro since _
    refine ⟨0, Nat.le_of_eq hWrite, ?_⟩
    have hStep : Fifo ⟨b.bytes, since⟩ (.consume n) _ _ := .answered
    rw [ByteQueue.answer, if_pos (by simp [hLength, hAll]), ByteQueue.pop,
      if_pos (by simp [hLength, hAll])] at hStep
    rwa [hBytes]
  · refine ⟨b, served_unchanged (e := .outOfRange "Buffer::consume") ?_ ?_⟩
    · rw [BufferOp.perform, b.consume_toRaw, b.consume_error _ hPast]
      rfl
    · intro since _
      have hStep : Fifo ⟨b.bytes, since⟩ (.consume n) _ _ := .answered
      rwa [ByteQueue.answer, if_neg (by simpa [hLength] using hPast)] at hStep

/-- Bytes written at `write_ptr()` and committed by `has_written` are added at the end. -/
theorem write_served (b : Buffer) (data : Bytes) (n : UInt64)
    (hValid : (BufferOp.write data n).Valid b.toRaw) : ∃ b', Served b (.write data n) b' := by
  obtain ⟨hFits, hCommit⟩ := hValid
  rw [b.toNat_writable] at hFits
  rw [gt_iff_lt, UInt64.lt_iff_toNat_lt, b.toNat_writable] at hCommit
  have hPerform : (BufferOp.write data n).perform b.toRaw =
      (b.writeDirect data hFits).answer ((b.writeDirect data hFits).hasWritten n.toNat) := by
    rw [BufferOp.perform, b.writeDirect_toRaw data hFits, Buffer.hasWritten_toRaw]
  by_cases hPast : n.toNat > (b.writeDirect data hFits).writable
  · rw [Buffer.hasWritten, dif_pos hPast] at hPerform
    rw [Buffer.writeDirect_writable] at hPast
    have hBytes : (b.writeDirect data hFits).bytes = b.bytes := by
      have hNone := b.bytes_advanceWrite_writeDirect data 0 hFits (Nat.zero_le _) (Nat.zero_le _)
      rwa [List.take_zero, List.append_nil] at hNone
    refine ⟨_, served_thrown hPerform ?_ hBytes rfl rfl (b.length_writeDirect hFits)⟩
    intro since _
    have hStep : Fifo ⟨b.bytes, since⟩ (.write data n) _ _ := .answered
    rwa [ByteQueue.answer, if_neg (by omega)] at hStep
  · rw [Buffer.hasWritten, dif_neg hPast] at hPerform
    have hSize := (b.length_writeDirect hFits).trans_le (Nat.le_max_left _ vectorMax)
    refine ⟨_, served_returned hPerform ?_ hSize (by simp)⟩
    rw [Buffer.writeDirect_writable] at hPast
    have hLe : n.toNat ≤ data.length := by omega
    intro since hSince
    refine ⟨since + n.toNat, Nat.add_le_add_right hSince _, ?_⟩
    have hStep : Fifo ⟨b.bytes, since⟩ (.write data n) _ _ := .answered
    rw [ByteQueue.answer, if_pos hLe, ByteQueue.push, List.length_take_of_le hLe] at hStep
    rwa [b.bytes_advanceWrite_writeDirect data n.toNat hFits hLe]

/-- The storage that the vector grows to is within its bound. -/
theorem length_room_le {short : Bool} {room : {room : Buffer // len.toNat ≤ room.writable}}
    (hRoom : b.ensureWritable len.toNat = .ok room)
    (hRaw : b.toRaw.ensureWritable short len = .ok room.val.toRaw []) :
    room.val.buf.length ≤ max b.buf.length vectorMax := by
  rcases b.length_ensureWritable hRoom with hSame | ⟨hTight, hGrown⟩
  · exact hSame.trans_le (Nat.le_max_left ..)
  · refine (Nat.le_of_not_lt fun hLarge => ?_).trans (Nat.le_max_right ..)
    rw [hGrown] at hLarge
    have hNone : ∀ e, ¬ b.toRaw.Refuses short len e := by
      intro e hRefuses
      rw [← b.error_ensureWritable, hRaw] at hRefuses
      cases hRefuses
    simp only [RawBuffer.Refuses, b.free_eq, b.toNat_writeIdx, hTight, true_and] at hNone
    rcases Nat.lt_or_ge sizeMax (b.writeIdx + len.toNat) with hBig | hLe
    · exact hNone _ (.inl ⟨hBig, rfl⟩)
    · exact hNone _ (.inr (.inl ⟨hLarge, hLe, rfl⟩))

/-- What the buffer refuses, the queue may refuse. -/
theorem denied_of_refuses {short : Bool} {since : Nat} (h : b.toRaw.Refuses short len e)
    (hSince : b.writeIdx ≤ since) : ByteQueue.Denied ⟨b.bytes, since⟩ short len.toNat e := by
  obtain ⟨hFree, hWhy⟩ := h
  rw [b.toNat_writeIdx] at hWhy
  refine ⟨Nat.zero_lt_of_lt hFree, ?_⟩
  rcases hWhy with ⟨hBig, rfl⟩ | ⟨hLarge, -, rfl⟩ | ⟨-, hShort, rfl⟩
  · exact .inr (.inr ⟨hBig.trans_le (Nat.add_le_add_right hSince _), rfl⟩)
  · exact .inr (.inl ⟨hLarge.trans_le (Nat.add_le_add_right hSince _), rfl⟩)
  · exact .inl ⟨hShort, rfl⟩

theorem ensureWritable_served (b : Buffer) (short : Bool) (len : UInt64) :
    ∃ b', Served b (.ensureWritable short len) b' := by
  rcases b.ensureWritable_toRaw short len with ⟨room, hRoom, hRaw⟩ | ⟨e, hRefuses, hRaw⟩
  · refine ⟨room.val, served_returned hRaw ?_ (length_room_le hRoom hRaw) ?_⟩
    · intro since hSince
      rw [Buffer.bytes_ensureWritable hRoom]
      exact ⟨since, (Buffer.writeIdx_ensureWritable_le hRoom).trans hSince, .answered⟩
    · intro _ _ hOp
      cases hOp
      exact room.property
  · exact ⟨b, served_unchanged hRaw fun _ hSince => .refused (denied_of_refuses hRefuses hSince)⟩

theorem append_zero_served (b : Buffer) (short : Bool) (data : Option Bytes) :
    Served b (.append short data 0) b := by
  have hPerform : (BufferOp.append short data 0).perform b.toRaw = .ok b.toRaw [] := by
    rw [BufferOp.perform, RawBuffer.append.eq_def, if_pos rfl]
  refine served_returned hPerform ?_ (Nat.le_max_left ..) nofun
  intro since hSince
  have hStep : Fifo ⟨b.bytes, since⟩ (.append short data 0) _ _ := .answered
  rw [ByteQueue.answer.eq_def] at hStep
  exact ⟨since, hSince, hStep⟩

/-- `append` of a readable range adds it at the end of the queue; the room it cannot have is
refused with the error of the queue. -/
theorem append_source_served (b : Buffer) (short : Bool) (source : Bytes) (hZero : len ≠ 0)
    (hValid : len.toNat ≤ source.length) : ∃ b', Served b (.append short (some source) len) b' := by
  have hPerform : (BufferOp.append short (some source) len).perform b.toRaw =
      (b.toRaw.ensureWritable short len).andThen fun b =>
        .ok { b.writeDirect (source.take len.toNat) with writeIdx := b.writeIdx + len } [] := by
    rw [BufferOp.perform, RawBuffer.append, if_neg hZero]
    rfl
  rcases b.ensureWritable_toRaw short len with ⟨room, hRoom, hRaw⟩ | ⟨e, hRefuses, hRaw⟩
  · have hLength : (source.take len.toNat).length = len.toNat := List.length_take_of_le hValid
    have hFits : (source.take len.toNat).length ≤ room.val.writable :=
      hLength.symm ▸ room.property
    have hAdvance : len.toNat ≤ (room.val.writeDirect _ hFits).writable := by
      rw [Buffer.writeDirect_writable]
      exact room.property
    have hDone : (BufferOp.append short (some source) len).perform b.toRaw =
        .ok ((room.val.writeDirect _ hFits).advanceWrite len.toNat hAdvance).toRaw [] := by
      rw [hPerform, hRaw, Outcome.ok_andThen, Buffer.writeDirect_toRaw _ _ hFits,
        ← Buffer.advanceWrite_toRaw]
      rfl
    have hSize := (room.val.length_writeDirect hFits).trans_le (length_room_le hRoom hRaw)
    refine ⟨_, served_returned hDone ?_ hSize nofun⟩
    intro since hSince
    have hWrite := (Buffer.writeIdx_ensureWritable_le hRoom).trans hSince
    refine ⟨since + len.toNat, Nat.add_le_add_right hWrite _, ?_⟩
    have hStep : Fifo ⟨b.bytes, since⟩ (.append short (some source) len) _ _ := .answered
    rw [ByteQueue.answer, if_neg hZero] at hStep
    simp only [ByteQueue.push, hLength] at hStep
    rwa [Buffer.bytes_advanceWrite_writeDirect _ _ _ hFits (Nat.le_of_eq hLength.symm),
      Buffer.bytes_ensureWritable hRoom, List.take_of_length_le (Nat.le_of_eq hLength)]
  · rw [hRaw, Outcome.fail_andThen] at hPerform
    exact ⟨b, served_unchanged hPerform fun _ hSince =>
      .refused (denied_of_refuses hRefuses hSince)⟩

theorem append_served (b : Buffer) (short : Bool) (data : Option Bytes) (len : UInt64)
    (hValid : (BufferOp.append short data len).Valid b.toRaw) :
    ∃ b', Served b (.append short data len) b' := by
  by_cases hZero : len = 0
  · subst hZero
    exact ⟨b, append_zero_served b short data⟩
  · cases data with
    | some source => exact append_source_served b short source hZero hValid
    | none =>
      refine ⟨b, served_unchanged (by rw [BufferOp.perform, RawBuffer.append, if_neg hZero]) ?_⟩
      intro since _
      have hStep : Fifo ⟨b.bytes, since⟩ (.append short none len) _ _ := .answered
      rwa [ByteQueue.answer, if_neg hZero] at hStep

/-- `retrieve_all_as_string` answers with the whole queue and leaves it empty. -/
theorem retrieve_served (b : Buffer) (short : Bool) :
    ∃ b', Served b (.retrieveAllAsString short) b' := by
  have hLength := b.length_bytes
  rcases Nat.lt_or_ge stringMax b.readable with hLong | hFits
  · refine ⟨b, served_unchanged (e := .lengthError "basic_string::_M_create") ?_ ?_⟩
    · rw [BufferOp.perform, RawBuffer.retrieveAllAsString, if_pos (b.toNat_readable.symm ▸ hLong)]
    · exact fun _ _ => .refused (.inr ⟨hLength.symm ▸ hLong, rfl⟩)
  · cases short with
    | true =>
      refine ⟨b, served_unchanged ?_ fun _ _ => .refused (.inl ⟨rfl, rfl⟩)⟩
      rw [BufferOp.perform, RawBuffer.retrieveAllAsString,
        if_neg (b.toNat_readable.symm ▸ Nat.not_lt_of_le hFits), if_pos rfl]
    | false =>
      obtain ⟨b', hEmpty, hWrite, hBuf, hRaw⟩ := b.retrieveAllAsString_toRaw hFits
      refine ⟨b', served_returned hRaw ?_ (hBuf ▸ Nat.le_max_left ..) (by rintro _ _ ⟨⟩)⟩
      intro since _
      rw [hEmpty]
      exact ⟨0, Nat.le_of_eq hWrite, .answered⟩

theorem served (b : Buffer) (op : BufferOp) (hValid : op.Valid b.toRaw) : ∃ b', Served b op b' := by
  cases op with
  | append short data len => exact append_served b short data len hValid
  | write data n => exact write_served b data n hValid
  | consume n => exact consume_served b n
  | ensureWritable short len => exact ensureWritable_served b short len
  | retrieveAllAsString short => exact retrieve_served b short

theorem error_append (b : Buffer) (short : Bool) (source : Bytes) (len : UInt64) :
    (b.toRaw.append short (some source) len).error = (b.toRaw.ensureWritable short len).error := by
  by_cases hZero : len = 0
  · have hRoom : b.toRaw.writable ≥ len := by
      rw [hZero, ge_iff_le, UInt64.le_iff_toNat_le]
      exact Nat.zero_le _
    rw [RawBuffer.append, if_pos hZero, RawBuffer.ensureWritable, if_pos hRoom]
  · rw [RawBuffer.append, if_neg hZero]
    rcases b.ensureWritable_toRaw short len with ⟨room, -, hRaw⟩ | ⟨e, -, hRaw⟩
    · rw [hRaw]
      rfl
    · rw [hRaw]
      rfl

/-- A call throws exactly under the conditions of `Throws`. -/
theorem error_perform (b : Buffer) (op : BufferOp) (hValid : op.Valid b.toRaw) :
    (op.perform b.toRaw).error = some e ↔ op.Throws b.toRaw e := by
  cases op with
  | append short data =>
    cases data with
    | some =>
      rw [BufferOp.perform, error_append, b.error_ensureWritable]
      rfl
    | none =>
      rw [BufferOp.perform, RawBuffer.append, BufferOp.Throws]
      split_ifs with hZero
      · simp [hZero]
      · simp [hZero, eq_comm]
  | write data =>
    have hFits := hValid.1
    rw [b.toNat_writable] at hFits
    have hSame : (b.toRaw.writeDirect data).writable = b.toRaw.writable := by
      rw [← UInt64.toNat_inj, b.writeDirect_toRaw data hFits, Buffer.toNat_writable,
        b.toNat_writable, Buffer.writeDirect_writable]
    rw [BufferOp.perform, RawBuffer.hasWritten, BufferOp.Throws, hSame]
    split_ifs with hPast
    · simp [hPast, eq_comm]
    · simp [hPast]
  | consume n =>
    have hReadable : b.toRaw.readable < n ↔ b.toRaw.bytes.length < n.toNat := by
      rw [UInt64.lt_iff_toNat_lt, b.toNat_readable, b.bytes_toRaw, b.length_bytes]
    rw [BufferOp.perform, RawBuffer.consume, BufferOp.Throws, ← hReadable]
    split_ifs with hPast
    · simp [hPast, eq_comm]
    · dsimp only
      split_ifs <;> simp [hPast]
  | ensureWritable => exact b.error_ensureWritable
  | retrieveAllAsString =>
    have hReadable : b.toRaw.readable.toNat = b.toRaw.bytes.length := by
      rw [b.toNat_readable, b.bytes_toRaw, b.length_bytes]
    rw [BufferOp.perform, RawBuffer.retrieveAllAsString, BufferOp.Throws, hReadable]
    split_ifs with hLong hShort
    · simp [hLong, Nat.not_le_of_lt hLong, eq_comm]
    · simp [hLong, hShort, Nat.le_of_not_lt hLong, eq_comm]
    · rw [Outcome.ok_andThen, RawBuffer.consume, if_neg (UInt64.lt_irrefl _)]
      dsimp only
      split_ifs <;> simp [hLong, hShort]

end Calls

/-- A run from a buffer with ordered cursors ends in one and is a run of the
queue. -/
theorem fifoRun_of_run {b : Buffer} {ops : List BufferOp} {raw : RawBuffer}
    {results : List BufferResult} (h : b.toRaw.run ops = some (raw, results)) {since : Nat}
    (hSince : b.writeIdx ≤ since) :
    ∃ (b' : Buffer) (since' : Nat), raw = b'.toRaw ∧
      FifoRun ⟨b.bytes, since⟩ ops results ⟨b'.bytes, since'⟩ ∧
        b'.buf.length ≤ max b.buf.length vectorMax := by
  induction ops generalizing b results since with
  | nil =>
    cases h
    exact ⟨b, since, rfl, .nil, Nat.le_max_left ..⟩
  | cons op ops ih =>
    rw [RawBuffer.run] at h
    split at h
    · rename_i hValid
      obtain ⟨next, hServed⟩ := served b op hValid
      obtain ⟨⟨raw', results'⟩, hRun, hEq⟩ := Option.map_eq_some_iff.mp h
      cases hEq
      rw [hServed.state] at hRun
      obtain ⟨middle, hMiddle, hStep⟩ := hServed.fifo since hSince
      obtain ⟨b', since', hRaw, hFifo, hSize⟩ := ih hRun hMiddle
      refine ⟨b', since', hRaw, .cons hStep hFifo, hSize.trans ?_⟩
      exact Nat.max_le.mpr ⟨hServed.size, Nat.le_max_right ..⟩
    · cases h

/-- No index computation of the source wraps here. The last three are the additions
behind the checks of `has_written` and `append`, of `consume`, and of the growth. -/
structure RawBuffer.NoWrap (b : RawBuffer) : Prop where
  readable : b.readable.toNat = b.writeIdx.toNat - b.readIdx.toNat
  writable : b.writable.toNat = b.buf.length - b.writeIdx.toNat
  room : (b.readIdx + b.writable).toNat = b.readIdx.toNat + b.writable.toNat
  headroom : (UInt64.ofNat sizeMax - b.writeIdx).toNat = sizeMax - b.writeIdx.toNat
  commit : ∀ n ≤ b.writable, (b.writeIdx + n).toNat = b.writeIdx.toNat + n.toNat
  skip : ∀ n ≤ b.readable, (b.readIdx + n).toNat = b.readIdx.toNat + n.toNat
  grow : ∀ len ≤ UInt64.ofNat sizeMax - b.writeIdx,
    (b.writeIdx + len).toNat = b.writeIdx.toNat + len.toNat

/-- None of the unsigned sums and differences of the class wraps on a well-formed buffer. -/
theorem Buffer.noWrap (b : Buffer) : b.toRaw.NoWrap where
  readable := by rw [toNat_readable, toNat_readIdx, toNat_writeIdx, Buffer.readable]
  writable := by
    rw [toNat_writable, toNat_writeIdx, Buffer.writable]
    rfl
  room := by rw [toNat_room, toNat_readIdx, toNat_writable]
  headroom := by rw [toNat_headroom, toNat_writeIdx]
  commit := by
    intro n hLe
    have hWrite := b.write_le
    rw [UInt64.le_iff_toNat_le, toNat_writable, Buffer.writable] at hLe
    have hLt : b.writeIdx + n.toNat < UInt64.size := b.lt_size (by omega)
    rw [UInt64.toNat_add, toNat_writeIdx, Nat.mod_eq_of_lt hLt]
  skip := by
    intro n hLe
    have hRead := b.read_le
    have hWrite := b.write_le
    rw [UInt64.le_iff_toNat_le, toNat_readable, Buffer.readable] at hLe
    have hLt : b.readIdx + n.toNat < UInt64.size := b.lt_size (by omega)
    rw [UInt64.toNat_add, toNat_readIdx, Nat.mod_eq_of_lt hLt]
  grow := by
    intro len hLe
    rw [UInt64.le_iff_toNat_le, toNat_headroom] at hLe
    rw [b.toNat_grown (Nat.not_lt_of_le hLe), toNat_writeIdx]

/-- What holds of a buffer after any calls. -/
structure BufferRefines (b : RawBuffer) (ops : List BufferOp) (results : List BufferResult) :
  Prop where
  content : ∃ since, FifoRun .empty ops results ⟨b.bytes, since⟩
  readIdx_le : b.readIdx ≤ b.writeIdx
  writeIdx_le : b.writeIdx.toNat ≤ b.buf.length
  size_le : b.buf.length ≤ vectorMax
  noWrap : b.NoWrap
  throws : ∀ op : BufferOp, op.Valid b → ∀ e, (op.perform b).error = some e ↔ op.Throws b e
  thrown : ∀ op : BufferOp, op.Valid b → (op.perform b).error ≠ none →
    Untouched b (op.perform b).state
  room : ∀ short len, (b.ensureWritable short len).error = none →
    len ≤ (b.ensureWritable short len).state.writable

/-- A well-formed buffer with the content of the queue has all of it, whatever the calls were. -/
theorem Buffer.refines {b : Buffer} {ops : List BufferOp} {results : List BufferResult}
    {since : Nat} (hFifo : FifoRun .empty ops results ⟨b.bytes, since⟩)
    (hSize : b.buf.length ≤ vectorMax) : BufferRefines b.toRaw ops results where
  content := ⟨since, by rwa [bytes_toRaw]⟩
  readIdx_le := by
    rw [UInt64.le_iff_toNat_le, toNat_readIdx, toNat_writeIdx]
    exact b.read_le
  writeIdx_le := by
    rw [toNat_writeIdx]
    exact b.write_le
  size_le := hSize
  noWrap := b.noWrap
  throws := fun op hValid _ => error_perform b op hValid
  thrown := by
    intro op hValid hError
    obtain ⟨next, hServed⟩ := served b op hValid
    rw [hServed.state]
    exact hServed.untouched hError
  room := by
    intro short len hNone
    obtain ⟨next, hServed⟩ := ensureWritable_served b short len
    have hState : (b.toRaw.ensureWritable short len).state = next.toRaw := hServed.state
    rw [hState, UInt64.le_iff_toNat_le, toNat_writable]
    exact hServed.room rfl hNone

/-- The constructor gives a buffer of an admissible size without readable bytes. -/
theorem construct_eq {initial : UInt64} {start : RawBuffer}
    (h : RawBuffer.construct false initial = .ok start) :
    ∃ b : Buffer, start = b.toRaw ∧ b.bytes = [] ∧ b.writeIdx = 0 ∧ b.buf.length ≤ vectorMax := by
  rw [RawBuffer.construct, if_neg Bool.false_ne_true] at h
  split_ifs at h with hLarge
  cases h
  have hMax := Buffer.toNat_le_sizeMax initial
  refine ⟨.create initial.toNat hMax, Buffer.toRaw_create hMax, Buffer.bytes_create .., rfl, ?_⟩
  rw [Buffer.create, List.length_replicate]
  split
  · decide
  · exact Nat.le_of_not_lt hLarge

/-- The buffer is a queue of bytes, whatever its first capacity, and it throws when
`BufferOp.Throws` says so. Two runs of the same calls that get the same answers end with
the same content, and they get the same answers unless the queue says that a call may
be refused: then it depends on the capacity whether it is. -/
theorem buffer_refines_queue {initial : UInt64} {start : RawBuffer}
    (hStart : RawBuffer.construct false initial = .ok start) {ops : List BufferOp} {b : RawBuffer}
    {results : List BufferResult} (h : start.run ops = some (b, results)) :
    BufferRefines b ops results ∧
      ∀ initial' start' b' results', RawBuffer.construct false initial' = .ok start' →
        start'.run ops = some (b', results') →
          (results' = results → b'.bytes = b.bytes) ∧
            (ByteQueue.empty.Ample ops → results' = results ∧ b'.bytes = b.bytes) := by
  have hRuns : ∀ {initial : UInt64} {start b : RawBuffer} {results : List BufferResult},
      RawBuffer.construct false initial = .ok start → start.run ops = some (b, results) →
      ∃ (last : Buffer) (since : Nat), b = last.toRaw ∧
        FifoRun .empty ops results ⟨last.bytes, since⟩ ∧ last.buf.length ≤ vectorMax := by
    intro initial start b results hStart hRun
    obtain ⟨first, rfl, hBytes, hWrite, hSize⟩ := construct_eq hStart
    obtain ⟨last, since, hLast, hFifo, hLength⟩ := fifoRun_of_run hRun (Nat.le_of_eq hWrite)
    rw [hBytes] at hFifo
    exact ⟨last, since, hLast, hFifo, hLength.trans (Nat.max_le.mpr ⟨hSize, Nat.le_refl _⟩)⟩
  obtain ⟨last, since, rfl, hFifo, hSize⟩ := hRuns hStart h
  refine ⟨Buffer.refines hFifo hSize, ?_⟩
  intro initial' start' b' results' hStart' hOther
  obtain ⟨last', since', rfl, hFifo', -⟩ := hRuns hStart' hOther
  have hBytes : results' = results → last'.toRaw.bytes = last.toRaw.bytes := by
    rintro rfl
    rw [Buffer.bytes_toRaw, Buffer.bytes_toRaw]
    exact congrArg ByteQueue.content (hFifo'.deterministic hFifo)
  refine ⟨hBytes, fun hAmple => ?_⟩
  have hSame := hFifo'.answers_unique hFifo hAmple
  exact ⟨hSame, hBytes hSame⟩

/-- Growth, a slide to the front, a short vector and a call past the end, from a
capacity of two bytes. -/
theorem buffer_refines_queue_small :
    ∃ start ops b results, RawBuffer.construct false 2 = .ok start ∧
      ops = [.append false (some [1, 2, 3]) 3, .consume 2, .ensureWritable false 2, .write [4, 5] 1,
        .append true (some [6, 7, 8]) 3, .consume 9, .retrieveAllAsString false] ∧
      results = [.ok [], .ok [], .ok [], .ok [], .error .badAlloc,
        .error (.outOfRange "Buffer::consume"), .ok [[3, 4]]] ∧
      start.run ops = some (b, results) ∧ BufferRefines b ops results := by
  have hStart : RawBuffer.construct false 2 = .ok (.create 2) := rfl
  have hRun : (RawBuffer.create 2).run
      [.append false (some [1, 2, 3]) 3, .consume 2, .ensureWritable false 2, .write [4, 5] 1,
        .append true (some [6, 7, 8]) 3, .consume 9, .retrieveAllAsString false] = some (_, _) :=
        rfl
  exact ⟨_, _, _, _, hStart, rfl, rfl, hRun, (buffer_refines_queue hStart hRun).1⟩

end Tinycoro
