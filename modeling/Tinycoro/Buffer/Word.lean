import Tinycoro.Buffer
import Tinycoro.Library.Effect

/-! The buffer with the `size_t` cursors of the source, which wrap, and with
operations that return the state they leave behind also where they throw. On the
cursors a `Buffer` can have, no computation wraps, and each operation does what the
operation on the `Buffer` does; one that throws leaves everything as it was. -/
namespace Tinycoro

open Effect

/-- `std::vector<char>::max_size()`. -/
def vectorMax : Nat := 2 ^ 63 - 1

/-- `std::string::max_size()`. -/
def stringMax : Nat := 2 ^ 63 - 2

structure RawBuffer where
  buf : Bytes
  readIdx : UInt64
  writeIdx : UInt64
  deriving DecidableEq

/-- A call on the buffer. It returns strings and throws standard exceptions. -/
abbrev BufferOutcome := Outcome RawBuffer Bytes StdError

namespace RawBuffer

/-- The members as the constructor initialises them. -/
def create (initial : UInt64) : RawBuffer :=
  ⟨List.replicate (if initial = 0 then 1 else initial.toNat) 0, 0, 0⟩

/-- The constructor, with the refusals of the vector: of a size beyond its bound, and
for want of memory. -/
def construct (short : Bool) (initial : UInt64) : Except StdError RawBuffer :=
  if vectorMax < initial.toNat then
    .error (.lengthError "cannot create std::vector larger than max_size()")
  else if short then .error .badAlloc
  else .ok (create initial)

/-- `buf_.size()` -/
def size (b : RawBuffer) : UInt64 := .ofNat b.buf.length

def readable (b : RawBuffer) : UInt64 := b.writeIdx - b.readIdx

def writable (b : RawBuffer) : UInt64 := b.size - b.writeIdx

def readPtr (b : RawBuffer) : Bytes := b.buf.drop b.readIdx.toNat

/-- The readable bytes. -/
def bytes (b : RawBuffer) : Bytes := b.readPtr.take b.readable.toNat

/-- Store bytes at `write_ptr()`. -/
def writeDirect (b : RawBuffer) (data : Bytes) : RawBuffer :=
  { b with
    buf := b.buf.take b.writeIdx.toNat ++ data ++ b.buf.drop (b.writeIdx.toNat + data.length) }

def hasWritten (b : RawBuffer) (n : UInt64) : BufferOutcome :=
  if n > b.writable then .fail (.outOfRange "Buffer::has_written") b []
  else .ok { b with writeIdx := b.writeIdx + n } []

def consume (b : RawBuffer) (n : UInt64) : BufferOutcome :=
  if n > b.readable then .fail (.outOfRange "Buffer::consume") b []
  else
    let b := { b with readIdx := b.readIdx + n }
    if b.readIdx = b.writeIdx then .ok { b with readIdx := 0, writeIdx := 0 } []
    else .ok b []

/-- The string refuses a length beyond its bound; `short` says that there is no memory
for it. -/
def retrieveAllAsString (b : RawBuffer) (short : Bool) : BufferOutcome :=
  if stringMax < b.readable.toNat then .fail (.lengthError "basic_string::_M_create") b []
  else if short then .fail .badAlloc b []
  else (Outcome.ok b [b.readPtr.take b.readable.toNat]).andThen (fun b => b.consume b.readable)

/-- `std::memmove` of the readable bytes to the start of the storage. -/
def compact (b : RawBuffer) : RawBuffer :=
  let size := b.readable
  ⟨b.readPtr.take size.toNat ++ b.buf.drop size.toNat, 0, size⟩

/-- `std::vector::resize` -/
def resize (b : RawBuffer) (size : UInt64) : RawBuffer :=
  { b with buf := b.buf.take size.toNat ++ List.replicate (size.toNat - b.buf.length) 0 }

/-- The vector refuses a size beyond its bound; `short` says that there is no memory for
it to grow. A `resize` that throws changes nothing. -/
def ensureWritable (b : RawBuffer) (short : Bool) (len : UInt64) : BufferOutcome :=
  if b.writable ≥ len then .ok b []
  else if b.readIdx + b.writable ≥ len then .ok b.compact []
  else if len > .ofNat sizeMax - b.writeIdx then
    .fail (.lengthError "Buffer capacity overflow") b []
  else if vectorMax < (b.writeIdx + len).toNat then
    .fail (.lengthError "vector::_M_default_append") b []
  else if short then .fail .badAlloc b []
  else .ok (b.resize (b.writeIdx + len)) []

/-- A null pointer is `none`; another points to at least `len` bytes outside the
storage. -/
def append (b : RawBuffer) (short : Bool) (data : Option Bytes) (len : UInt64) : BufferOutcome :=
  if len = 0 then .ok b []
  else match data with
    | none => .fail (.invalidArgument "Buffer::append requires non-null data") b []
    | some source =>
      (b.ensureWritable short len).andThen fun b =>
        let b := b.writeDirect (source.take len.toNat)
        .ok { b with writeIdx := b.writeIdx + len } []

/-- When `ensure_writable` throws: the free bytes, in front of the readable ones and
behind them, are fewer than asked for, and the storage cannot grow to hold `len` bytes
behind the write cursor. -/
def Refuses (b : RawBuffer) (short : Bool) (len : UInt64) (e : StdError) : Prop :=
  b.buf.length - b.bytes.length < len.toNat ∧
    let size := b.writeIdx.toNat + len.toNat
    sizeMax < size ∧ e = .lengthError "Buffer capacity overflow" ∨
      vectorMax < size ∧ size ≤ sizeMax ∧ e = .lengthError "vector::_M_default_append" ∨
        size ≤ vectorMax ∧ short = true ∧ e = .badAlloc

end RawBuffer

namespace Buffer

/-- The cursors as machine words. -/
def toRaw (b : Buffer) : RawBuffer := ⟨b.buf, .ofNat b.readIdx, .ofNat b.writeIdx⟩

/-- A call that either returns with a new state or throws and changes nothing. -/
def answer (b : Buffer) : Except StdError Buffer → BufferOutcome
  | .ok b' => .ok b'.toRaw []
  | .error e => .fail e b.toRaw []

variable (b : Buffer)

theorem lt_size {n : Nat} (h : n ≤ b.buf.length) : n < UInt64.size := by
  have hSize := b.size_le
  simp only [sizeMax] at hSize
  simp only [UInt64.size]
  omega

theorem toNat_readIdx : b.toRaw.readIdx.toNat = b.readIdx :=
  UInt64.toNat_ofNat_of_lt' (b.lt_size (b.read_le.trans b.write_le))

theorem toNat_writeIdx : b.toRaw.writeIdx.toNat = b.writeIdx :=
  UInt64.toNat_ofNat_of_lt' (b.lt_size b.write_le)

theorem toNat_size : b.toRaw.size.toNat = b.buf.length :=
  UInt64.toNat_ofNat_of_lt' (b.lt_size (Nat.le_refl _))

/-- `write_idx_ - read_idx_` does not wrap. -/
theorem toNat_readable : b.toRaw.readable.toNat = b.readable := by
  have hRead := b.read_le
  rw [RawBuffer.readable, UInt64.toNat_sub_of_le, toNat_readIdx, toNat_writeIdx, readable]
  rwa [UInt64.le_iff_toNat_le, toNat_readIdx, toNat_writeIdx]

/-- `buf_.size() - write_idx_` does not wrap. -/
theorem toNat_writable : b.toRaw.writable.toNat = b.writable := by
  have hWrite := b.write_le
  rw [RawBuffer.writable, UInt64.toNat_sub_of_le, toNat_size, toNat_writeIdx, writable]
  rwa [UInt64.le_iff_toNat_le, toNat_size, toNat_writeIdx]

theorem toRaw_create {initial : UInt64} (h : initial.toNat ≤ sizeMax) :
    RawBuffer.create initial = (Buffer.create initial.toNat h).toRaw := by
  have hZero : initial = 0 ↔ initial.toNat = 0 := by
    rw [← UInt64.toNat_inj]
    rfl
  simp only [RawBuffer.create, Buffer.create, toRaw, hZero]
  rfl

theorem toNat_le_sizeMax (n : UInt64) : n.toNat ≤ sizeMax := by
  have hLt := n.toNat_lt
  simp only [sizeMax]
  omega

theorem bytes_toRaw : b.toRaw.bytes = b.bytes := by
  simp only [RawBuffer.bytes, RawBuffer.readPtr, toNat_readable, toNat_readIdx, bytes, readPtr]
  rfl

theorem writeDirect_toRaw (data : Bytes) (h : data.length ≤ b.writable) :
    b.toRaw.writeDirect data = (b.writeDirect data h).toRaw := by
  simp only [RawBuffer.writeDirect, toNat_writeIdx]
  rfl

/-- Inside the storage the write cursor moves without wrapping. -/
theorem advanceWrite_toRaw (n : UInt64) (h : n.toNat ≤ b.writable) :
    { b.toRaw with writeIdx := b.toRaw.writeIdx + n } = (b.advanceWrite n.toNat h).toRaw := by
  simp only [toRaw, advanceWrite, UInt64.ofNat_add, UInt64.ofNat_toNat]

theorem hasWritten_toRaw (n : UInt64) : b.toRaw.hasWritten n = b.answer (b.hasWritten n.toNat) := by
  by_cases hPast : n.toNat > b.writable
  · have hRaw : n > b.toRaw.writable := by
      rwa [gt_iff_lt, UInt64.lt_iff_toNat_lt, toNat_writable]
    rw [RawBuffer.hasWritten, if_pos hRaw, hasWritten, dif_pos hPast]
    rfl
  · have hRaw : ¬ n > b.toRaw.writable := by
      rwa [gt_iff_lt, UInt64.lt_iff_toNat_lt, toNat_writable]
    rw [RawBuffer.hasWritten, if_neg hRaw, hasWritten, dif_neg hPast, advanceWrite_toRaw]
    rfl

/-- On the fields of a well-formed buffer `consume` is what it is on the buffer. -/
theorem consume_toRaw (n : UInt64) : b.toRaw.consume n = b.answer (b.consume n.toNat) := by
  by_cases hPast : n.toNat > b.readable
  · have hRaw : n > b.toRaw.readable := by
      rwa [gt_iff_lt, UInt64.lt_iff_toNat_lt, toNat_readable]
    rw [RawBuffer.consume, if_pos hRaw, consume, dif_pos hPast]
    rfl
  · have hRaw : ¬ n > b.toRaw.readable := by
      rwa [gt_iff_lt, UInt64.lt_iff_toNat_lt, toNat_readable]
    have hSum : b.toRaw.readIdx + n = .ofNat (b.readIdx + n.toNat) := by
      rw [UInt64.ofNat_add, UInt64.ofNat_toNat]
      rfl
    have hBound : b.readIdx + n.toNat ≤ b.writeIdx := by
      have hRead := b.read_le
      simp only [readable] at hPast
      omega
    have hReset : b.toRaw.readIdx + n = b.toRaw.writeIdx ↔ b.readIdx + n.toNat = b.writeIdx := by
      rw [hSum, ← UInt64.toNat_inj, toNat_writeIdx,
        UInt64.toNat_ofNat_of_lt' (b.lt_size (hBound.trans b.write_le))]
    rw [RawBuffer.consume, if_neg hRaw, consume, dif_neg hPast]
    simp only [hReset]
    split
    · rfl
    · rw [hSum]
      rfl

theorem compact_toRaw : b.toRaw.compact = b.compact.toRaw := by
  simp only [RawBuffer.compact, RawBuffer.readPtr, toNat_readable, toNat_readIdx]
  rw [← UInt64.ofNat_toNat (x := b.toRaw.readable), toNat_readable]
  rfl

/-- `read_idx_ + writable()` does not wrap. -/
theorem toNat_room : (b.toRaw.readIdx + b.toRaw.writable).toNat = b.readIdx + b.writable := by
  have hRead := b.read_le
  have hWrite := b.write_le
  have hLt : b.readIdx + b.writable < 2 ^ 64 := by
    apply b.lt_size
    simp only [writable]
    omega
  rw [UInt64.toNat_add, toNat_readIdx, toNat_writable, Nat.mod_eq_of_lt hLt]

/-- `max() - write_idx_` does not wrap. -/
theorem toNat_headroom :
    (UInt64.ofNat sizeMax - b.toRaw.writeIdx).toNat = sizeMax - b.writeIdx := by
  have hMax : (UInt64.ofNat sizeMax).toNat = sizeMax := by decide
  rw [UInt64.toNat_sub_of_le, hMax, toNat_writeIdx]
  rw [UInt64.le_iff_toNat_le, hMax]
  exact toNat_le_sizeMax _

variable {len : UInt64}

/-- `write_idx_ + len` does not wrap behind the overflow check. -/
theorem toNat_grown (h : ¬ len.toNat > sizeMax - b.writeIdx) :
    (b.toRaw.writeIdx + len).toNat = b.writeIdx + len.toNat := by
  have hLe := b.grow_le_sizeMax h
  have hLt : b.writeIdx + len.toNat < 2 ^ 64 := by
    simp only [sizeMax] at hLe
    omega
  rw [UInt64.toNat_add, toNat_writeIdx, Nat.mod_eq_of_lt hLt]

theorem resize_toRaw (size : UInt64) (hLe : b.buf.length ≤ size.toNat) :
    b.toRaw.resize size = (b.resize size.toNat hLe (toNat_le_sizeMax size)).toRaw := by
  simp only [RawBuffer.resize, toRaw, resize]
  rw [List.take_of_length_le hLe]

theorem le_writable_iff : b.toRaw.writable ≥ len ↔ b.writable ≥ len.toNat := by
  rw [ge_iff_le, UInt64.le_iff_toNat_le, toNat_writable]

theorem le_room_iff :
    b.toRaw.readIdx + b.toRaw.writable ≥ len ↔ b.readIdx + b.writable ≥ len.toNat := by
  rw [ge_iff_le, UInt64.le_iff_toNat_le, toNat_room]

theorem headroom_lt_iff :
    len > .ofNat sizeMax - b.toRaw.writeIdx ↔ len.toNat > sizeMax - b.writeIdx := by
  rw [gt_iff_lt, UInt64.lt_iff_toNat_lt, toNat_headroom]

/-- The free bytes are those in front of the readable ones and those behind them. -/
theorem free_eq : b.toRaw.buf.length - b.toRaw.bytes.length = b.readIdx + b.writable := by
  have hRead := b.read_le
  have hWrite := b.write_le
  rw [bytes_toRaw, length_bytes]
  change b.buf.length - b.readable = _
  simp only [readable, writable]
  omega

/-- `ensure_writable` throws exactly where the room cannot be had. -/
theorem error_ensureWritable {short : Bool} {e : StdError} :
    (b.toRaw.ensureWritable short len).error = some e ↔ b.toRaw.Refuses short len e := by
  simp only [RawBuffer.ensureWritable, RawBuffer.Refuses, free_eq, le_writable_iff, le_room_iff,
    headroom_lt_iff, toNat_writeIdx]
  have hMax : vectorMax < sizeMax := by decide
  split_ifs with hHas hSlide hBig hLarge hShort
  · exact iff_of_false nofun (fun h => by omega)
  · exact iff_of_false nofun (fun h => by omega)
  · rw [Outcome.fail_error, Option.some.injEq]
    constructor
    · rintro rfl
      exact ⟨Nat.lt_of_not_le hSlide, .inl ⟨by omega, rfl⟩⟩
    · rintro ⟨-, ⟨-, rfl⟩ | ⟨-, hLe, -⟩ | ⟨hLe, -⟩⟩
      · rfl
      · omega
      · omega
  · rw [b.toNat_grown hBig] at hLarge
    rw [Outcome.fail_error, Option.some.injEq]
    constructor
    · rintro rfl
      exact ⟨Nat.lt_of_not_le hSlide, .inr (.inl ⟨hLarge, b.grow_le_sizeMax hBig, rfl⟩)⟩
    · rintro ⟨-, ⟨hLt, -⟩ | ⟨-, -, rfl⟩ | ⟨hLe, -⟩⟩
      · omega
      · rfl
      · omega
  · rw [b.toNat_grown hBig] at hLarge
    rw [Outcome.fail_error, Option.some.injEq]
    constructor
    · rintro rfl
      exact ⟨Nat.lt_of_not_le hSlide, .inr (.inr ⟨Nat.le_of_not_lt hLarge, hShort, rfl⟩)⟩
    · rintro ⟨-, ⟨hLt, -⟩ | ⟨hLt, -⟩ | ⟨-, -, rfl⟩⟩
      · omega
      · omega
      · rfl
  · rw [b.toNat_grown hBig] at hLarge
    refine iff_of_false nofun ?_
    rintro ⟨-, ⟨hLt, -⟩ | ⟨hLt, -⟩ | ⟨-, hTrue, -⟩⟩
    · omega
    · omega
    · exact hShort hTrue

/-- `ensure_writable` makes the room, or throws and leaves the buffer as it was. -/
theorem ensureWritable_toRaw (short : Bool) (len : UInt64) :
    (∃ room, b.ensureWritable len.toNat = .ok room ∧
        b.toRaw.ensureWritable short len = .ok room.val.toRaw []) ∨
      (∃ e, b.toRaw.Refuses short len e ∧
        b.toRaw.ensureWritable short len = .fail e b.toRaw []) := by
  suffices hCases : (∃ room, b.ensureWritable len.toNat = .ok room ∧
      b.toRaw.ensureWritable short len = .ok room.val.toRaw []) ∨
      (∃ e, b.toRaw.ensureWritable short len = .fail e b.toRaw []) by
    refine hCases.imp_right ?_
    rintro ⟨e, hRaw⟩
    exact ⟨e, b.error_ensureWritable.mp (by rw [hRaw, Outcome.fail_error]), hRaw⟩
  simp only [RawBuffer.ensureWritable, ensureWritable, le_writable_iff, le_room_iff,
    headroom_lt_iff]
  split_ifs with hHas hSlide hBig
  · exact .inl ⟨_, rfl, rfl⟩
  · exact .inl ⟨_, rfl, by rw [compact_toRaw]⟩
  · exact .inr ⟨_, rfl⟩
  · exact .inr ⟨_, rfl⟩
  · exact .inr ⟨_, rfl⟩
  · refine .inl ⟨_, rfl, ?_⟩
    have hGrown := b.toNat_grown hBig
    rw [b.resize_toRaw _ (hGrown ▸ b.grow_le hHas)]
    simp only [hGrown]

theorem retrieveAllAsString_toRaw (h : b.readable ≤ stringMax) :
    ∃ b' : Buffer, b'.bytes = [] ∧ b'.writeIdx = 0 ∧ b'.buf = b.buf ∧
      b.toRaw.retrieveAllAsString false = .ok b'.toRaw [b.bytes] := by
  obtain ⟨b', hConsume, hBytes, hBuf, hWrite⟩ := b.consume_all
  refine ⟨b', hBytes, hWrite, hBuf, ?_⟩
  have hRaw : b.toRaw.consume b.toRaw.readable = .ok b'.toRaw [] := by
    rw [consume_toRaw, toNat_readable, hConsume]
    rfl
  have hFits : ¬ stringMax < b.toRaw.readable.toNat := by
    rw [toNat_readable]
    exact Nat.not_lt_of_le h
  rw [RawBuffer.retrieveAllAsString, if_neg hFits, if_neg Bool.false_ne_true, Outcome.ok_andThen,
    hRaw]
  rw [show b.toRaw.readPtr.take b.toRaw.readable.toNat = b.bytes from b.bytes_toRaw]
  rfl

end Buffer

end Tinycoro
