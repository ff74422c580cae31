import Tinycoro.Basic
import Mathlib.Data.List.Basic
import Mathlib.Data.List.TakeDrop

/-! The contiguous byte buffer with a read and a write cursor. A `Buffer`
carries the order of its cursors, so a cursor past the storage or a storage
larger than `size_t` cannot be built. `Buffer.bytes` is the abstract view:
the readable bytes, in order. The vector's own bound and a want of memory are left to
`RawBuffer`. -/
namespace Tinycoro

structure Buffer where
  buf : Bytes
  readIdx : Nat
  writeIdx : Nat
  read_le : readIdx ≤ writeIdx
  write_le : writeIdx ≤ buf.length
  size_le : buf.length ≤ sizeMax
  deriving DecidableEq

namespace Buffer

def kInitialSize : Nat := 4096

theorem kInitialSize_le : kInitialSize ≤ sizeMax := by decide

/-- The constructor. A requested capacity of zero is rounded up to one byte. -/
def create (initial : Nat) (h : initial ≤ sizeMax) : Buffer where
  buf := List.replicate (if initial = 0 then 1 else initial) 0
  readIdx := 0
  writeIdx := 0
  read_le := Nat.le_refl _
  write_le := Nat.zero_le _
  size_le := by
    rw [List.length_replicate]
    split
    · decide
    · exact h

/-- A buffer filled with exactly these bytes. -/
def holding (data : Bytes) (h : data.length ≤ sizeMax) : Buffer where
  buf := data
  readIdx := 0
  writeIdx := data.length
  read_le := Nat.zero_le _
  write_le := Nat.le_refl _
  size_le := h

def readable (b : Buffer) : Nat := b.writeIdx - b.readIdx

def writable (b : Buffer) : Nat := b.buf.length - b.writeIdx

/-- The storage from `read_ptr()` on. Only its first `readable` bytes are data. -/
def readPtr (b : Buffer) : Bytes := b.buf.drop b.readIdx

/-- The readable bytes, which is all that a reader of the buffer observes. -/
def bytes (b : Buffer) : Bytes := b.readPtr.take b.readable

/-- Store bytes directly through `write_ptr()`, without committing them. The
caller must stay inside the writable space. -/
def writeDirect (b : Buffer) (data : Bytes) (h : data.length ≤ b.writable) : Buffer where
  buf := b.buf.take b.writeIdx ++ data ++ b.buf.drop (b.writeIdx + data.length)
  readIdx := b.readIdx
  writeIdx := b.writeIdx
  read_le := b.read_le
  write_le := by simp [b.write_le]
  size_le := by
    have hWrite := b.write_le
    have hSize := b.size_le
    simp only [writable] at h
    simp only [List.length_append, List.length_take, List.length_drop]
    omega

theorem writeDirect_writable (b : Buffer) (data : Bytes) (h : data.length ≤ b.writable) :
    (b.writeDirect data h).writable = b.writable := by
  have hWrite := b.write_le
  simp only [writable] at h
  simp only [writable, writeDirect, List.length_append, List.length_take, List.length_drop]
  omega

/-- Move the write cursor over `n` bytes of the writable space. -/
def advanceWrite (b : Buffer) (n : Nat) (h : n ≤ b.writable) : Buffer where
  buf := b.buf
  readIdx := b.readIdx
  writeIdx := b.writeIdx + n
  read_le := Nat.le_add_right_of_le b.read_le
  write_le := by
    have hWrite := b.write_le
    simp only [writable] at h
    omega
  size_le := b.size_le

/-- Commit bytes written directly into `write_ptr()`. -/
def hasWritten (b : Buffer) (n : Nat) : Except StdError Buffer :=
  if h : n > b.writable then .error (.outOfRange "Buffer::has_written")
  else .ok (b.advanceWrite n (Nat.le_of_not_lt h))

def consume (b : Buffer) (n : Nat) : Except StdError Buffer :=
  if h : n > b.readable then .error (.outOfRange "Buffer::consume")
  else if b.readIdx + n = b.writeIdx then .ok
    { buf := b.buf
      readIdx := 0
      writeIdx := 0
      read_le := Nat.le_refl _
      write_le := Nat.zero_le _
      size_le := b.size_le }
  else .ok
    { buf := b.buf
      readIdx := b.readIdx + n
      writeIdx := b.writeIdx
      read_le := by
        have hRead := b.read_le
        simp only [readable] at h
        omega
      write_le := b.write_le
      size_le := b.size_le }

/-- The scan of `find_crlf` over the remaining readable bytes, at index `i`. -/
def findCrlfFrom (i : Nat) : Bytes → Option Nat
  | [] => none
  | [_] => none
  | c :: d :: rest => if c = 13 ∧ d = 10 then some i else findCrlfFrom (i + 1) (d :: rest)

/-- Offset of the first CRLF; `none` models `std::string::npos`. -/
def findCrlf (b : Buffer) : Option Nat := findCrlfFrom 0 (b.readPtr.take b.readable)

/-- Slide the readable bytes to the front of the storage. `memmove` leaves the
storage behind the moved block as it was. -/
def compact (b : Buffer) : Buffer where
  buf := b.readPtr.take b.readable ++ b.buf.drop b.readable
  readIdx := 0
  writeIdx := b.readable
  read_le := Nat.zero_le _
  write_le := by
    have hRead := b.read_le
    have hWrite := b.write_le
    simp only [readPtr, readable, List.length_append, List.length_take, List.length_drop]
    omega
  size_le := by
    have hRead := b.read_le
    have hWrite := b.write_le
    have hSize := b.size_le
    simp only [readPtr, readable, List.length_append, List.length_take, List.length_drop]
    omega

/-- Enlarge the storage to `size` bytes; new bytes are value-initialised. -/
def resize (b : Buffer) (size : Nat) (hLe : b.buf.length ≤ size) (hMax : size ≤ sizeMax) :
    Buffer where
  buf := b.buf ++ List.replicate (size - b.buf.length) 0
  readIdx := b.readIdx
  writeIdx := b.writeIdx
  read_le := b.read_le
  write_le := by
    have hWrite := b.write_le
    simp only [List.length_append, List.length_replicate]
    omega
  size_le := by
    simp only [List.length_append, List.length_replicate]
    omega

theorem compact_writable (b : Buffer) : b.compact.writable = b.readIdx + b.writable := by
  have hRead := b.read_le
  have hWrite := b.write_le
  simp only [compact, writable, readPtr, readable, List.length_append, List.length_take,
    List.length_drop]
  omega

variable {len : Nat} {b : Buffer} {data : Bytes}

theorem grow_le (b : Buffer) (h : ¬ b.writable ≥ len) : b.buf.length ≤ b.writeIdx + len := by
  have hWrite := b.write_le
  simp only [writable] at h
  omega

theorem grow_le_sizeMax (b : Buffer) (h : ¬ len > sizeMax - b.writeIdx) :
    b.writeIdx + len ≤ sizeMax := by
  have hWrite := b.write_le
  have hSize := b.size_le
  omega

/-- The room asked for is part of the result, so a caller cannot lose it. -/
def ensureWritable (b : Buffer) (len : Nat) :
    Except StdError {room : Buffer // len ≤ room.writable} :=
  if hRoom : b.writable ≥ len then .ok ⟨b, hRoom⟩
  else if hCompact : b.readIdx + b.writable ≥ len then
    .ok ⟨b.compact, by rw [compact_writable]; exact hCompact⟩
  else if hMax : len > sizeMax - b.writeIdx then .error (.lengthError "Buffer capacity overflow")
  else
    .ok ⟨b.resize (b.writeIdx + len) (b.grow_le hRoom) (b.grow_le_sizeMax hMax), by
      have hGrow := b.grow_le hRoom
      simp only [resize, writable, List.length_append, List.length_replicate]
      omega⟩

/-- `append(const char*, size_t)`. A null pointer is `none`; a non-null one
points to at least `len` bytes outside this buffer. -/
def append (b : Buffer) (data : Option Bytes) (len : Nat) : Except StdError Buffer :=
  if len = 0 then .ok b
  else match data with
    | none => .error (.invalidArgument "Buffer::append requires non-null data")
    | some source => do
      let ⟨room, hRoom⟩ ← b.ensureWritable len
      let copied := room.writeDirect (source.take len)
        (Nat.le_trans (List.length_take_le ..) hRoom)
      return copied.advanceWrite len (by simpa only [copied, writeDirect_writable] using hRoom)

/-- `append(const std::string&)`. -/
def appendString (b : Buffer) (data : Bytes) : Except StdError Buffer :=
  b.append (some data) data.length

theorem length_bytes (b : Buffer) : b.bytes.length = b.readable := by
  have hRead := b.read_le
  have hWrite := b.write_le
  simp only [bytes, readPtr, readable, List.length_take, List.length_drop]
  omega

theorem bytes_length_le (b : Buffer) : b.bytes.length ≤ sizeMax := by
  have hWrite := b.write_le
  have hSize := b.size_le
  rw [length_bytes, readable]
  omega

@[simp] theorem bytes_create (initial : Nat) (h : initial ≤ sizeMax) :
    (create initial h).bytes = [] := by
  simp [bytes, readable, create]

@[simp] theorem bytes_holding (data : Bytes) (h : data.length ≤ sizeMax) :
    (holding data h).bytes = data := by
  simp [bytes, readPtr, readable, holding]

theorem take_readPtr (b : Buffer) (n : Nat) (h : n ≤ b.readable) :
    b.readPtr.take n = b.bytes.take n := by
  rw [bytes, List.take_take, Nat.min_eq_left h]

/-- Consuming at most the readable bytes drops them from the front, whether or
not the cursors are reset to the start of the storage. -/
theorem consume_ok (b : Buffer) (n : Nat) (h : n ≤ b.readable) :
    ∃ b', b.consume n = .ok b' ∧ b'.bytes = b.bytes.drop n ∧ b'.writeIdx ≤ b.writeIdx := by
  have hNot : ¬ n > b.readable := Nat.not_lt.mpr h
  by_cases hEmpty : b.readIdx + n = b.writeIdx
  · refine ⟨_, by rw [consume, dif_neg hNot, if_pos hEmpty], ?_, Nat.zero_le _⟩
    have hAll : b.bytes.length ≤ n := by
      rw [length_bytes, readable]
      omega
    rw [List.drop_eq_nil_of_le hAll]
    simp [bytes, readable]
  · refine ⟨_, by rw [consume, dif_neg hNot, if_neg hEmpty], ?_, ?_⟩
    · simp only [bytes, readPtr, readable, List.drop_take, List.drop_drop]
      congr 1
      omega
    · exact Nat.le_refl b.writeIdx

theorem consume_error (b : Buffer) (n : Nat) (h : b.readable < n) :
    b.consume n = .error (.outOfRange "Buffer::consume") := by
  rw [consume, dif_pos h]

/-- A reader that takes everything leaves the cursors at the start of the storage. -/
theorem consume_all (b : Buffer) :
    ∃ b', b.consume b.readable = .ok b' ∧ b'.bytes = [] ∧ b'.buf = b.buf ∧ b'.writeIdx = 0 := by
  have hAll : b.readIdx + b.readable = b.writeIdx := Nat.add_sub_of_le b.read_le
  refine ⟨_, by rw [consume, dif_neg (Nat.lt_irrefl _), if_pos hAll], ?_, ?_, ?_⟩
  · simp [bytes, readable]
  · rfl
  · rfl

theorem bytes_compact (b : Buffer) : b.compact.bytes = b.bytes := by
  have hLength : (b.readPtr.take b.readable).length = b.readable := b.length_bytes
  simp only [bytes, compact, readPtr, List.drop_zero]
  rw [show readable ⟨_, 0, b.readable, _, _, _⟩ = b.readable from Nat.sub_zero _]
  exact List.take_left' hLength

theorem bytes_resize (b : Buffer) (size : Nat) (hLe : b.buf.length ≤ size) (hMax : size ≤ sizeMax) :
    (b.resize size hLe hMax).bytes = b.bytes := by
  have hRead := b.read_le
  have hWrite := b.write_le
  simp only [bytes, readPtr, readable, resize]
  rw [List.drop_append_of_le_length (by omega), List.take_append_of_le_length]
  rw [List.length_drop]
  omega

/-- Reserving room never changes what a reader sees. -/
theorem bytes_ensureWritable {room : {room : Buffer // len ≤ room.writable}}
    (h : b.ensureWritable len = .ok room) : room.val.bytes = b.bytes := by
  unfold ensureWritable at h
  split at h
  · cases h
    rfl
  · rename_i hRoom
    split at h
    · cases h
      exact b.bytes_compact
    · split at h
      · cases h
      · rename_i hMax
        cases h
        exact b.bytes_resize _ (b.grow_le hRoom) (b.grow_le_sizeMax hMax)

/-- Of the bytes stored at the write cursor, those that are committed are added
at the end. -/
theorem bytes_advanceWrite_writeDirect (b : Buffer) (data : Bytes) (n : Nat)
    (h : data.length ≤ b.writable) (hLe : n ≤ data.length)
    (h' : n ≤ (b.writeDirect data h).writable) :
    ((b.writeDirect data h).advanceWrite n h').bytes = b.bytes ++ data.take n := by
  have hRead := b.read_le
  have hWrite := b.write_le
  have hTake : (b.buf.take b.writeIdx).length = b.writeIdx := by
    rw [List.length_take]
    omega
  have hOld : ((b.buf.take b.writeIdx).drop b.readIdx).length = b.writeIdx - b.readIdx := by
    rw [List.length_drop, hTake]
  have hCount : b.writeIdx + n - b.readIdx = b.writeIdx - b.readIdx + n := by omega
  simp only [bytes, readPtr, readable, advanceWrite, writeDirect]
  rw [List.append_assoc, List.drop_append_of_le_length (by omega), hCount, ← hOld,
    List.take_length_add_append, List.take_append_of_le_length hLe, hOld, List.drop_take]

theorem bytes_writeDirect_advanceWrite (b : Buffer) (data : Bytes) (h : data.length ≤ b.writable)
    (h' : data.length ≤ (b.writeDirect data h).writable) :
    ((b.writeDirect data h).advanceWrite data.length h').bytes = b.bytes ++ data := by
  rw [bytes_advanceWrite_writeDirect b data data.length h (Nat.le_refl _) h', List.take_length]

/-- `ensure_writable` keeps the storage, or grows it where a slide makes no room. -/
theorem length_ensureWritable (b : Buffer) {room : {room : Buffer // len ≤ room.writable}}
    (h : b.ensureWritable len = .ok room) :
    room.val.buf.length = b.buf.length ∨
      b.readIdx + b.writable < len ∧ room.val.buf.length = b.writeIdx + len := by
  have hRead := b.read_le
  have hWrite := b.write_le
  unfold ensureWritable at h
  split_ifs at h with hRoom hCompact hMax
  · cases h
    exact .inl rfl
  · cases h
    refine .inl ?_
    simp only [compact, readPtr, readable, List.length_append,
      List.length_take, List.length_drop]
    omega
  · cases h
    refine .inr ⟨Nat.lt_of_not_le hCompact, ?_⟩
    have hGrow := b.grow_le hRoom
    simp only [resize, List.length_append, List.length_replicate]
    omega

theorem length_writeDirect (b : Buffer) (h : data.length ≤ b.writable) :
    (b.writeDirect data h).buf.length = b.buf.length := by
  have hWrite := b.write_le
  unfold writable at h
  simp only [writeDirect, List.length_append, List.length_take, List.length_drop]
  omega

/-- The write cursor never runs ahead of the bytes ever appended, which is why
the growth check can only fail on more than `size_t` many bytes. -/
theorem writeIdx_ensureWritable_le {room : {room : Buffer // len ≤ room.writable}}
    (h : b.ensureWritable len = .ok room) : room.val.writeIdx ≤ b.writeIdx := by
  unfold ensureWritable at h
  split at h
  · cases h
    exact Nat.le_refl _
  · split at h
    · cases h
      exact Nat.sub_le ..
    · split at h
      · cases h
      · cases h
        exact Nat.le_refl _

theorem ensureWritable_ok_or_overflow (b : Buffer) (len : Nat) :
    (∃ room, b.ensureWritable len = .ok room) ∨
      (sizeMax < b.writeIdx + len ∧
        b.ensureWritable len = .error (.lengthError "Buffer capacity overflow")) := by
  unfold ensureWritable
  split
  · exact .inl ⟨_, rfl⟩
  · split
    · exact .inl ⟨_, rfl⟩
    · split
      · refine .inr ⟨?_, rfl⟩
        have hWrite := b.write_le
        have hSize := b.size_le
        omega
      · exact .inl ⟨_, rfl⟩

/-- Appending a string either adds exactly its bytes at the end or throws the
capacity error, which needs more bytes than `size_t` can count. -/
theorem appendString_cases (b : Buffer) (data : Bytes) :
    (∃ b', b.appendString data = .ok b' ∧ b'.bytes = b.bytes ++ data ∧
        b'.writeIdx ≤ b.writeIdx + data.length) ∨
      (sizeMax < b.writeIdx + data.length ∧
        b.appendString data = .error (.lengthError "Buffer capacity overflow")) := by
  unfold appendString append
  by_cases hEmpty : data.length = 0
  · left
    rw [if_pos hEmpty, List.length_eq_zero_iff.mp hEmpty]
    exact ⟨b, rfl, (List.append_nil _).symm, Nat.le_refl _⟩
  · rw [if_neg hEmpty]
    rcases b.ensureWritable_ok_or_overflow data.length with ⟨room, hRoom⟩ | ⟨hBig, hError⟩
    · left
      refine ⟨_, by simp only [hRoom]; rfl, ?_, ?_⟩
      · have hBytes := bytes_ensureWritable hRoom
        simp only [List.take_length]
        rw [bytes_writeDirect_advanceWrite, hBytes]
      · exact Nat.add_le_add_right (writeIdx_ensureWritable_le hRoom) _
    · right
      refine ⟨hBig, ?_⟩
      simp only [hError]
      rfl

/-- `append`, where `short` says that the vector refuses to grow. -/
def appendOr (b : Buffer) (short : Bool) (data : Bytes) : Except StdError Buffer :=
  match b.appendString data with
  | .error e => .error e
  | .ok b' => if short ∧ b.buf.length < b'.buf.length then .error .badAlloc else .ok b'

theorem bytes_appendOr {b' : Buffer} {short : Bool} (h : b.appendOr short data = .ok b') :
    b'.bytes = b.bytes ++ data := by
  unfold appendOr at h
  rcases b.appendString_cases data with ⟨next, hOk, hBytes, _⟩ | ⟨_, hError⟩
  · simp only [hOk] at h
    split at h
    · cases h
    · cases h
      exact hBytes
  · simp only [hError] at h
    cases h

end Buffer
end Tinycoro
