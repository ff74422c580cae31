import Tinycoro.Buffer.Queue

/-! How large the storage of a buffer gets. It grows to `write_idx_ + len` without
sliding the bytes down first, so consumed space is carried into the new size. But it
grows only where a slide would not have made room, and then there is little of it. -/
namespace Tinycoro

/-- A request for room asks for at most `M` bytes, and at most `L` are readable when it
is made. -/
def BufferOp.Modest (L M : Nat) (b : RawBuffer) : BufferOp → Prop
  | append _ _ len | ensureWritable _ len => len.toNat ≤ M ∧ b.readable.toNat ≤ L
  | _ => True

instance (L M : Nat) (b : RawBuffer) (op : BufferOp) : Decidable (op.Modest L M b) := by
  unfold BufferOp.Modest
  split <;> infer_instance

/-- All the calls of a run are such, each where it is made. -/
def RawBuffer.ModestRun (L M : Nat) (b : RawBuffer) : List BufferOp → Prop
  | [] => True
  | op :: ops => op.Modest L M b ∧ ModestRun L M (op.perform b).state ops

instance decidableModestRun (L M : Nat) :
    (b : RawBuffer) → (ops : List BufferOp) → Decidable (b.ModestRun L M ops)
  | _, [] => isTrue trivial
  | b, op :: ops =>
    have := decidableModestRun L M (op.perform b).state ops
    inferInstanceAs (Decidable (op.Modest L M b ∧ (op.perform b).state.ModestRun L M ops))

section Calls

variable (b : Buffer)

theorem length_ensureWritable_le {L M len : Nat} {room : {room : Buffer // len ≤ room.writable}}
    (h : b.ensureWritable len = .ok room) (hLen : len ≤ M) (hReadable : b.readable ≤ L) :
    room.val.buf.length ≤ max b.buf.length (L + 2 * M - 1) := by
  rcases b.length_ensureWritable h with hSame | ⟨hTight, hGrown⟩
  · exact hSame.trans_le (Nat.le_max_left ..)
  · have hRead := b.read_le
    unfold Buffer.readable at hReadable
    have hBound : b.writeIdx + len ≤ L + 2 * M - 1 := by omega
    exact hGrown.trans_le (hBound.trans (Nat.le_max_right ..))

theorem length_hasWritten (raw : RawBuffer) (n : UInt64) :
    (raw.hasWritten n).state.buf.length = raw.buf.length := by
  unfold RawBuffer.hasWritten
  split_ifs <;> rfl

variable {L M : Nat}

theorem length_rawEnsureWritable_le (short : Bool) {len : UInt64} (hLen : len.toNat ≤ M)
    (hReadable : b.toRaw.readable.toNat ≤ L) :
    (b.toRaw.ensureWritable short len).state.buf.length ≤ max b.buf.length (L + 2 * M - 1) := by
  rw [b.toNat_readable] at hReadable
  rcases b.ensureWritable_toRaw short len with ⟨room, hRoom, hRaw⟩ | ⟨e, -, hRaw⟩
  · rw [hRaw]
    exact length_ensureWritable_le b hRoom hLen hReadable
  · rw [hRaw]
    exact Nat.le_max_left ..

theorem length_append_le (short : Bool) (data : Option Bytes) {len : UInt64} (hLen : len.toNat ≤ M)
    (hReadable : b.toRaw.readable.toNat ≤ L) :
    (b.toRaw.append short data len).state.buf.length ≤ max b.buf.length (L + 2 * M - 1) := by
  by_cases hZero : len = 0
  · rw [RawBuffer.append.eq_def, if_pos hZero]
    exact Nat.le_max_left ..
  · cases data with
    | none =>
      rw [RawBuffer.append, if_neg hZero]
      exact Nat.le_max_left ..
    | some source =>
      rw [RawBuffer.append, if_neg hZero]
      rw [b.toNat_readable] at hReadable
      rcases b.ensureWritable_toRaw short len with ⟨room, hRoom, hRaw⟩ | ⟨e, -, hRaw⟩
      · have hFits : (source.take len.toNat).length ≤ room.val.writable :=
          (List.length_take_le ..).trans room.property
        rw [hRaw, Effect.Outcome.ok_andThen, Buffer.writeDirect_toRaw _ _ hFits]
        refine (room.val.length_writeDirect hFits).trans_le ?_
        exact length_ensureWritable_le b hRoom hLen hReadable
      · rw [hRaw, Effect.Outcome.fail_andThen]
        exact Nat.le_max_left ..

/-- One call. -/
theorem length_perform_le {op : BufferOp} (hValid : op.Valid b.toRaw)
    (hModest : op.Modest L M b.toRaw) :
    (op.perform b.toRaw).state.buf.length ≤ max b.buf.length (L + 2 * M - 1) := by
  cases op with
  | append short data => exact length_append_le b short data hModest.1 hModest.2
  | ensureWritable short => exact length_rawEnsureWritable_le b short hModest.1 hModest.2
  | write data =>
    have hFits := hValid.1
    rw [b.toNat_writable] at hFits
    rw [BufferOp.perform, length_hasWritten, b.writeDirect_toRaw data hFits]
    exact (b.length_writeDirect hFits).trans_le (Nat.le_max_left ..)
  | consume =>
    rw [BufferOp.perform, length_consume]
    exact Nat.le_max_left ..
  | retrieveAllAsString =>
    rw [BufferOp.perform, RawBuffer.retrieveAllAsString]
    split_ifs
    · exact Nat.le_max_left ..
    · exact Nat.le_max_left ..
    · rw [Effect.Outcome.ok_andThen]
      exact (length_consume ..).trans_le (Nat.le_max_left ..)

end Calls

/-- A run of modest calls never makes the storage longer than its first length or `L + 2M - 1`. -/
theorem length_run_le {L M : Nat} {b : Buffer} {ops : List BufferOp} {raw : RawBuffer}
    {results : List BufferResult} (hRun : b.toRaw.run ops = some (raw, results))
    (hModest : b.toRaw.ModestRun L M ops) : raw.buf.length ≤ max b.buf.length (L + 2 * M - 1) := by
  induction ops generalizing b results with
  | nil =>
    cases hRun
    exact Nat.le_max_left ..
  | cons op ops ih =>
    rw [RawBuffer.run] at hRun
    split at hRun
    · rename_i hValid
      obtain ⟨next, hServed⟩ := served b op hValid
      obtain ⟨⟨raw', results'⟩, hRest, hEq⟩ := Option.map_eq_some_iff.mp hRun
      cases hEq
      obtain ⟨hFirst, hLater⟩ := hModest
      have hStep := length_perform_le b hValid hFirst
      rw [hServed.state] at hRest hLater hStep
      have hNext : next.buf.length ≤ max b.buf.length (L + 2 * M - 1) := hStep
      exact (ih hRest hLater).trans (Nat.max_le.mpr ⟨hNext, Nat.le_max_right ..⟩)
    · cases hRun

/-- The storage of a buffer in use does not grow without end. Every beginning of a run
is a run, so the bound holds all along. -/
theorem capacity_bounded (L M : Nat) (initial : UInt64) (ops : List BufferOp) (b : RawBuffer)
    (results : List BufferResult) (hRun : (RawBuffer.create initial).run ops = some (b, results))
    (hModest : (RawBuffer.create initial).ModestRun L M ops) :
    b.buf.length ≤ max (max initial.toNat 1) (L + 2 * M - 1) := by
  have hStart := Buffer.toRaw_create (Buffer.toNat_le_sizeMax initial)
  rw [hStart] at hRun hModest
  have hSize : (Buffer.create initial.toNat (Buffer.toNat_le_sizeMax initial)).buf.length ≤
      max initial.toNat 1 := by
    rw [Buffer.create, List.length_replicate]
    split
    · exact Nat.le_max_right ..
    · exact Nat.le_max_left ..
  exact (length_run_le hRun hModest).trans (Nat.max_le.mpr
    ⟨hSize.trans (Nat.le_max_left ..), Nat.le_max_right ..⟩)

/-- With `L = 2` and `M = 3` the bound of 7 bytes is reached. -/
theorem capacity_bounded_reached :
    ∃ ops b results, (RawBuffer.create 4).run ops = some (b, results) ∧
      (RawBuffer.create 4).ModestRun 2 3 ops ∧ b.buf.length = 7 ∧
      b.buf.length ≤ max (max (4 : UInt64).toNat 1) (2 + 2 * 3 - 1) := by
  let ops : List BufferOp := [.append false (some [1, 2, 3]) 3, .write [4] 1, .consume 2,
    .ensureWritable false 3]
  have hRun : (RawBuffer.create 4).run ops = some (_, _) := rfl
  have hModest : (RawBuffer.create 4).ModestRun 2 3 ops := by decide
  exact ⟨ops, _, _, hRun, hModest, by decide, capacity_bounded 2 3 4 ops _ _ hRun hModest⟩

end Tinycoro
