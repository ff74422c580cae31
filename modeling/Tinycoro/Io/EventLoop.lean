import Tinycoro.Io.Epoll

/-! The event loop: a map from descriptors to channels, kept in step with the
kernel's epoll set. A channel is known by its address. -/
namespace Tinycoro.Io

/-- What C++ code throws, with its text. -/
inductive Exception where
  | invalidArgument (what : String)
  | logicError (what : String)
  | systemError (what : String)
  | badAlloc
  /-- an exception of a task, by number -/
  | task (id : Nat)
  deriving DecidableEq

/-- The directions `READ` and `WRITE`. -/
inductive Event where
  | read
  | write
  deriving DecidableEq

/-- A combination of directions, `READ | WRITE` included. -/
structure Interest where
  read : Bool
  write : Bool
  deriving DecidableEq

structure Channel where
  address : Nat
  fd : Int
  interest : Interest
  deriving DecidableEq

def toEpollEvents (interest : Interest) : EpollEvents where
  epollIn := interest.read
  epollOut := interest.write
  epollRdhup := true
  epollErr := false
  epollHup := false

structure EventLoop where
  channels : Int → Option Nat
  kernel : Kernel

namespace EventLoop

def kMaxEvents : Nat := 256

def create : EventLoop := ⟨fun _ => none, .create⟩

def addChannel (loop : EventLoop) (fails : Bool) (channel : Channel) : Except Exception EventLoop :=
  if channel.fd < 0 then .error (.invalidArgument "invalid channel")
  else match loop.channels channel.fd with
    | some _ => .error (.logicError "channel already registered")
    | none =>
      match loop.kernel.ctlAdd fails channel.fd (toEpollEvents channel.interest) with
      | none => .error (.systemError "epoll_ctl ADD")
      | some kernel =>
        .ok ⟨Function.update loop.channels channel.fd (some channel.address), kernel⟩

def updateChannel (loop : EventLoop) (fails : Bool) (channel : Channel) :
    Except Exception EventLoop :=
  if channel.fd < 0 then .error (.invalidArgument "invalid channel")
  else if loop.channels channel.fd ≠ some channel.address then
    .error (.logicError "channel is not registered")
  else match loop.kernel.ctlMod fails channel.fd (toEpollEvents channel.interest) with
    | none => .error (.systemError "epoll_ctl MOD")
    | some kernel => .ok { loop with kernel }

def removeChannel (loop : EventLoop) (channel : Channel) : EventLoop :=
  if channel.fd < 0 ∨ loop.channels channel.fd ≠ some channel.address then loop
  else ⟨Function.update loop.channels channel.fd none, loop.kernel.ctlDel channel.fd⟩

/-- The report makes `dispatch_events` call the callback of this direction. -/
def selects (flags : EpollEvents) : Event → Bool
  | .read => flags.epollIn || flags.terminal
  | .write => flags.epollOut || flags.terminal

section Inversion

variable {loop loop' : EventLoop} {fails : Bool} {channel : Channel}

/-- What `add_channel` has tested and done when it returns. -/
theorem addChannel_ok (h : loop.addChannel fails channel = .ok loop') :
    0 ≤ channel.fd ∧ loop.channels channel.fd = none ∧ loop.kernel.registered channel.fd = none ∧
      loop' = ⟨Function.update loop.channels channel.fd (some channel.address),
        { loop.kernel with
          registered := Function.update loop.kernel.registered channel.fd
            (some ⟨toEpollEvents channel.interest,
              ((toEpollEvents channel.interest).visible
                (loop.kernel.conditions channel.fd)).any⟩) }⟩ := by
  unfold addChannel at h
  by_cases hNeg : channel.fd < 0
  · rw [if_pos hNeg] at h
    cases h
  · rw [if_neg hNeg] at h
    split at h
    · cases h
    · rename_i hNone
      split at h
      · cases h
      · rename_i kernel hAdd
        unfold Kernel.ctlAdd at hAdd
        split_ifs at hAdd with hRefused
        cases hAdd
        cases h
        exact ⟨by omega, hNone, by simpa using (not_or.mp hRefused).2, rfl⟩

/-- What `update_channel` has tested and done when it returns. -/
theorem updateChannel_ok (h : loop.updateChannel fails channel = .ok loop') :
    ∃ r, loop.kernel.registered channel.fd = some r ∧
      loop' = ⟨loop.channels,
        { loop.kernel with
          registered := Function.update loop.kernel.registered channel.fd
            (some ⟨toEpollEvents channel.interest, r.pending ||
              ((toEpollEvents channel.interest).visible
                (loop.kernel.conditions channel.fd)).any⟩) }⟩ := by
  unfold updateChannel at h
  by_cases hNeg : channel.fd < 0
  · rw [if_pos hNeg] at h
    cases h
  · rw [if_neg hNeg] at h
    split_ifs at h
    split at h
    · cases h
    · rename_i kernel hMod
      unfold Kernel.ctlMod at hMod
      split at hMod
      · rename_i r hRegistered
        cases hMod
        cases h
        exact ⟨r, hRegistered, rfl⟩
      · cases hMod

/-- A channel that is in the map can only fail to be updated in the kernel. -/
theorem updateChannel_error {e : Exception} (h : loop.updateChannel fails channel = .error e)
    (hNonneg : 0 ≤ channel.fd) (hChannel : loop.channels channel.fd = some channel.address) :
    e = .systemError "epoll_ctl MOD" := by
  unfold updateChannel at h
  rw [if_neg (by omega), if_neg (not_not.mpr hChannel)] at h
  split at h
  · cases h
    rfl
  · cases h

/-- Then the kernel was told to fail, or does not have the descriptor. -/
theorem updateChannel_refused {e : Exception} (h : loop.updateChannel fails channel = .error e)
    (hNonneg : 0 ≤ channel.fd) (hChannel : loop.channels channel.fd = some channel.address) :
    fails = true ∨ loop.kernel.registered channel.fd = none := by
  unfold updateChannel at h
  rw [if_neg (by omega), if_neg (not_not.mpr hChannel)] at h
  unfold Kernel.ctlMod at h
  cases hRegistered : loop.kernel.registered channel.fd with
  | none => exact .inr rfl
  | some =>
    cases fails with
    | true => exact .inl rfl
    | false =>
      simp only [hRegistered] at h
      cases h

theorem removeChannel_of_channel (hNonneg : 0 ≤ channel.fd)
    (hChannel : loop.channels channel.fd = some channel.address) :
    loop.removeChannel channel =
      ⟨Function.update loop.channels channel.fd none, loop.kernel.ctlDel channel.fd⟩ := by
  unfold removeChannel
  rw [if_neg]
  simp [hChannel, hNonneg]

theorem removeChannel_other {fd : Int} (hNe : fd ≠ channel.fd) :
    (loop.removeChannel channel).channels fd = loop.channels fd := by
  unfold removeChannel
  split
  · rfl
  · exact Function.update_of_ne hNe ..

/-- What is in the map after `remove_channel` was there before. -/
theorem removeChannel_before {fd : Int} {address : Nat}
    (h : (loop.removeChannel channel).channels fd = some address) :
    loop.channels fd = some address := by
  by_cases hSame : fd = channel.fd
  · subst hSame
    unfold removeChannel at h
    split at h
    · exact h
    · simp only [Function.update_self] at h
      cases h
  · rwa [removeChannel_other hSame] at h

end Inversion

end EventLoop

end Tinycoro.Io
