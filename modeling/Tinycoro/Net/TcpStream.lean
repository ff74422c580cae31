import Tinycoro.Basic

/-! What the operations of a `TcpStream` share: the results they return, the deadline
they compute from a timeout, and the part of the kernel that a descriptor names. -/
namespace Tinycoro.Net

section Errno

def EINTR : Nat := 4
def EBADF : Nat := 9
def EAGAIN : Nat := 11
def EWOULDBLOCK : Nat := 11
def ECONNABORTED : Nat := 103

end Errno

inductive IoStatus where
  | ok
  | eof
  | timeout
  | closed
  | error
  deriving DecidableEq

structure IoResult where
  status : IoStatus
  bytes : Nat
  errorCode : Nat
  deriving DecidableEq

/-- Milliseconds. A negative timeout means none. -/
abbrev Duration := Int

def kNoTimeout : Duration := -1

/-- Nanoseconds in a millisecond. -/
def nanoseconds : Int := 1000000

/-- A timeout turned into a point of the clock, which counts nanoseconds. -/
structure Deadline where
  enabled : Bool
  deadline : Int
  deriving DecidableEq

namespace Deadline

def create (timeout : Duration) (now : Int) : Deadline where
  enabled := timeout ≥ 0
  deadline := if timeout ≥ 0 then now + timeout * nanoseconds else 0

/-- The time left, rounded up to milliseconds. -/
def remaining (d : Deadline) (now : Int) : Duration :=
  if !d.enabled then kNoTimeout
  else if now ≥ d.deadline then 0
  else
    let remaining := d.deadline - now
    let milliseconds := remaining.tdiv nanoseconds
    if milliseconds * nanoseconds < remaining then milliseconds + 1 else milliseconds

end Deadline

/-- The answer of a system call that transfers bytes: a count, or `errno`. -/
inductive Transfer where
  | count (n : Nat)
  | failed (errno : Nat)
  deriving DecidableEq

end Tinycoro.Net
