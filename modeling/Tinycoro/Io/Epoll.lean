import Mathlib.Data.List.Basic
import Mathlib.Logic.Function.Basic

/-! The part of the kernel the event loop talks to: an edge-triggered epoll set.
A registered descriptor has a pending event when a condition it asks for becomes
true, or holds while it is added or modified. Fetching an event takes it away and
reports what holds at that moment. -/
namespace Tinycoro.Io

/-- The bits of `epoll_event::events` in use, as a request and as a report. -/
structure EpollEvents where
  epollIn : Bool
  epollOut : Bool
  epollRdhup : Bool
  epollErr : Bool
  epollHup : Bool
  deriving DecidableEq

namespace EpollEvents

def empty : EpollEvents := ⟨false, false, false, false, false⟩

/-- The conditions that a request makes visible. Errors and hang-ups are always
reported. -/
def visible (request holding : EpollEvents) : EpollEvents where
  epollIn := request.epollIn && holding.epollIn
  epollOut := request.epollOut && holding.epollOut
  epollRdhup := request.epollRdhup && holding.epollRdhup
  epollErr := holding.epollErr
  epollHup := holding.epollHup

def any (e : EpollEvents) : Bool :=
  e.epollIn || e.epollOut || e.epollRdhup || e.epollErr || e.epollHup

/-- The conditions of the first that are not in the second. -/
def diff (e old : EpollEvents) : EpollEvents where
  epollIn := e.epollIn && !old.epollIn
  epollOut := e.epollOut && !old.epollOut
  epollRdhup := e.epollRdhup && !old.epollRdhup
  epollErr := e.epollErr && !old.epollErr
  epollHup := e.epollHup && !old.epollHup

/-- `EPOLLERR | EPOLLHUP | EPOLLRDHUP` -/
def terminal (e : EpollEvents) : Bool := e.epollErr || e.epollHup || e.epollRdhup

end EpollEvents

structure Registration where
  request : EpollEvents
  pending : Bool
  deriving DecidableEq

/-- The epoll set, with the timeout that the last call of `epoll_wait` was given. -/
structure Kernel where
  registered : Int → Option Registration
  conditions : Int → EpollEvents
  timeout : Option Int

namespace Kernel

def create : Kernel := ⟨fun _ => none, fun _ => .empty, none⟩

/-- `EPOLL_CTL_ADD`; a descriptor that is already in the set is refused. -/
def ctlAdd (k : Kernel) (fails : Bool) (fd : Int) (request : EpollEvents) : Option Kernel :=
  if fails ∨ (k.registered fd).isSome then none
  else some { k with
    registered := Function.update k.registered fd (some
    ⟨request, (request.visible (k.conditions fd)).any⟩) }

/-- `EPOLL_CTL_MOD`; a descriptor that is not in the set is refused. -/
def ctlMod (k : Kernel) (fails : Bool) (fd : Int) (request : EpollEvents) : Option Kernel :=
  match k.registered fd, fails with
  | some r, false => some { k with
      registered := Function.update k.registered fd
        (some ⟨request, r.pending || (request.visible (k.conditions fd)).any⟩) }
  | _, _ => none

/-- `EPOLL_CTL_DEL` -/
def ctlDel (k : Kernel) (fd : Int) : Kernel :=
  { k with registered := Function.update k.registered fd none }

/-- The conditions of a descriptor change. A visible condition that was not there
before makes an event pending; the kernel may also wake without one. -/
def change (k : Kernel) (fd : Int) (holding : EpollEvents) (wake : Bool) : Kernel where
  timeout := k.timeout
  conditions := Function.update k.conditions fd holding
  registered := Function.update k.registered fd <| (k.registered fd).map fun r =>
    ⟨r.request, r.pending || wake ||
      ((r.request.visible holding).diff (r.request.visible (k.conditions fd))).any⟩

/-- Closing the last reference to a descriptor takes it out of the set. -/
def close (k : Kernel) (fd : Int) : Kernel where
  timeout := k.timeout
  conditions := Function.update k.conditions fd .empty
  registered := Function.update k.registered fd none

/-- What `epoll_wait` says about a descriptor. -/
def report (k : Kernel) (fd : Int) : EpollEvents :=
  match k.registered fd with
  | some r => r.request.visible (k.conditions fd)
  | none => .empty

/-- `epoll_wait` fetches pending events of distinct descriptors, at most
`maxEvents` of them. It may return with none of them before the timeout, since a signal
ends it as well. -/
def epollWait (k : Kernel) (timeout : Int) (maxEvents : Nat) (batch : List Int) :
    Option (Kernel × List (Int × EpollEvents)) :=
  if batch.length ≤ maxEvents ∧ batch.Nodup ∧
      batch.all (fun fd => (k.registered fd).any (·.pending)) then
    some ({ k with
        timeout := some timeout
        registered := fun fd =>
          if fd ∈ batch then (k.registered fd).map (fun r => ⟨r.request, false⟩)
          else k.registered fd },
      batch.map (fun fd => (fd, k.report fd)))
  else none

end Kernel

end Tinycoro.Io
