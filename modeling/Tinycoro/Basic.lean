import Mathlib.Algebra.Group.Nat.Defs

/-! Vocabulary shared by every component: raw bytes, the largest `size_t`,
and the standard exceptions that the library raises with their texts. -/
namespace Tinycoro

/-- A run of `char`s. The library never depends on the signedness of `char`. -/
abbrev Bytes := List UInt8

/-- `std::numeric_limits<std::size_t>::max()` on the supported platform. -/
def sizeMax : Nat := 2 ^ 64 - 1

/-- The standard exceptions thrown by the library, with their `what()` text.
A `systemError` also carries the `errno` value it was built from. -/
inductive StdError where
  | outOfRange (what : String)
  | invalidArgument (what : String)
  | lengthError (what : String)
  | logicError (what : String)
  | systemError (code : Nat) (what : String)
  | badAlloc
  deriving DecidableEq, Repr

end Tinycoro
