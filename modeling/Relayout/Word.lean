/-!
# Machine words

Sizes are 64-bit words and ids are 32-bit words. Arithmetic that leaves its word does not wrap around: the run breaks
off, as it does when a buffer is asked for that has more bytes than there are addresses, or when something is read at a
place that does not exist. A `Crash` says which it was. It is not an answer that a caller can deal with, so nothing
that runs into one goes on.

How many ids there are is a parameter (`IdSpace`). Without another choice in sight they have 32 bits.
-/

namespace Relayout

inductive Crash where
  | overflow
  | capacity
  | outOfBounds
  deriving DecidableEq

def Crash.message : Crash → String
  | overflow => "arithmetic overflow"
  | capacity => "capacity overflow"
  | outOfBounds => "index out of bounds"

namespace Word

/-- A number, if it is a size. -/
def size? (n : Nat) : Option Nat :=
  if n < UInt64.size then some n else none

def mul? (m n : Nat) : Option Nat :=
  size? (m * n)

def add? (m n : Nat) : Option Nat :=
  size? (m + n)

/-- There are addresses for a number of bytes. -/
def isAddressable (bytes : Nat) : Bool :=
  bytes < UInt64.size / 2

end Word

/-- The ids that there are: those up to a last one, or all numbers. -/
class IdSpace where
  last? : Option Nat

namespace IdSpace

instance (priority := low) word32 : IdSpace :=
  ⟨some (UInt32.size - 1)⟩

abbrev unbounded : IdSpace :=
  ⟨none⟩

/-- A number is an id. -/
def admits [IdSpace] (n : Nat) : Bool :=
  last?.all (n ≤ ·)

end IdSpace

end Relayout
