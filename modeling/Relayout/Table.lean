/-!
# Finite tables

A table is a list of keys with their values; the first entry of a key counts. `put` and `remove` leave no other entry of
their key behind, so a table built with them has each key once.
-/

namespace Relayout

abbrev Table (κ ν : Type) := List (κ × ν)

namespace Table

variable {κ ν : Type} [BEq κ]

def get? (t : Table κ ν) (k : κ) : Option ν :=
  t.lookup k

def contains (t : Table κ ν) (k : κ) : Bool :=
  (t.get? k).isSome

def remove (t : Table κ ν) (k : κ) : Table κ ν :=
  t.filter (!·.1 == k)

def put (t : Table κ ν) (k : κ) (v : ν) : Table κ ν :=
  (k, v) :: t.remove k

end Table

end Relayout
