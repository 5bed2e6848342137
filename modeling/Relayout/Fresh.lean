/-!
# Fresh names

A name that is taken is followed by an underscore and a number. Among one more candidates than there are taken names
one is free, so the search is over that many numbers.
-/

namespace Relayout

def numbered (base : String) (k : Nat) : String :=
  base ++ "_" ++ toString k

/-- The first of the names numbered from `start` that is not taken. -/
def numberedFree (taken : List String) (base : String) (start : Nat) : String :=
  numbered base (((List.range' start (taken.length + 1)).find? fun k => !taken.contains (numbered base k)).getD start)

/-- The name itself if it is free, otherwise the first free one numbered from one. -/
def freshName (taken : List String) (base : String) : String :=
  if taken.contains base then numberedFree taken base 1 else base

end Relayout
