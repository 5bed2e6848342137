/-!
# Permutations of axes

A permutation of `n` axes is a list `p` of `n` axes: output axis `i` of the transpose by `p` takes its data from input
axis `p[i]`. Lists that are no permutation occur in blocks that have not been checked yet, so every operation is
defined on all lists; the ones that look a list up at an axis return `none` when an axis is out of range.

- `select?` rearranges a list along an axis list, so that `select? shape p` is the shape after a transpose by `p`;
- `inverse` undoes a permutation, `compose?` is one transpose after another, and `cancels` says that the second undoes
  the first;
- `restrict` is what remains of a permutation when some output axes are reduced away.
-/

namespace Relayout.Perm

/-- The entries of `xs` at the given axes, in their order. -/
def select? {α : Type} (xs : List α) (axes : List Nat) : Option (List α) :=
  axes.mapM (xs[·]?)

/-- The same with `fill` in place of what is out of range. -/
def selectD {α : Type} (xs : List α) (axes : List Nat) (fill : α) : List α :=
  axes.map (xs.getD · fill)

/-- Every axis below the rank occurs. A list that has as many entries as axes then lists each exactly once. -/
def isPermutation (p : List Nat) : Bool :=
  (List.range p.length).all p.contains

def identity (rank : Nat) : List Nat :=
  List.range rank

def isIdentity (p : List Nat) : Bool :=
  p == identity p.length

/-- Where `axis` last occurs in `p`, and `0` if it does not. -/
def position (p : List Nat) (axis : Nat) : Nat :=
  p.length - 1 - p.reverse.idxOf axis

/-- The list that sends every axis to its position: the permutation that undoes `p`. -/
def inverse (p : List Nat) : List Nat :=
  (List.range p.length).map (position p)

/-- The inverse of a list whose entries are axes of its own rank. -/
def inverse? (p : List Nat) : Option (List Nat) :=
  if p.all (· < p.length) then some (inverse p) else none

/-- The transpose by `first` followed by the one by `second`; both must have one rank. -/
def compose? (first second : List Nat) : Option (List Nat) :=
  if first.length = second.length then select? first second else none

/-- A transpose by `second` undoes one by `first`. -/
def cancels (first second : List Nat) : Bool :=
  (compose? first second).any isIdentity

/-- Where the given axes stand in `p`. -/
def positions? (p axes : List Nat) : Option (List Nat) := do
  select? (← inverse? p) axes

/-- What is pending on the result of a reduction that drops axes, when `p` is pending on its input.

`reduced` are the dropped axes after the transpose. Run on the untransposed input, the reduction keeps its axes in
ascending order, so the `i`-th kept axis is found where its source ranks among the kept sources. -/
def restrict (p reduced : List Nat) : List Nat :=
  let sources := ((List.range p.length).filter (!reduced.contains ·)).filterMap (p[·]?)
  sources.map fun source => sources.countP (· < source)

end Relayout.Perm
