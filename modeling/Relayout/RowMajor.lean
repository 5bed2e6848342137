import Relayout.Perm
import Relayout.Word

/-!
# Row-major storage

Elements of a tensor stand one after another with the last axis running fastest. `coords` reads the coordinates off a
position in that order, `offset` is the way back, and `source` follows an element of a transposed tensor to its place in
the tensor it comes from.

Extents of zero make `size` small but not the products that it is multiplied up from, so whether those fit in a word
depends on the order of the axes: `size?` starts at the first axis, `volume?` at the last.
-/

namespace Relayout.RowMajor

/-- Number of elements. -/
def size (dims : List Nat) : Nat :=
  dims.foldr (· * ·) 1

/-- The number of elements, multiplied up from the first axis on. -/
def size? (dims : List Nat) : Option Nat :=
  dims.foldlM Word.mul? 1

/-- The number of elements, multiplied up from the last axis on. -/
def volume? (dims : List Nat) : Option Nat :=
  dims.foldrM (fun d n => Word.mul? n d) 1

/-- How far apart two neighbours along each axis are. -/
def strides : List Nat → List Nat
  | [] => []
  | _ :: dims => size dims :: strides dims

/-- The strides fit in words. The extent of the first axis has no part in them. -/
def stridesFit (dims : List Nat) : Bool :=
  (volume? dims.tail).isSome

/-- Coordinates of the element at a position. -/
def coords : List Nat → Nat → List Nat
  | [], _ => []
  | d :: dims, i => i / size dims % d :: coords dims i

/-- The position that a list of steps reaches, each of its own length. -/
def offset (steps lengths : List Nat) : Nat :=
  (List.zipWith (· * ·) steps lengths).foldr (· + ·) 0

/-- Where a tensor of extents `dims` holds the element that its transpose by `perm` has at position `i`. -/
def source (dims perm : List Nat) (i : Nat) : Nat :=
  offset (coords (Perm.selectD dims perm 0) i) (Perm.selectD (strides dims) perm 0)

end Relayout.RowMajor
