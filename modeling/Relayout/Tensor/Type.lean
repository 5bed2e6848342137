import Relayout.RowMajor
import Relayout.Tensor.ElemType

/-!
# Tensor types

An element type with an ordered list of extents, each fixed or named by a symbol. Counts of elements and bytes are
defined when all extents are fixed and the count fits in a word, multiplied from the first axis on.
-/

namespace Relayout

/-- One extent. -/
inductive Dim where
  | fixed (extent : Nat)
  | dynamic (symbol : String)
  deriving DecidableEq

namespace Dim

def extent? : Dim → Option Nat
  | fixed n => some n
  | dynamic _ => none

def isOne (d : Dim) : Bool :=
  d == fixed 1

def text : Dim → String
  | fixed n => toString n
  | dynamic symbol => "?" ++ symbol

end Dim

structure TensorType where
  elem : ElemType
  dims : List Dim
  deriving DecidableEq

namespace TensorType

def ofExtents (elem : ElemType) (extents : List Nat) : TensorType :=
  ⟨elem, extents.map .fixed⟩

def rank (t : TensorType) : Nat :=
  t.dims.length

/-- The extents, when all are fixed. -/
def extents? (t : TensorType) : Option (List Nat) :=
  t.dims.mapM Dim.extent?

def elementCount? (t : TensorType) : Option Nat := do
  RowMajor.size? (← t.extents?)

def byteCount? (t : TensorType) : Option Nat := do
  Word.mul? (← t.elementCount?) t.elem.width

/-- Element type and rank agree; extents may differ. -/
def compatible (t u : TensorType) : Bool :=
  t.elem == u.elem && t.rank == u.rank

def text (t : TensorType) : String :=
  match t.dims with
  | [] => "tensor<" ++ t.elem.name ++ ">"
  | dims => "tensor<" ++ t.elem.name ++ ", " ++ "x".intercalate (dims.map Dim.text) ++ ">"

end TensorType

/-- A list of sizes in messages. -/
def listText (sizes : List Nat) : String :=
  "[" ++ ", ".intercalate (sizes.map toString) ++ "]"

end Relayout
