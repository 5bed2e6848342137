import Relayout.Number.Binary
import Relayout.Tensor.Type

/-!
# Tensor literals

A literal is a type with its payload: the elements in row-major order, each little-endian. `Literal.make` is the way to
build one; it insists on a static type and on a payload of exactly its size (`Literal.Sized`). Nothing stops a block
from holding a literal that was put together without it. `Literal.permuted` takes such a literal too and builds its
result without `make`: it reads as many elements as the type has, and bytes left over are lost.

`Literal.ofNumbers` stores numbers as elements and `Literal.numbers?` reads them back. Integers are truncated and
saturate, and the 16-bit float formats differ: `bf16` drops the low half of a 32-bit word, `f16` has no numeric view.
-/

namespace Relayout

open Number

structure Literal where
  type : TensorType
  bytes : List UInt8
  deriving DecidableEq

namespace Literal

inductive Error where
  | dynamicShape (type : TensorType)
  | elementCount (type : TensorType) (expected found : Nat)
  | byteLength (type : TensorType) (expected found : Nat)
  | unsupportedElem (elem : ElemType)
  | invalidPermutation (perm : List Nat) (rank : Nat)
  | crash (crash : Crash)
  deriving DecidableEq

def Error.message : Error → String
  | dynamicShape type => s!"literal requires a static shape, got {type.text}"
  | elementCount type expected found => s!"literal of type {type.text} expects {expected} elements, got {found}"
  | byteLength type expected found => s!"literal of type {type.text} expects {expected} bytes, got {found}"
  | unsupportedElem elem => s!"dtype {elem.tag} has no numeric conversion"
  | invalidPermutation perm rank => s!"permutation {listText perm} is invalid for rank {rank}"
  | crash c => c.message

/-- The payload has the size of the type. -/
def Sized (l : Literal) : Prop :=
  l.type.byteCount? = some l.bytes.length

/-! ## Elements as bytes -/

def littleEndian (width n : Nat) : List UInt8 :=
  (List.range width).map fun i => UInt8.ofNat (n / Nat.pow 256 i)

def ofLittleEndian (bytes : List UInt8) : Nat :=
  bytes.foldr (fun b n => b.toNat + 256 * n) 0

/-- An integer in two's complement. -/
def ofSigned (width : Nat) (n : Int) : List UInt8 :=
  littleEndian width (n % (Nat.pow 256 width : Nat)).toNat

def toSigned (bytes : List UInt8) : Int :=
  let n := ofLittleEndian bytes
  if 2 * n < Nat.pow 256 bytes.length then n else n - (Nat.pow 256 bytes.length : Nat)

/-- A number truncated to a signed integer of the given width. -/
def ofTruncated (width : Nat) (x : Binary64) : List UInt8 :=
  let bound : Int := (Nat.pow 256 width / 2 : Nat)
  ofSigned width (x.truncate (-bound) (bound - 1))

/-- The element of a number. -/
def encode? (elem : ElemType) (x : Binary64) : Option (List UInt8) :=
  match elem with
  | .i1 => some [if x.magnitude = 0 then 0 else 1]
  | .si8 => some (ofTruncated 1 x)
  | .ui8 => some (littleEndian 1 (x.truncate 0 255).toNat)
  | .si16 => some (ofTruncated 2 x)
  | .si32 => some (ofTruncated 4 x)
  | .si64 => some (ofTruncated 8 x)
  | .f16 => none
  | .bf16 => some (littleEndian 2 (x.toSingle.toNat / Nat.pow 2 16))
  | .f32 => some (littleEndian 4 x.toSingle.toNat)
  | .f64 => some (littleEndian 8 x.bits.toNat)

/-- The number of an element. -/
def decode? (elem : ElemType) (bytes : List UInt8) : Option Binary64 :=
  match elem with
  | .i1 => some (Binary64.ofInt (if ofLittleEndian bytes = 0 then 0 else 1))
  | .ui8 => some (Binary64.ofInt (ofLittleEndian bytes))
  | .si8 | .si16 | .si32 | .si64 => some (Binary64.ofInt (toSigned bytes))
  | .f16 => none
  | .bf16 => some (Binary64.ofSingle (UInt32.ofNat (ofLittleEndian bytes * Nat.pow 2 16)))
  | .f32 => some (Binary64.ofSingle (UInt32.ofNat (ofLittleEndian bytes)))
  | .f64 => some ⟨UInt64.ofNat (ofLittleEndian bytes)⟩

/-- The first `n` pieces of `width` bytes. -/
def pieces (width : Nat) : Nat → List UInt8 → List (List UInt8)
  | 0, _ => []
  | n + 1, bytes => bytes.take width :: pieces width n (bytes.drop width)

/-- The elements of the payload. -/
def elements (l : Literal) : List (List UInt8) :=
  pieces l.type.elem.width (l.bytes.length / l.type.elem.width) l.bytes

/-! ## Literals -/

def make (type : TensorType) (bytes : List UInt8) : Except Error Literal :=
  match type.byteCount? with
  | none => .error (.dynamicShape type)
  | some expected =>
    if expected = bytes.length then .ok ⟨type, bytes⟩ else .error (.byteLength type expected bytes.length)

/-- A literal given by one piece of bytes per element. -/
def ofElements (type : TensorType) (found : Nat) (bytes : Except Error (List UInt8)) : Except Error Literal :=
  match type.elementCount? with
  | none => .error (.dynamicShape type)
  | some expected => if expected = found then bytes >>= make type else .error (.elementCount type expected found)

def ofNumbers (type : TensorType) (numbers : List Binary64) : Except Error Literal :=
  ofElements type numbers.length <|
    match numbers.mapM (encode? type.elem) with
    | some elements => .ok elements.flatten
    | none => .error (.unsupportedElem type.elem)

/-- A literal of 32-bit floats, given as words. -/
def ofSingles (dims : List Nat) (words : List UInt32) : Except Error Literal :=
  ofElements (.ofExtents .f32 dims) words.length (.ok (words.flatMap fun w => littleEndian 4 w.toNat))

/-- A literal of 32-bit integers. -/
def ofInts (dims : List Nat) (numbers : List Int) : Except Error Literal :=
  ofElements (.ofExtents .si32 dims) numbers.length (.ok (numbers.flatMap (ofSigned 4)))

def scalar (word : UInt32) : Literal :=
  ⟨.ofExtents .f32 [], littleEndian 4 word.toNat⟩

/-- The elements as numbers, if the element type has a numeric view. -/
def numbers? (l : Literal) : Option (List Binary64) :=
  l.elements.mapM (decode? l.type.elem)

/-- The literal with its axes rearranged: axis `i` of the result is axis `perm[i]`. -/
def permuted (l : Literal) (perm : List Nat) : Except Error Literal :=
  match l.type.extents? with
  | none => .error (.dynamicShape l.type)
  | some dims =>
    if perm.length = dims.length ∧ Perm.isPermutation perm then
      let outDims := Perm.selectD dims perm 0
      match RowMajor.volume? dims, RowMajor.size? outDims with
      | some _, some count =>
        -- Every element is read once, so one of them is missing if there are too few.
        if count * l.type.elem.width ≤ l.bytes.length then
          let elements := l.elements.toArray
          let bytes := (List.range count).flatMap fun i => elements.getD (RowMajor.source dims perm i) []
          .ok ⟨.ofExtents l.type.elem outDims, bytes⟩
        else .error (.crash .outOfBounds)
      | _, _ => .error (.crash .overflow)
    else .error (.invalidPermutation perm dims.length)

/-- The same payload with other extents. -/
def reshaped (l : Literal) (dims : List Nat) : Except Error Literal :=
  make (.ofExtents l.type.elem dims) l.bytes

end Literal

end Relayout
