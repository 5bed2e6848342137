import Relayout.Eval.Error
import Relayout.Typing

/-!
# Tensors

A tensor is a list of extents with its elements in row-major order. The operations here move elements around and do
not look at them, so they work on elements of any type:

- `transpose`, `concat` and `pad` build a tensor out of the elements of others;
- `zipBroadcast` meets two tensors element by element;
- `groups` and `windows` collect the elements that one element of a reduction or a pooling is computed from, in the
  order in which they are stored.

Attributes may be wrong in any way, so the operations check what they rely on. They also check, before they start, that
the strides they go by and the result they announce fit: an element takes four bytes, an accumulator of a reduction
eight.
-/

namespace Relayout

abbrev Eval := Except EvalError

/-- A size that an operation goes by. -/
def Eval.size (n : Option Nat) : Eval Nat :=
  match n with
  | some n => .ok n
  | none => .error (.crash .overflow)

structure Tensor (α : Type) where
  dims : List Nat
  data : Array α
  counted : RowMajor.size? dims = some data.size

namespace Tensor

variable {α β γ : Type}

def make (dims : List Nat) (data : Array α) : Eval (Tensor α) :=
  if h : RowMajor.size? dims = some data.size then .ok ⟨dims, data, h⟩
  else
    match RowMajor.size? dims with
    | none => .error (.crash .overflow)
    | some _ => .error (.elementCount dims data.size)

def scalar (a : α) : Tensor α :=
  ⟨[], #[a], rfl⟩

def rank (x : Tensor α) : Nat :=
  x.dims.length

def map (f : α → β) (x : Tensor α) : Tensor β :=
  ⟨x.dims, x.data.map f, by rw [Array.size_map, x.counted]⟩

/-- The element at a position. -/
def get (x : Tensor α) (i : Nat) : Eval α :=
  match x.data[i]? with
  | some a => .ok a
  | none => .error (.crash .outOfBounds)

/-- A tensor given by its elements at every position. -/
def tabulate (dims : List Nat) (count : Nat) (f : Nat → Eval α) : Eval (Tensor α) := do
  make dims (← (List.range count).mapM f).toArray

/-- The strides of extents that an operation goes by fit. -/
def checkStrides (dims : List Nat) : Eval Unit :=
  if RowMajor.stridesFit dims then .ok () else .error (.crash .overflow)

/-- The number of elements of given extents, with room for a buffer that has `width` bytes for each. -/
def reserve (width : Nat) (dims : List Nat) : Eval Nat := do
  let count ← Eval.size (RowMajor.size? dims)
  if Word.isAddressable (count * width) then return count else .error (.crash .capacity)

/-! ## Movement -/

/-- Output axis `i` is input axis `perm[i]`. -/
def transpose (x : Tensor α) (perm : List Nat) : Eval (Tensor α) :=
  if perm.length ≠ x.rank then .error .permRank
  else
    match Perm.select? x.dims perm with
    | none => .error (.crash .outOfBounds)
    | some dims => do
      checkStrides x.dims
      tabulate dims x.data.size fun i => x.get (RowMajor.source x.dims perm i)

/-- The `block`-th piece of a tensor cut along the axes in front of `axis`. -/
def slab (x : Tensor α) (axis block : Nat) : Eval (List α) := do
  let chunk ← Eval.size (RowMajor.size? (x.dims.drop axis))
  if (block + 1) * chunk ≤ x.data.size then
    return (x.data.extract (block * chunk) ((block + 1) * chunk)).toList
  else .error (.crash .outOfBounds)

/-- The extents along an axis, added to `total`. All tensors must have the given rank. -/
def concatExtent (rank axis : Nat) : Nat → List (Tensor α) → Eval Nat
  | total, [] => .ok total
  | total, x :: xs =>
    if x.rank ≠ rank then .error .concatRank
    else do concatExtent rank axis (← Eval.size (Word.add? total (x.dims.getD axis 0))) xs

/-- Tensors one after another along an axis. -/
def concat (xs : List (Tensor α)) (axis : Nat) : Eval (Tensor α) :=
  match xs with
  | [] => .error .concatEmpty
  | first :: _ =>
    if first.rank ≤ axis then .error .concatAxis
    else do
      let blocks ← Eval.size (RowMajor.size? (first.dims.take axis))
      let dims := first.dims.set axis (← concatExtent first.rank axis 0 xs)
      let _ ← reserve 4 dims
      let slabs ← (List.range blocks).mapM fun block => xs.mapM (·.slab axis block)
      make dims slabs.flatten.flatten.toArray

/-- Which coordinate of an axis a padded coordinate shows, `none` if it shows the fill value. -/
def padSource (mode : PadMode) (extent before c : Nat) : Option Nat :=
  if c < before then
    match mode with
    | .constant => none
    | .reflect => some (before - c)
    | .replicate => some 0
  else if c - before < extent then some (c - before)
  else
    match mode with
    | .constant => none
    | .reflect => some (2 * (extent - 1) - (c - before))
    | .replicate => some (extent - 1)

/-- The extent of a padded axis. A reflection needs more elements than it shows. -/
def padExtent (mode : PadMode) : Nat × Nat × Nat → Eval Nat
  | (extent, before, after) => do
    let padded ← Eval.size ((Word.add? before after).bind (Word.add? extent))
    if mode = .reflect ∧ (extent ≤ before ∨ extent ≤ after) then .error .reflectTooWide else return padded

/-- The tensor with `spec.rows` of elements before and after each axis. -/
def pad (x : Tensor α) (spec : Pad) (fill : α) : Eval (Tensor α) :=
  let lead := x.rank - spec.amounts.length / 2
  let rows := x.dims.zip (spec.rows x.rank)
  if spec.amounts.length % 2 ≠ 0 ∨ x.rank < spec.amounts.length / 2 then .error .padRank
  else do
    let dims := x.dims.take lead ++ (← (rows.drop lead).mapM (padExtent spec.mode))
    checkStrides x.dims
    tabulate dims (← reserve 4 dims) fun i =>
      let sources := (rows.zip (RowMajor.coords dims i)).mapM fun ((extent, before, _), c) =>
        padSource spec.mode extent before c
      match sources with
      | some coords => x.get (RowMajor.offset coords (RowMajor.strides x.dims))
      | none => .ok fill

/-! ## Broadcasting -/

/-- Two extents met by broadcasting. -/
def joinExtent? (a b : Nat) : Option Nat :=
  if a = b then some a else if a = 1 then some b else if b = 1 then some a else none

/-- Extents with ones in front up to a rank. -/
def align (rank : Nat) (dims : List Nat) : List Nat :=
  List.replicate (rank - dims.length) 1 ++ dims

/-- The position that coordinates of a broadcast result show; an extent of one is repeated. -/
def broadcastSource (dims coords : List Nat) : Nat :=
  RowMajor.offset (List.zipWith (fun d c => if d = 1 then 0 else c) dims coords) (RowMajor.strides dims)

def zipBroadcast (f : α → β → γ) (x : Tensor α) (y : Tensor β) : Eval (Tensor γ) :=
  let rank := max x.rank y.rank
  let xDims := align rank x.dims
  let yDims := align rank y.dims
  match (xDims.zip yDims).mapM fun (a, b) => joinExtent? a b with
  | none => .error (.broadcast x.dims y.dims)
  | some dims => do
    checkStrides xDims
    checkStrides yDims
    tabulate dims (← reserve 4 dims) fun i => do
      let coords := RowMajor.coords dims i
      return f (← x.get (broadcastSource xDims coords)) (← y.get (broadcastSource yDims coords))

/-! ## Groups and windows -/

/-- The extents with those of reduced axes replaced by one. -/
def keptDims (dims : List Nat) (reduces : Nat → Bool) : List Nat :=
  dims.zipIdx.map fun (d, axis) => if reduces axis then 1 else d

/-- The position of the group that the element at position `i` belongs to. -/
def groupOf (dims : List Nat) (reduces : Nat → Bool) (i : Nat) : Nat :=
  RowMajor.offset ((RowMajor.coords dims i).zipIdx.map fun (c, axis) => if reduces axis then 0 else c)
    (RowMajor.strides (keptDims dims reduces))

/-- The elements that agree on all axes that are not reduced, one list for each position of the result. -/
def groups (x : Tensor α) (reduces : Nat → Bool) : List (List α) :=
  let members := x.data.toList.zipIdx.map fun (a, i) => (groupOf x.dims reduces i, a)
  (List.range (RowMajor.size (keptDims x.dims reduces))).map fun j =>
    members.filterMap fun (group, a) => if group = j then some a else none

/-- Reduces every group by `f`. -/
def reduce (f : List α → β) (x : Tensor α) (spec : Reduce) : Eval (Tensor β) :=
  if spec.axes.any (x.rank ≤ ·) then .error .reduceAxis
  else do
    let kept := keptDims x.dims spec.reduces
    checkStrides kept
    let _ ← reserve 8 kept
    let dims :=
      if spec.keepDims then kept
      else x.dims.zipIdx.filterMap fun (d, axis) => if spec.reduces axis then none else some d
    make dims ((x.groups spec.reduces).map f).toArray

/-- The extents after pooling. -/
def pooledDims (dims : List Nat) (spec : Pool) : List Nat :=
  (dims.zip (spec.windows dims.length)).map fun (extent, window) =>
    match window with
    | none => extent
    | some (kernel, stride) => (extent - kernel) / stride + 1

/-- The elements of the window that the position `i` of the result shows. -/
def window (x : Tensor α) (spec : Pool) (i : Nat) : Eval (List α) :=
  let lead := x.rank - spec.kernel.length
  let steps := List.replicate lead 1 ++ spec.strides
  let start := List.zipWith (· * ·) (RowMajor.coords (pooledDims x.dims spec) i) steps
  let strides := RowMajor.strides x.dims
  (List.range (RowMajor.size spec.kernel)).mapM fun w =>
    let within := List.replicate lead 0 ++ RowMajor.coords spec.kernel w
    x.get (RowMajor.offset start strides + RowMajor.offset within strides)

/-- Pools every window by `f`. -/
def pool (f : List α → β) (x : Tensor α) (spec : Pool) : Eval (Tensor β) :=
  let window := spec.kernel.length
  let misfit := fun (extent, kernel, stride) => kernel == 0 || stride == 0 || decide (extent < kernel)
  if window = 0 ∨ x.rank < window ∨ spec.strides.length ≠ window then .error .poolRank
  else if ((x.dims.drop (x.rank - window)).zip (spec.kernel.zip spec.strides)).any misfit then .error .poolKernel
  else do
    let dims := pooledDims x.dims spec
    checkStrides x.dims
    let _ ← Eval.size (RowMajor.size? spec.kernel)
    tabulate dims (← reserve 4 dims) fun i => return f (← x.window spec i)

end Tensor

end Relayout
