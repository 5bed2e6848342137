import Relayout.Op.Kind

/-!
# Scalar kernels

`Kernels` lists what the operations compute of single elements. Evaluation takes it as a parameter and relies on nothing
but that the identity does nothing.

`Scalar.kernels` are those of 32-bit floats: reductions accumulate in 64 bits and round at the end, pooling accumulates
in 32 bits, and a maximum or minimum with a NaN is the other operand. Functions of analysis are computed in 64 bits and
rounded; `expMinusOne` and `logOnePlus` correct for the digits that their arguments lose next to one. The error function
is left open.
-/

namespace Relayout

open Number

/-- What operations compute of elements of one type. -/
class Kernels (α : Type) where
  ofBinary : Binary64 → α
  unary : Unary → α → α
  activation : Activate → α → α
  binary : Binary → α → α → α
  /-- A group of elements reduced; all groups have the given size. -/
  reduction : Reduction → Nat → List α → α
  /-- A window of elements pooled. -/
  pooling : Pooling → List α → α
  unary_identity : ∀ a, unary .identity a = a

namespace Scalar

def maxNum (a b : Float32) : Float32 :=
  if a.isNaN then b else if b.isNaN then a else if a < b then b else a

def minNum (a b : Float32) : Float32 :=
  if a.isNaN then b else if b.isNaN then a else if b < a then b else a

/-- Bounds a number from both sides; a NaN stays. -/
def clamp (low high x : Float32) : Float32 :=
  if x < low then low else if high < x then high else x

def ofBinary (x : Binary64) : Float32 :=
  Float32.ofBits x.toSingle

/-- A function of 64-bit floats, rounded. -/
def rounded (f : Float → Float) (x : Float32) : Float32 :=
  (f x.toFloat).toFloat32

/-! ## Functions of analysis -/

def expMinusOne (x : Float) : Float :=
  let y := x.exp
  if y == 1.0 then x else if y - 1.0 == -1.0 then -1.0 else (y - 1.0) * (x / y.log)

def logOnePlus (x : Float) : Float :=
  let y := 1.0 + x
  if y == 1.0 then x else if y.isInf then y else y.log * (x / (y - 1.0))

/-! ## Elementwise kernels -/

def unary (erf : Float32 → Float32) : Unary → Float32 → Float32
  | .relu, x => maxNum x 0.0
  | .relu6, x => clamp 0.0 6.0 x
  | .log, x => rounded Float.log x
  | .identity, x => x
  | .sigmoid, x => 1.0 / (1.0 + rounded Float.exp (-x))
  | .sigmoidHard, x => clamp 0.0 1.0 (0.2 * x + 0.5)
  | .tanh, x => rounded Float.tanh x
  | .exp, x => rounded Float.exp x
  | .exp2, x => rounded Float.exp2 x
  | .abs, x => x.abs
  | .sqrt, x => x.sqrt
  | .rsqrt, x => 1.0 / x.sqrt
  | .square, x => x * x
  | .sign, x => if 0.0 < x then 1.0 else if x < 0.0 then -1.0 else 0.0
  | .floor, x => x.floor
  | .ceil, x => x.ceil
  | .round, x => x.round
  | .erf, x => erf x
  | .gelu, x => 0.5 * x * (1.0 + erf (x / Float32.ofBits 0x3fb504f3))
  | .softplus, x => rounded logOnePlus (rounded Float.exp x)
  | .softsign, x => x / (1.0 + x.abs)
  | .sin, x => rounded Float.sin x
  | .cos, x => rounded Float.cos x
  | .tan, x => rounded Float.tan x
  | .sinh, x => rounded Float.sinh x
  | .cosh, x => rounded Float.cosh x
  | .asin, x => rounded Float.asin x
  | .acos, x => rounded Float.acos x
  | .atan, x => rounded Float.atan x
  | .atanh, x => rounded Float.atanh x
  | .logicalNot, x => if x == 0.0 then 1.0 else 0.0

def activation (spec : Activate) (x : Float32) : Float32 :=
  let alpha := ofBinary spec.alpha
  let beta := ofBinary spec.beta
  match spec.function with
  | .clip => minNum (maxNum x alpha) beta
  | .threshold => maxNum x alpha
  | .clampedRelu => minNum (if 0.0 ≤ x then x else alpha * x) beta
  | .elu => if 0.0 < x then x else alpha * rounded expMinusOne x
  | .leakyRelu => if 0.0 ≤ x then x else alpha * x
  | .linearActivation => alpha * x + beta
  | .scaledTanh => alpha * rounded Float.tanh (beta * x)
  | .softplusParametric => alpha * rounded logOnePlus (rounded Float.exp (beta * x))
  | .thresholdedRelu => if alpha ≤ x then x else 0.0

def binary : Binary → Float32 → Float32 → Float32
  | .add, a, b => a + b
  | .sub, a, b => a - b
  | .mul, a, b => a * b
  | .realDiv, a, b => a / b
  | .maximum, a, b => maxNum a b
  | .minimum, a, b => minNum a b

/-! ## Reductions -/

def maxDouble (a b : Float) : Float :=
  if a.isNaN then b else if b.isNaN then a else if a < b then b else a

def minDouble (a b : Float) : Float :=
  if a.isNaN then b else if b.isNaN then a else if b < a then b else a

/-- What an accumulation starts from. -/
def reductionStart : Reduction → Float
  | .max => -1.0 / 0.0
  | .min => 1.0 / 0.0
  | .prod => 1.0
  | _ => 0.0

def reductionStep : Reduction → Float → Float → Float
  | .mean, acc, x | .sum, acc, x | .logSum, acc, x => acc + x
  | .max, acc, x => maxDouble acc x
  | .min, acc, x => minDouble acc x
  | .prod, acc, x => acc * x
  | .l1Norm, acc, x => acc + x.abs
  | .l2Norm, acc, x | .sumSquare, acc, x => acc + x * x
  | .logSumExp, acc, x => acc + x.exp

/-- The result of an accumulation over groups of one size. -/
def reductionEnd (size : Nat) : Reduction → Float → Float
  | .mean, acc => acc / Float.ofNat size
  | .l2Norm, acc => acc.sqrt
  | .logSum, acc | .logSumExp, acc => acc.log
  | _, acc => acc

def reduction (kind : Reduction) (size : Nat) (group : List Float32) : Float32 :=
  let acc := group.foldl (fun acc x => reductionStep kind acc x.toFloat) (reductionStart kind)
  (reductionEnd size kind acc).toFloat32

def pooling (kind : Pooling) (window : List Float32) : Float32 :=
  match kind with
  | .avg => window.foldl (· + ·) 0.0 / Float32.ofNat window.length
  | .max => window.foldl maxNum (-1.0 / 0.0)
  | .l2 => (window.foldl (fun acc x => acc + x * x) 0.0).sqrt

/-- The kernels of 32-bit floats. -/
abbrev kernels (erf : Float32 → Float32) : Kernels Float32 where
  ofBinary := ofBinary
  unary := unary erf
  activation := activation
  binary := binary
  reduction := reduction
  pooling := pooling
  unary_identity _ := rfl

end Scalar

end Relayout
