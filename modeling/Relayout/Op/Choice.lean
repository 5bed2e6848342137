import Relayout.Named

/-!
# Families of operations

The members of each operation family and the modes of padding, in the order in which they are listed to users.
-/

namespace Relayout

/-- Elementwise operations with one operand. -/
inductive Unary where
  | relu | relu6 | log | identity | sigmoid | sigmoidHard | tanh | exp | exp2 | abs | sqrt | rsqrt | square | sign
  | floor | ceil | round | erf | gelu | softplus | softsign | sin | cos | tan | sinh | cosh | asin | acos | atan | atanh
  | logicalNot
  deriving DecidableEq

namespace Unary

def name : Unary → String
  | relu => "relu"
  | relu6 => "relu6"
  | log => "log"
  | identity => "identity"
  | sigmoid => "sigmoid"
  | sigmoidHard => "sigmoid_hard"
  | tanh => "tanh"
  | exp => "exp"
  | exp2 => "exp2"
  | abs => "abs"
  | sqrt => "sqrt"
  | rsqrt => "rsqrt"
  | square => "square"
  | sign => "sign"
  | floor => "floor"
  | ceil => "ceil"
  | round => "round"
  | erf => "erf"
  | gelu => "gelu"
  | softplus => "softplus"
  | softsign => "softsign"
  | sin => "sin"
  | cos => "cos"
  | tan => "tan"
  | sinh => "sinh"
  | cosh => "cosh"
  | asin => "asin"
  | acos => "acos"
  | atan => "atan"
  | atanh => "atanh"
  | logicalNot => "logical_not"

def tag : Unary → String
  | relu => "Relu"
  | relu6 => "Relu6"
  | log => "Log"
  | identity => "Identity"
  | sigmoid => "Sigmoid"
  | sigmoidHard => "SigmoidHard"
  | tanh => "Tanh"
  | exp => "Exp"
  | exp2 => "Exp2"
  | abs => "Abs"
  | sqrt => "Sqrt"
  | rsqrt => "Rsqrt"
  | square => "Square"
  | sign => "Sign"
  | floor => "Floor"
  | ceil => "Ceil"
  | round => "Round"
  | erf => "Erf"
  | gelu => "Gelu"
  | softplus => "Softplus"
  | softsign => "Softsign"
  | sin => "Sin"
  | cos => "Cos"
  | tan => "Tan"
  | sinh => "Sinh"
  | cosh => "Cosh"
  | asin => "Asin"
  | acos => "Acos"
  | atan => "Atan"
  | atanh => "Atanh"
  | logicalNot => "LogicalNot"

instance : Named Unary where
  all := [relu, relu6, log, identity, sigmoid, sigmoidHard, tanh, exp, exp2, abs, sqrt, rsqrt, square, sign, floor,
    ceil, round, erf, gelu, softplus, softsign, sin, cos, tan, sinh, cosh, asin, acos, atan, atanh, logicalNot]
  name := name
  tag := tag

end Unary

/-- Elementwise operations with one operand and two parameters. -/
inductive Activation where
  | clip | threshold | clampedRelu | elu | leakyRelu | linearActivation | scaledTanh | softplusParametric
  | thresholdedRelu
  deriving DecidableEq

namespace Activation

def name : Activation → String
  | clip => "clip"
  | threshold => "threshold"
  | clampedRelu => "clamped_relu"
  | elu => "elu"
  | leakyRelu => "leaky_relu"
  | linearActivation => "linear_activation"
  | scaledTanh => "scaled_tanh"
  | softplusParametric => "softplus_parametric"
  | thresholdedRelu => "thresholded_relu"

def tag : Activation → String
  | clip => "Clip"
  | threshold => "Threshold"
  | clampedRelu => "ClampedRelu"
  | elu => "Elu"
  | leakyRelu => "LeakyRelu"
  | linearActivation => "LinearActivation"
  | scaledTanh => "ScaledTanh"
  | softplusParametric => "SoftplusParametric"
  | thresholdedRelu => "ThresholdedRelu"

instance : Named Activation where
  all := [clip, threshold, clampedRelu, elu, leakyRelu, linearActivation, scaledTanh, softplusParametric,
    thresholdedRelu]
  name := name
  tag := tag

end Activation

/-- Elementwise operations with two operands, broadcast against each other. -/
inductive Binary where
  | add | sub | mul | realDiv | maximum | minimum
  deriving DecidableEq

namespace Binary

def name : Binary → String
  | add => "add"
  | sub => "sub"
  | mul => "mul"
  | realDiv => "real_div"
  | maximum => "maximum"
  | minimum => "minimum"

def tag : Binary → String
  | add => "Add"
  | sub => "Sub"
  | mul => "Mul"
  | realDiv => "RealDiv"
  | maximum => "Maximum"
  | minimum => "Minimum"

instance : Named Binary where
  all := [add, sub, mul, realDiv, maximum, minimum]
  name := name
  tag := tag

end Binary

/-- What a reduction computes of each group of elements. -/
inductive Reduction where
  | mean | sum | max | min | prod | l1Norm | l2Norm | logSum | logSumExp | sumSquare
  deriving DecidableEq

namespace Reduction

def name : Reduction → String
  | mean => "reduce_mean"
  | sum => "reduce_sum"
  | max => "reduce_max"
  | min => "reduce_min"
  | prod => "reduce_prod"
  | l1Norm => "reduce_l1_norm"
  | l2Norm => "reduce_l2_norm"
  | logSum => "reduce_log_sum"
  | logSumExp => "reduce_log_sum_exp"
  | sumSquare => "reduce_sum_square"

def tag : Reduction → String
  | mean => "Mean"
  | sum => "Sum"
  | max => "Max"
  | min => "Min"
  | prod => "Prod"
  | l1Norm => "L1Norm"
  | l2Norm => "L2Norm"
  | logSum => "LogSum"
  | logSumExp => "LogSumExp"
  | sumSquare => "SumSquare"

instance : Named Reduction where
  all := [mean, sum, max, min, prod, l1Norm, l2Norm, logSum, logSumExp, sumSquare]
  name := name
  tag := tag

end Reduction

/-- What padding puts around a tensor. -/
inductive PadMode where
  | constant | reflect | replicate
  deriving DecidableEq

namespace PadMode

def name : PadMode → String
  | constant => "constant"
  | reflect => "reflect"
  | replicate => "replicate"

def tag : PadMode → String
  | constant => "Constant"
  | reflect => "Reflect"
  | replicate => "Replicate"

instance : Named PadMode where
  all := [constant, reflect, replicate]
  name := name
  tag := tag

end PadMode

/-- What pooling computes of each window. -/
inductive Pooling where
  | avg | max | l2
  deriving DecidableEq

namespace Pooling

def name : Pooling → String
  | avg => "avg_pool"
  | max => "max_pool"
  | l2 => "l2_pool"

def tag : Pooling → String
  | avg => "Avg"
  | max => "Max"
  | l2 => "L2"

instance : Named Pooling where
  all := [avg, max, l2]
  name := name
  tag := tag

end Pooling

end Relayout
