import Relayout.Named
import Relayout.Text.Blank

/-!
# Element types

The scalar types that tensors are made of. `ElemType.read?` also knows the usual aliases and ignores case and blanks
around the name.
-/

namespace Relayout

inductive ElemType where
  | i1 | si8 | ui8 | si16 | si32 | si64 | f16 | bf16 | f32 | f64
  deriving DecidableEq

namespace ElemType

def name : ElemType → String
  | i1 => "i1"
  | si8 => "si8"
  | ui8 => "ui8"
  | si16 => "si16"
  | si32 => "si32"
  | si64 => "si64"
  | f16 => "f16"
  | bf16 => "bf16"
  | f32 => "f32"
  | f64 => "f64"

def tag : ElemType → String
  | i1 => "I1"
  | si8 => "Si8"
  | ui8 => "Ui8"
  | si16 => "Si16"
  | si32 => "Si32"
  | si64 => "Si64"
  | f16 => "F16"
  | bf16 => "Bf16"
  | f32 => "F32"
  | f64 => "F64"

instance : Named ElemType where
  all := [i1, si8, ui8, si16, si32, si64, f16, bf16, f32, f64]
  name := name
  tag := tag

/-- Bytes per element. -/
def width : ElemType → Nat
  | i1 | si8 | ui8 => 1
  | si16 | f16 | bf16 => 2
  | si32 | f32 => 4
  | si64 | f64 => 8

def isFloat : ElemType → Bool
  | f16 | bf16 | f32 | f64 => true
  | _ => false

/-- The type that a second name stands for. -/
def ofAlias? (s : String) : Option ElemType :=
  [("bool", i1), ("i8", si8), ("u8", ui8), ("i16", si16), ("i32", si32), ("i64", si64), ("fp16", f16), ("fp32", f32),
    ("fp64", f64)].lookup s

def read? (s : List Char) : Option ElemType :=
  let s := String.ofList ((Text.trim s).map Char.toLower)
  (Named.ofName? s).or (ofAlias? s)

end ElemType

end Relayout
