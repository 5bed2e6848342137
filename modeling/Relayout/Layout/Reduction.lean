import Relayout.Layout.Splice
import Relayout.Number.Numeral
import Relayout.Pass

/-!
# Transpose reduction

`reduceTransposes` takes away transposes that cancel out across operations that do not care about layout. It works in
rounds: a sweep finds the components that are worth while, and each of them is taken out of the block in turn. The
outcome must be well formed, have types, return values of the declared types, and hold no kind of operation that was
not there before; otherwise it is dropped, and the pass fails or goes on without its seeds, as `OnRejection` says. The
pass ends when no component is worth while, or after a number of rounds. A crash anywhere ends it at once.
-/

namespace Relayout.Layout

open Typing (Inference)

variable [IdSpace]

/-- What becomes of the pass when a changed block is rejected. -/
inductive OnRejection where
  /-- It fails. -/
  | fail
  /-- It goes on and leaves the seeds of the component alone. -/
  | skip
  deriving DecidableEq

structure Config where
  maxRounds : Nat := 64
  onRejection : OnRejection := .fail
  deriving DecidableEq

/-- The number of rounds that a text sets: a positive size. -/
def readRounds? (text : String) : Option Nat :=
  (Number.readSize? (Text.trim text.toList)).filter (0 < ·)

/-- What a changed block has to agree with. -/
structure Expectation where
  outputTypes : List (Option TensorType)
  kinds : List String

def Expectation.ofBlock (b : Block) : Expectation :=
  ⟨b.outputTypes, b.operations.map (·.kind.name) ++ ["transpose", "identity", "const"]⟩

/-- The first output slot with another type than expected. -/
def Expectation.checkOutputs (expected : Expectation) (b : Block) : Except Rejection Unit :=
  match (expected.outputTypes.zip b.outputTypes).zipIdx.find? fun ((before, after), _) => before != after with
  | some ((before, after), slot) => .error (.outputType slot before after)
  | none => .ok ()

def Expectation.checkKinds (expected : Expectation) (b : Block) : Except Rejection Unit :=
  match b.operations.find? (!expected.kinds.contains ·.kind.name) with
  | some op => .error (.unexpectedKind op.kind.name)
  | none => .ok ()

/-- The block without one component, if it is accepted, and the number of operations removed. -/
def attempt (infer : Inference) (expected : Expectation) (a : Analysis) (c : Component) (b : Block) :
    Except Rejection (Block × Nat) := do
  let (b, erased) ← (applyComponent b a c).mapError .edit
  b.check.mapError .malformed
  match b.retype infer with
  | (_, some e) => .error (.shape e)
  | (b, none) =>
    expected.checkOutputs b
    expected.checkKinds b
    return (b, erased)

/-- The pass under way. -/
structure Progress where
  block : Block
  excluded : Seeds := []
  result : PassResult := {}

def Progress.accept (p : Progress) (block : Block) (erased : Nat) : Progress :=
  { p with
    block := block
    result := { p.result with applied := p.result.applied + 1, erased := p.result.erased + erased } }

/-- Takes out components one after another, all of them found by the same sweep. -/
def applyAll (infer : Inference) (onRejection : OnRejection) (expected : Expectation) (a : Analysis) :
    List Component → Progress → Except PassError Progress
  | [], p => .ok p
  | c :: cs, p =>
    match attempt infer expected a c p.block with
    | .ok (block, erased) => applyAll infer onRejection expected a cs (p.accept block erased)
    | .error rejection =>
      match rejection.crash?, onRejection with
      | some crash, _ => .error (.crash crash)
      | none, .fail => .error (.rejected c.seeds rejection)
      | none, .skip => applyAll infer onRejection expected a cs { p with excluded := Seeds.union c.seeds p.excluded }

/-- At most the given number of rounds. -/
def rounds (infer : Inference) (onRejection : OnRejection) (expected : Expectation) :
    Nat → Progress → Except PassError Progress
  | 0, p => .ok p
  | n + 1, p =>
    let p := { p with result := { p.result with iterations := p.result.iterations + 1 } }
    match analyse p.block p.excluded with
    | .error crash => .error (.crash crash)
    | .ok a =>
      match accepted a with
      | [] => .ok p
      | cs => do rounds infer onRejection expected n (← applyAll infer onRejection expected a cs p)

/-- Takes away transposes that cancel out. A block in which nothing was done comes back as it was. -/
def reduceTransposes (config : Config) (infer : Inference) (b : Block) : Except PassError (PassResult × Block) :=
  match b.check with
  | .error e => .error (.malformed e)
  | .ok () => do
    let p ← rounds infer config.onRejection (.ofBlock b) config.maxRounds { block := b }
    let changed := decide (0 < p.result.applied)
    return ({ p.result with changed := changed }, if changed then p.block else b)

end Relayout.Layout
