import Relayout.Editor
import Relayout.Typing
import Relayout.WellFormed

/-!
# Passes

A pass takes a well-formed block to another. `PassResult` says what it did; the results of passes run one after another
add up. A pass that runs into a crash breaks off with it, whatever it would do about a rejection.
-/

namespace Relayout

structure PassResult where
  changed : Bool := false
  iterations : Nat := 0
  applied : Nat := 0
  erased : Nat := 0
  deriving DecidableEq

def PassResult.merge (a b : PassResult) : PassResult :=
  ⟨a.changed || b.changed, a.iterations + b.iterations, a.applied + b.applied, a.erased + b.erased⟩

/-- Why a changed block was not accepted. -/
inductive Rejection where
  | edit (error : EditError)
  | malformed (error : Malformed)
  | shape (error : ShapeError)
  | outputType (slot : Nat) (before after : Option TensorType)
  | unexpectedKind (kind : String)
  deriving DecidableEq

def Rejection.crash? : Rejection → Option Crash
  | edit error => error.crash?
  | shape error => error.crash?
  | _ => none

inductive PassError where
  | malformed (error : Malformed)
  | rejected (seeds : List OpId) (rejection : Rejection)
  | crash (crash : Crash)
  deriving DecidableEq

def PassError.message : PassError → String
  | malformed error => s!"malformed block: {error.message}"
  | rejected seeds rejection =>
    let seeds := "[" ++ ", ".intercalate (seeds.map fun op => s!"OpId({op.index})") ++ "]"
    let typeText := fun (type : Option TensorType) => (type.map (·.text)).getD "<missing>"
    match rejection with
    | .edit error => s!"rewrite of seeds {seeds} failed: {error.message}"
    | .malformed error => s!"rewrite of seeds {seeds} left a malformed block: {error.message}"
    | .shape error => s!"shape inference failed after rewriting seeds {seeds}: {error.message}"
    | .outputType slot before after =>
      s!"rewrite of seeds {seeds} changed output {slot} from {typeText before} to {typeText after}"
    | .unexpectedKind kind => s!"rewrite of seeds {seeds} introduced op kind `{kind}`"
  | crash c => c.message

end Relayout
