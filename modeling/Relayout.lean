import Relayout.Block.Basic
import Relayout.Block.Json
import Relayout.Block.Printer
import Relayout.Block.Reader
import Relayout.Builder
import Relayout.DeadCode
import Relayout.Editor
import Relayout.Eval.Error
import Relayout.Eval.Run
import Relayout.Eval.Scalar
import Relayout.Eval.Tensor
import Relayout.Fresh
import Relayout.Json.Basic
import Relayout.Json.Decode
import Relayout.Json.Number
import Relayout.Json.Printer
import Relayout.Json.Reader
import Relayout.Layout.Absorb
import Relayout.Layout.Component
import Relayout.Layout.Reduction
import Relayout.Layout.Splice
import Relayout.Layout.Sweep
import Relayout.Named
import Relayout.Number.Binary
import Relayout.Number.Numeral
import Relayout.Number.Shortest
import Relayout.Op.Choice
import Relayout.Op.Kind
import Relayout.Pass
import Relayout.Perm
import Relayout.Proofs.Absorption
import Relayout.Proofs.Action
import Relayout.Proofs.Algebra
import Relayout.Proofs.Attributes
import Relayout.Proofs.BlockDocuments
import Relayout.Proofs.BlockText
import Relayout.Proofs.Broadcasting
import Relayout.Proofs.Check
import Relayout.Proofs.Coherence
import Relayout.Proofs.Commuting
import Relayout.Proofs.Components
import Relayout.Proofs.Concatenating
import Relayout.Proofs.Connectivity
import Relayout.Proofs.Construction
import Relayout.Proofs.Coordinates
import Relayout.Proofs.Cost
import Relayout.Proofs.Counting
import Relayout.Proofs.Cutting
import Relayout.Proofs.Demand
import Relayout.Proofs.Detaching
import Relayout.Proofs.DisjointSets
import Relayout.Proofs.Documents
import Relayout.Proofs.Edits
import Relayout.Proofs.Effect
import Relayout.Proofs.Evaluation
import Relayout.Proofs.Facing
import Relayout.Proofs.Frame
import Relayout.Proofs.Grouping
import Relayout.Proofs.Index
import Relayout.Proofs.Insertion
import Relayout.Proofs.Integers
import Relayout.Proofs.Interpretation
import Relayout.Proofs.KindText
import Relayout.Proofs.Liveness
import Relayout.Proofs.Names
import Relayout.Proofs.Numerals
import Relayout.Proofs.Operands
import Relayout.Proofs.Padding
import Relayout.Proofs.Payloads
import Relayout.Proofs.Permutation
import Relayout.Proofs.Preservation
import Relayout.Proofs.Progress
import Relayout.Proofs.Rebuilding
import Relayout.Proofs.Recovery
import Relayout.Proofs.Reducing
import Relayout.Proofs.Refusals
import Relayout.Proofs.Region
import Relayout.Proofs.Replacement
import Relayout.Proofs.Resolution
import Relayout.Proofs.Results
import Relayout.Proofs.Retyping
import Relayout.Proofs.Rounding
import Relayout.Proofs.Rounds
import Relayout.Proofs.Rules
import Relayout.Proofs.Runs
import Relayout.Proofs.Separation
import Relayout.Proofs.Sessions
import Relayout.Proofs.Splicing
import Relayout.Proofs.Statements
import Relayout.Proofs.Structure
import Relayout.Proofs.Sweeping
import Relayout.Proofs.Tensors
import Relayout.Proofs.Tracking
import Relayout.Proofs.Transposition
import Relayout.Proofs.TypeText
import Relayout.Proofs.Types
import Relayout.RowMajor
import Relayout.Table
import Relayout.Tensor.ElemType
import Relayout.Tensor.Literal
import Relayout.Tensor.Type
import Relayout.Text.Blank
import Relayout.Text.Split
import Relayout.Typing
import Relayout.UnionFind
import Relayout.UseIndex
import Relayout.WellFormed
import Relayout.Word
