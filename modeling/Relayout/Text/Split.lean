import Relayout.Text.Blank

/-!
# Cutting text into pieces

Texts are lists of characters here. A cut never keeps the separator: `cut?` and `cutAt?` split at the first occurrence,
`splitOn` at every one, `splitTop` at every one that stands outside brackets, and `enclosed?` at the bracket that
closes an opened one.
-/

namespace Relayout.Text

/-- What follows `lead` at the start of the text. -/
def dropStart? : List Char → List Char → Option (List Char)
  | [], s => some s
  | _ :: _, [] => none
  | c :: lead, d :: s => if c = d then dropStart? lead s else none

/-- What stands before `c` at the end of the text. -/
def dropLast? (c : Char) (s : List Char) : Option (List Char) :=
  match s.reverse with
  | [] => none
  | d :: rest => if c = d then some rest.reverse else none

/-- The texts before and after the first `c`. -/
def cut? (c : Char) : List Char → Option (List Char × List Char)
  | [] => none
  | d :: s => if d = c then some ([], s) else (cut? c s).map fun (a, b) => (d :: a, b)

/-- The texts before and after the first occurrence of `sep`. -/
def cutAt? (sep : List Char) : List Char → Option (List Char × List Char)
  | [] => (dropStart? sep []).map ([], ·)
  | d :: s =>
    match dropStart? sep (d :: s) with
    | some rest => some ([], rest)
    | none => (cutAt? sep s).map fun (a, b) => (d :: a, b)

/-- The pieces between all occurrences of `c`; there is always at least one. -/
def splitOn (c : Char) : List Char → List (List Char)
  | [] => [[]]
  | d :: s =>
    match splitOn c s with
    | [] => [[d]]
    | piece :: rest => if d = c then [] :: piece :: rest else (d :: piece) :: rest

/-- The pieces between the `c` that stand outside all brackets. An unopened closing bracket is passed over. -/
def splitBracketed (c : Char) : Nat → List Char → List (List Char)
  | _, [] => [[]]
  | depth, d :: s =>
    if d = c ∧ depth = 0 ∧ d ∉ ['<', '(', '[', '>', ')', ']'] then [] :: splitBracketed c depth s
    else
      let inner := if d ∈ ['<', '(', '['] then depth + 1 else if d ∈ ['>', ')', ']'] then depth - 1 else depth
      match splitBracketed c inner s with
      | [] => [[d]]
      | piece :: rest => (d :: piece) :: rest

/-- The trimmed pieces between the `c` outside all brackets, without the empty ones. -/
def splitTop (c : Char) (s : List Char) : List (List Char) :=
  ((splitBracketed c 0 s).map trim).filter (!·.isEmpty)

/-- The texts before and after the bracket that closes `depth` opened ones. -/
def enclosed? (opening closing : Char) : Nat → List Char → Option (List Char × List Char)
  | _, [] => none
  | depth, d :: s =>
    if d = closing then
      if depth ≤ 1 then some ([], s) else (enclosed? opening closing (depth - 1) s).map fun (a, b) => (d :: a, b)
    else
      let inner := if d = opening then depth + 1 else depth
      (enclosed? opening closing inner s).map fun (a, b) => (d :: a, b)

/-- ASCII letters in lower case. -/
def lower (s : List Char) : List Char :=
  s.map Char.toLower

end Relayout.Text
