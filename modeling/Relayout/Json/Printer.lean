import Relayout.Json.Basic

/-!
# Printing JSON documents

The printed form puts every item and field on a line of its own, two blanks deeper than what holds it. Only quotes,
backslashes and control characters are escaped.
-/

namespace Relayout.Json

def hexDigit (n : Nat) : Char :=
  Nat.digitChar (n % 16)

/-- A character inside a string. -/
def escape (c : Char) : List Char :=
  if c = '"' then ['\\', '"']
  else if c = '\\' then ['\\', '\\']
  else if c = '\x08' then ['\\', 'b']
  else if c = '\x0c' then ['\\', 'f']
  else if c = '\n' then ['\\', 'n']
  else if c = '\r' then ['\\', 'r']
  else if c = '\t' then ['\\', 't']
  else if c.toNat < 32 then ['\\', 'u', '0', '0', hexDigit (c.toNat / 16), hexDigit c.toNat]
  else [c]

/-- A string. One that stands for no text is written as half of a surrogate pair. -/
def quoted (s : Option String) : List Char :=
  match s with
  | some s => '"' :: s.toList.flatMap escape ++ ['"']
  | none => ['"', '\\', 'u', 'd', '8', '0', '0', '"']

def Numeral.print (n : Numeral) : List Char :=
  let sign := if n.negative then ['-'] else []
  let fraction := if n.fraction = [] then [] else '.' :: n.fraction
  let exponent := match n.exponent with
    | none => []
    | some (sign, digits) => 'e' :: sign.toList ++ digits
  sign ++ n.whole ++ fraction ++ exponent

def newline (depth : Nat) : List Char :=
  '\n' :: List.replicate (2 * depth) ' '

mutual

def print (depth : Nat) : Json → List Char
  | .null => "null".toList
  | .bool true => "true".toList
  | .bool false => "false".toList
  | .number n => n.print
  | .string s => quoted s
  | .array [] => ['[', ']']
  | .array (x :: xs) =>
    '[' :: newline (depth + 1) ++ print (depth + 1) x ++ printItems (depth + 1) xs ++ newline depth ++ [']']
  | .object [] => ['\x7b', '\x7d']
  | .object ((key, x) :: fields) =>
    '\x7b' :: newline (depth + 1) ++ quoted key ++ [':', ' '] ++ print (depth + 1) x ++
      printFields (depth + 1) fields ++ newline depth ++ ['\x7d']

def printItems (depth : Nat) : List Json → List Char
  | [] => []
  | x :: xs => ',' :: newline depth ++ print depth x ++ printItems depth xs

def printFields (depth : Nat) : List (Option String × Json) → List Char
  | [] => []
  | (key, x) :: fields =>
    ',' :: newline depth ++ quoted key ++ [':', ' '] ++ print depth x ++ printFields depth fields

end

/-- The printed form of a document. -/
def render (j : Json) : String :=
  String.ofList (j.print 0)

end Relayout.Json
