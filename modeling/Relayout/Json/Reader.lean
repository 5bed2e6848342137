import Relayout.Json.Basic

/-!
# Reading JSON documents

`Json.parse?` accepts exactly one document with blanks around it. Every function returns what it read with the rest of
the text. Values nest, so they are read with a bound on the number of steps; every step consumes a character, and the
length of the text is bound enough.
-/

namespace Relayout.Json

/-- Drops the four blanks of JSON. -/
def skip (s : List Char) : List Char :=
  s.dropWhile fun c => c == ' ' || c == '\n' || c == '\t' || c == '\r'

/-! ## Strings -/

def hexValue? (c : Char) : Option Nat :=
  let n := c.toNat
  if '0'.toNat ≤ n ∧ n ≤ '9'.toNat then some (n - '0'.toNat)
  else if 'a'.toNat ≤ n ∧ n ≤ 'f'.toNat then some (n - 'a'.toNat + 10)
  else if 'A'.toNat ≤ n ∧ n ≤ 'F'.toNat then some (n - 'A'.toNat + 10)
  else none

/-- The code unit of four hexadecimal digits. -/
def unit? (a b c d : Char) : Option Nat := do
  pure (((← hexValue? a) * 16 + (← hexValue? b)) * 256 + (← hexValue? c) * 16 + (← hexValue? d))

/-- What a one-letter escape stands for. -/
def escaped? : Char → Option Nat
  | '"' => some 0x22
  | '\\' => some 0x5c
  | '/' => some 0x2f
  | 'b' => some 0x08
  | 'f' => some 0x0c
  | 'n' => some 0x0a
  | 'r' => some 0x0d
  | 't' => some 0x09
  | _ => none

/-- The code units up to the closing quote. A character that is not escaped is one unit, whatever its size. -/
def units? : List Char → Option (List Nat × List Char)
  | [] => none
  | '"' :: s => some ([], s)
  | '\\' :: 'u' :: a :: b :: c :: d :: s => do
    let unit ← unit? a b c d
    let (rest, s) ← units? s
    pure (unit :: rest, s)
  | '\\' :: c :: s => do
    let unit ← escaped? c
    let (rest, s) ← units? s
    pure (unit :: rest, s)
  | c :: s => do
    if c.toNat < 32 then none else
      let (rest, s) ← units? s
      pure (c.toNat :: rest, s)

/-- The characters of code units: two surrogates make one character, and one alone makes none. -/
def decode? : List Nat → Option (List Char)
  | [] => some []
  | [n] => if 0xD800 ≤ n ∧ n ≤ 0xDFFF then none else some [Char.ofNat n]
  | n :: m :: rest =>
    if 0xD800 ≤ n ∧ n ≤ 0xDBFF then
      if 0xDC00 ≤ m ∧ m ≤ 0xDFFF then
        (decode? rest).map (Char.ofNat (0x10000 + (n - 0xD800) * 0x400 + (m - 0xDC00)) :: ·)
      else none
    else if 0xDC00 ≤ n ∧ n ≤ 0xDFFF then none
    else (decode? (m :: rest)).map (Char.ofNat n :: ·)

/-- Reads a string after its opening quote. -/
def string? (s : List Char) : Option (Option String × List Char) :=
  (units? s).map fun (units, rest) => ((decode? units).map String.ofList, rest)

/-! ## Numerals -/

/-- Reads a point and the digits after it, if there is a point. -/
def fraction? (s : List Char) : Option (List Char × List Char) :=
  match s with
  | '.' :: rest =>
    let digits := rest.takeWhile Char.isDigit
    if digits = [] then none else some (digits, rest.dropWhile Char.isDigit)
  | _ => some ([], s)

/-- Reads the exponent, if there is one. -/
def exponent? (s : List Char) : Option (Option (Option Char × List Char) × List Char) :=
  match s with
  | [] => some (none, [])
  | mark :: rest =>
    if mark = 'e' ∨ mark = 'E' then
      let (sign, rest) := match rest with
        | '+' :: rest => (some '+', rest)
        | '-' :: rest => (some '-', rest)
        | _ => (none, rest)
      let digits := rest.takeWhile Char.isDigit
      if digits = [] then none else some (some (sign, digits), rest.dropWhile Char.isDigit)
    else some (none, s)

/-- Reads the digits before the point, which start with zero only if that is all. -/
def whole? (s : List Char) : Option (List Char × List Char) :=
  match s with
  | '0' :: rest => some (['0'], rest)
  | _ =>
    let digits := s.takeWhile Char.isDigit
    if digits = [] then none else some (digits, s.dropWhile Char.isDigit)

def numeral? (s : List Char) : Option (Numeral × List Char) := do
  let (negative, s) := match s with
    | '-' :: rest => (true, rest)
    | _ => (false, s)
  let (whole, s) ← whole? s
  let (fraction, s) ← fraction? s
  let (exponent, s) ← exponent? s
  pure (⟨negative, whole, fraction, exponent⟩, s)

/-! ## Documents -/

mutual

/-- Reads a value after blanks. -/
def value? : Nat → List Char → Option (Json × List Char)
  | 0, _ => none
  | fuel + 1, s =>
    match skip s with
    | 'n' :: 'u' :: 'l' :: 'l' :: rest => some (.null, rest)
    | 't' :: 'r' :: 'u' :: 'e' :: rest => some (.bool true, rest)
    | 'f' :: 'a' :: 'l' :: 's' :: 'e' :: rest => some (.bool false, rest)
    | '"' :: rest => (string? rest).map fun (text, rest) => (.string text, rest)
    | '[' :: rest =>
      match skip rest with
      | ']' :: rest => some (.array [], rest)
      | rest => (items? fuel rest).map fun (items, rest) => (.array items, rest)
    | '\x7b' :: rest =>
      match skip rest with
      | '\x7d' :: rest => some (.object [], rest)
      | rest => (fields? fuel rest).map fun (fields, rest) => (.object fields, rest)
    | s => (numeral? s).map fun (n, rest) => (.number n, rest)

/-- Reads one or more items and the bracket that ends them. -/
def items? : Nat → List Char → Option (List Json × List Char)
  | 0, _ => none
  | fuel + 1, s => do
    let (item, s) ← value? fuel s
    match skip s with
    | ',' :: s =>
      let (items, s) ← items? fuel s
      pure (item :: items, s)
    | ']' :: s => pure ([item], s)
    | _ => none

/-- Reads one or more fields and the brace that ends them. -/
def fields? : Nat → List Char → Option (List (Option String × Json) × List Char)
  | 0, _ => none
  | fuel + 1, s =>
    match skip s with
    | '"' :: s => do
      let (key, s) ← string? s
      match skip s with
      | ':' :: s =>
        let (value, s) ← value? fuel s
        match skip s with
        | ',' :: s =>
          let (fields, s) ← fields? fuel s
          pure ((key, value) :: fields, s)
        | '\x7d' :: s => pure ([(key, value)], s)
        | _ => none
      | _ => none
    | _ => none

end

/-- The document that a text consists of. -/
def parse? (s : String) : Option Json :=
  match value? (s.length + 1) s.toList with
  | some (json, rest) => if skip rest = [] then some json else none
  | none => none

end Relayout.Json
