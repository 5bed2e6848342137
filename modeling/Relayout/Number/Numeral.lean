import Relayout.Number.Shortest
import Relayout.Text.Blank

/-!
# Numerals in block text

Sizes are decimal numerals below `2 ^ 64`. Numbers are written positionally and in the fewest digits that read back,
with no exponent however large or small they are, and of two equally near numerals the one away from zero. They are
read with an optional sign, point and exponent, and rounded once.
-/

namespace Relayout.Number

/-- The value of a text of digits. -/
def digitsValue (s : List Char) : Nat :=
  s.foldl (fun n c => 10 * n + (c.toNat - '0'.toNat)) 0

def digitsOf (n : Nat) : List Char :=
  Nat.toDigits 10 n

/-- Reads a size: digits with an optional `+`, below `2 ^ 64`. -/
def readSize? (s : List Char) : Option Nat :=
  let digits := match s with
    | '+' :: rest => rest
    | _ => s
  if digits ≠ [] ∧ digits.all Char.isDigit ∧ digitsValue digits < Nat.pow 2 64 then some (digitsValue digits)
  else none

namespace Decimal

/-- The number nearest to a decimal. Far beyond the range of the format no power of ten is computed. -/
def toBinary (negative : Bool) (d : Decimal) : Binary64 :=
  let magnitude := ((digitsOf d.digits).length : Int) + d.exponent
  if d.digits = 0 ∨ magnitude < -400 then Binary64.ofMagnitude negative 0
  else if 400 < magnitude then Binary64.infinity negative
  else
    let (num, den) := powTen d.exponent
    Binary64.ofRatio negative (d.digits * num) den

/-- The digits with a point set in so that the first `places` of them stand before it, none if there are no others. -/
def positional (d : Decimal) : List Char :=
  let digits := digitsOf d.digits
  let places := (digits.length : Int) + d.exponent
  if 0 ≤ d.exponent then digits ++ List.replicate d.exponent.natAbs '0'
  else if 0 < places then digits.take places.natAbs ++ '.' :: digits.drop places.natAbs
  else '0' :: '.' :: (List.replicate places.natAbs '0' ++ digits)

end Decimal

namespace Binary64

/-- The text of a number. -/
def text (x : Binary64) : String :=
  if x.isNaN then "NaN"
  else
    let body :=
      if x.isInfinite then ['i', 'n', 'f']
      else if x.magnitude = 0 then ['0']
      else (Decimal.shortest .away x.magnitude).positional
    String.ofList (if x.isNegative then '-' :: body else body)

/-- An optional sign and what follows it. -/
def readSign (s : List Char) : Bool × List Char :=
  match s with
  | '-' :: rest => (true, rest)
  | '+' :: rest => (false, rest)
  | _ => (false, s)

/-- The exponent that ends a numeral: none, or a mark with an optional sign and at least one digit. -/
def readExponent? (s : List Char) : Option Int :=
  match s with
  | [] => some 0
  | mark :: rest =>
    let (negative, digits) := readSign rest
    if (mark = 'e' ∨ mark = 'E') ∧ digits ≠ [] ∧ digits.all Char.isDigit then
      some (if negative then -(digitsValue digits : Int) else digitsValue digits)
    else none

/-- The digits after a point, if there is one, and the rest. -/
def readFraction (s : List Char) : List Char × List Char :=
  match s with
  | '.' :: rest => (rest.takeWhile Char.isDigit, rest.dropWhile Char.isDigit)
  | _ => ([], s)

/-- Reads an unsigned decimal: digits on at least one side of an optional point, then an optional exponent. -/
def readDecimal? (s : List Char) : Option Decimal :=
  let whole := s.takeWhile Char.isDigit
  let (fraction, rest) := readFraction (s.dropWhile Char.isDigit)
  if whole = [] ∧ fraction = [] then none
  else (readExponent? rest).map fun e => ⟨digitsValue (whole ++ fraction), e - fraction.length⟩

/-- Reads a number. Infinity and NaN are written in letters of any case. -/
def read? (s : List Char) : Option Binary64 :=
  let (negative, body) := readSign s
  let word := String.ofList (body.map Char.toLower)
  if word = "inf" ∨ word = "infinity" then some (infinity negative)
  else if word = "nan" then some (nan negative)
  else (readDecimal? body).map (·.toBinary negative)

end Binary64

end Relayout.Number
