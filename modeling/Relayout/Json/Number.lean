import Relayout.Json.Basic
import Relayout.Number.Numeral

/-!
# Numbers in JSON documents

Numbers are written in the fewest digits that read back, of two equally near numerals the even one: with a point and at
least one digit after it from `0.00001` up to `10 ^ 16`, with an exponent that has a sign outside. A number that is not
finite becomes `null`.

A numeral is read fast and not always to the nearest number: as many of its leading digits as fit in 64 bits are
rounded to a number, which is then multiplied or divided by a power of ten, each step rounding. A numeral too large for
the format is refused.
-/

namespace Relayout.Json

open Number

namespace Numeral

/-- Appends digits to a significand for as long as it fits in 64 bits, and counts them. -/
def grow (significand : Nat) : List Char → Nat × Nat
  | [] => (significand, 0)
  | c :: s =>
    let next := 10 * significand + (c.toNat - '0'.toNat)
    if next < Nat.pow 2 64 then
      let (result, count) := grow next s
      (result, count + 1)
    else (significand, 0)

/-- The words of the powers of ten. -/
def powerWord (e : Nat) : Nat :=
  (Binary64.ofRatio false (Nat.pow 10 e) 1).magnitude

/-- A magnitude times a power of ten, `none` if it is too large. Powers beyond the format are taken in steps. -/
def scaled : Nat → Nat → Int → Option Nat
  | 0, word, _ => some word
  | fuel + 1, word, e =>
    let f := Format.double
    if 0 ≤ e ∧ e ≤ 308 then
      let product := f.word (f.units word * f.units (powerWord e.natAbs)) (Nat.pow 2 f.scale)
      if product = f.infinity then none else some product
    else if word = 0 then some 0
    else if 0 ≤ e then none
    else if -308 ≤ e then some (f.word (f.units word * Nat.pow 2 f.scale) (f.units (powerWord e.natAbs)))
    else scaled fuel (f.word (f.units word * Nat.pow 2 f.scale) (f.units (powerWord 308))) (e + 308)

/-- The exponent that a numeral ends in. -/
def exponentValue (n : Numeral) : Int :=
  match n.exponent with
  | none => 0
  | some (sign, digits) => if sign = some '-' then -(digitsValue digits : Int) else digitsValue digits

/-- The number of a numeral. Two steps of scaling bring any significand of 64 bits to zero. -/
def toBinary? (n : Numeral) : Option Binary64 :=
  let (significand, counted) := grow 0 n.whole
  let (significand, appended) := grow significand n.fraction
  let e := ((n.whole.length - counted : Nat) : Int) - appended + n.exponentValue
  (scaled 4 (Binary64.ofRatio false significand 1).magnitude e).map (Binary64.ofMagnitude n.negative)

/-- The value of a numeral that is written as a whole number without sign, below a bound. -/
def size? (bound : Nat) (n : Numeral) : Option Nat :=
  if n.negative ∨ n.fraction ≠ [] ∨ n.exponent.isSome ∨ bound ≤ digitsValue n.whole then none
  else some (digitsValue n.whole)

/-- The numeral of a positive decimal. -/
def ofDecimal (negative : Bool) (d : Decimal) : Numeral :=
  let digits := digitsOf d.digits
  let places := (digits.length : Int) + d.exponent
  if places ≤ -5 ∨ 16 < places then
    let sign := if places - 1 < 0 then '-' else '+'
    ⟨negative, digits.take 1, digits.drop 1, some (some sign, digitsOf (places - 1).natAbs)⟩
  else if 0 ≤ d.exponent then ⟨negative, digits ++ List.replicate d.exponent.natAbs '0', ['0'], none⟩
  else if 0 < places then ⟨negative, digits.take places.natAbs, digits.drop places.natAbs, none⟩
  else ⟨negative, ['0'], List.replicate places.natAbs '0' ++ digits, none⟩

end Numeral

def ofBinary (x : Binary64) : Json :=
  if !x.isFinite then .null
  else if x.magnitude = 0 then .number ⟨x.isNegative, ['0'], ['0'], none⟩
  else .number (.ofDecimal x.isNegative (Decimal.shortest .toEven x.magnitude))

end Relayout.Json
