/-!
# Binary floating-point words

A finite word of a binary interchange format is a whole number of least units: `Format.units` gives that number and
`Format.word` finds the word nearest to a quotient of two numbers, ties going to the even word. Both work on words
without their sign, so that the order of words is the order of magnitudes and infinity is one word above the largest
finite one.

`Binary64` is a signed 64-bit word. Numbers are kept as words and not as `Float`, because a constant's payload shows
the sign and payload of a NaN. Conversions to and from other widths and integers are exact or rounded once.
-/

namespace Relayout.Number

/-- The quotient rounded to the nearest whole number, a half to the even one. -/
def roundDiv (num den : Nat) : Nat :=
  let low := num / den
  let twice := 2 * (num % den)
  if twice < den then low else if den < twice then low + 1 else low + low % 2

/-- Widths of the stored fraction and exponent. -/
structure Format where
  fraction : Nat
  exponent : Nat

namespace Format

def single : Format := ⟨23, 8⟩

def double : Format := ⟨52, 11⟩

/-- `1` is this power of two of least units. -/
def scale (f : Format) : Nat :=
  Nat.pow 2 (f.exponent - 1) - 2 + f.fraction

/-- The word of infinity; larger words are NaNs. -/
def infinity (f : Format) : Nat :=
  (Nat.pow 2 f.exponent - 1) * Nat.pow 2 f.fraction

/-- The bit that marks a quiet NaN. -/
def quiet (f : Format) : Nat :=
  Nat.pow 2 (f.fraction - 1)

/-- Least units in the magnitude that a word stands for. -/
def units (f : Format) (word : Nat) : Nat :=
  let field := word / Nat.pow 2 f.fraction
  let low := word % Nat.pow 2 f.fraction
  if field = 0 then low else (Nat.pow 2 f.fraction + low) * Nat.pow 2 (field - 1)

/-- The word nearest to `num / den` least units, infinity if that is too large. -/
def word (f : Format) (num den : Nat) : Nat :=
  let shift := (num / den).log2 - f.fraction
  min (shift * Nat.pow 2 f.fraction + roundDiv num (den * Nat.pow 2 shift)) f.infinity

end Format

/-- A signed binary word of 64 bits. -/
structure Binary64 where
  bits : UInt64
  deriving DecidableEq

namespace Binary64

def isNegative (x : Binary64) : Bool :=
  Nat.pow 2 63 ≤ x.bits.toNat

/-- The word without its sign. -/
def magnitude (x : Binary64) : Nat :=
  x.bits.toNat % Nat.pow 2 63

def ofMagnitude (negative : Bool) (word : Nat) : Binary64 :=
  ⟨UInt64.ofNat (if negative then Nat.pow 2 63 + word else word)⟩

def isNaN (x : Binary64) : Bool :=
  Format.double.infinity < x.magnitude

def isInfinite (x : Binary64) : Bool :=
  x.magnitude == Format.double.infinity

def isFinite (x : Binary64) : Bool :=
  x.magnitude < Format.double.infinity

def zero : Binary64 := ⟨0⟩

def infinity (negative : Bool) : Binary64 :=
  ofMagnitude negative Format.double.infinity

def nan (negative : Bool) : Binary64 :=
  ofMagnitude negative (Format.double.infinity + Format.double.quiet)

/-- The number nearest to `num / den`. -/
def ofRatio (negative : Bool) (num den : Nat) : Binary64 :=
  ofMagnitude negative (Format.double.word (num * Nat.pow 2 Format.double.scale) den)

/-- The number nearest to an integer. -/
def ofInt (n : Int) : Binary64 :=
  ofRatio (n < 0) n.natAbs 1

/-- Equality of numbers: a NaN differs from everything and the two zeros are equal. -/
def sameNumber (x y : Binary64) : Bool :=
  !x.isNaN && (x == y || x.magnitude == 0 && y.magnitude == 0)

/-- The fractional part is dropped, what lies beyond a bound becomes that bound, and a NaN becomes `0`. -/
def truncate (low high : Int) (x : Binary64) : Int :=
  if x.isNaN then 0
  else if x.isInfinite then if x.isNegative then low else high
  else
    let whole : Int := (Format.double.units x.magnitude / Nat.pow 2 Format.double.scale : Nat)
    max low (min high (if x.isNegative then -whole else whole))

/-- The nearest 32-bit word. A NaN keeps its sign and the leading bits of its payload, and becomes quiet. -/
def toSingle (x : Binary64) : UInt32 :=
  let dropped := Format.double.fraction - Format.single.fraction
  let word :=
    if x.isNaN then
      Format.single.infinity +
        ((x.magnitude % Nat.pow 2 Format.double.fraction / Nat.pow 2 dropped) ||| Format.single.quiet)
    else if x.isInfinite then Format.single.infinity
    else
      Format.single.word (Format.double.units x.magnitude) (Nat.pow 2 (Format.double.scale - Format.single.scale))
  UInt32.ofNat (if x.isNegative then Nat.pow 2 31 + word else word)

/-- The number of a 32-bit word. A NaN keeps its sign and payload, and becomes quiet. -/
def ofSingle (bits : UInt32) : Binary64 :=
  let negative := Nat.pow 2 31 ≤ bits.toNat
  let word := bits.toNat % Nat.pow 2 31
  let dropped := Format.double.fraction - Format.single.fraction
  if Format.single.infinity < word then
    ofMagnitude negative
      (Format.double.infinity +
        ((word % Nat.pow 2 Format.single.fraction * Nat.pow 2 dropped) ||| Format.double.quiet))
  else if word = Format.single.infinity then infinity negative
  else
    ofMagnitude negative
      (Format.double.word (Format.single.units word * Nat.pow 2 (Format.double.scale - Format.single.scale)) 1)

end Binary64

end Relayout.Number
