import Relayout.Number.Binary

/-!
# Shortest decimals

`shortest` gives a positive finite magnitude in the fewest significant digits that still read back as the same word;
of two such numerals the nearer one, and of two equally near ones the one that `Tie` names.

The reals that round to a word form an interval between the midpoints to its two neighbours, which belong to it when
the word is even. If any numeral with `n` digits lies in the interval, one of the two around the value does, so
`candidate` looks at these two only, with `n` going up from one.
-/

namespace Relayout.Number

/-- Which of two equally near numerals is taken. -/
inductive Tie where
  | toEven
  | away

/-- The number `digits * 10 ^ exponent`. -/
structure Decimal where
  digits : Nat
  exponent : Int
  deriving DecidableEq

namespace Decimal

/-- Numerator and denominator of a power of ten. -/
def powTen (e : Int) : Nat × Nat :=
  if e < 0 then (1, Nat.pow 10 e.natAbs) else (Nat.pow 10 e.natAbs, 1)

/-- The same number with its trailing zeros moved into the exponent. -/
def trim : Nat → Decimal → Decimal
  | 0, d => d
  | fuel + 1, d => if d.digits % 10 = 0 then trim fuel ⟨d.digits / 10, d.exponent + 1⟩ else d

/-- The least `k` from `start` on with `num * 10 ^ k ≥ den`. -/
def zeros (num den : Nat) : Nat → Nat → Nat
  | 0, k => k
  | fuel + 1, k => if den ≤ num * Nat.pow 10 k then k else zeros num den fuel (k + 1)

/-- The exponent of the leading digit of `num / den`: the value lies between its power of ten and ten times that. -/
def leading (num den : Nat) : Int :=
  if den ≤ num then ((Nat.toDigits 10 (num / den)).length : Int) - 1
  else -(zeros num den 400 1 : Int)

/-- The numeral on the grid `10 ^ e` that reads back as `word`, if one of the two around its value does. -/
def candidate (tie : Tie) (word : Nat) (e : Int) : Option Decimal :=
  let f := Format.double
  let value := f.units word
  let low := value + f.units (word - 1)
  let high := value + f.units (word + 1)
  let (num, den) := powTen e
  let step := num * Nat.pow 2 f.scale
  let below := value * den / step
  let inside := fun c =>
    let mark := 2 * c * step
    if word % 2 = 0 then low * den ≤ mark && mark ≤ high * den else low * den < mark && mark < high * den
  let sum := (2 * below + 1) * step
  let twice := 2 * value * den
  let nearer := if twice < sum then below else if sum < twice then below + 1 else
    match tie with
    | .toEven => below + below % 2
    | .away => below + 1
  match inside below, inside (below + 1) with
  | true, true => some ⟨nearer, e⟩
  | true, false => some ⟨below, e⟩
  | false, true => some ⟨below + 1, e⟩
  | false, false => none

/-- The shortest numeral of a positive finite word. Seventeen digits always suffice. -/
def shortest (tie : Tie) (word : Nat) : Decimal :=
  let first := leading (Format.double.units word) (Nat.pow 2 Format.double.scale)
  let found := (List.range 17).findSome? fun (n : Nat) => candidate tie word (first - n)
  trim 20 (found.getD ⟨0, 0⟩)

end Decimal

end Relayout.Number
