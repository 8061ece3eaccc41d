import RuleWalk.Number.Double

/-!
# The shortest decimal of a double

The decimal with the fewest digits that still rounds to the double and, among those, the nearest to it. The reals that
round to a double form an interval around it, whose ends belong to it exactly when the significand is even. On the grid
of decimals with a given number of digits only the two neighbours of the double need to be tried.
-/

namespace RuleWalk

/-- A decimal `digits * 10 ^ exponent`. -/
structure Decimal where
  digits : Nat
  exponent : Int
deriving DecidableEq, Repr

namespace Decimal

open Double (twoTo tenTo)

/-- The same value without zeros at the end of the digits; zero digits are left alone, and `limit` zeros at most go. -/
def trimZeros : Nat → Decimal → Decimal
  | 0, d => d
  | limit + 1, d =>
    if d.digits ≠ 0 ∧ d.digits % 10 = 0 then trimZeros limit ⟨d.digits / 10, d.exponent + 1⟩ else d

/-- The exponent of ten of the leading digit of a positive number of units. -/
def leadingExponent (units : Nat) : Int :=
  let one := twoTo Double.unitBits
  if one ≤ units then ((Nat.toDigits 10 (units / one)).length : Int) - 1
  else match (List.range 330).find? fun j => one ≤ units * tenTo j with
    | some j => -(j : Int)
    | none => -330

/-- The nearer of the two neighbours of a positive number of units on the grid of multiples of `10 ^ exponent`, among
those that round to it. Of two equally near ones the even one is taken. -/
def neighbour? (units : Nat) (exponent : Int) : Option Decimal :=
  let dropped := Double.droppedBits units
  let gap := twoTo dropped
  let significand := units / gap
  let below := if significand = twoTo (Double.precision - 1) ∧ 0 < dropped then gap else 2 * gap
  let scale := if exponent < 0 then tenTo exponent.natAbs else 1
  let step := if exponent < 0 then twoTo Double.unitBits else twoTo Double.unitBits * tenTo exponent.natAbs
  let low := (4 * units - below) * scale
  let high := (4 * units + 2 * gap) * scale
  let rounds (digits : Nat) : Bool :=
    let point := 4 * digits * step
    if significand % 2 = 0 then low ≤ point && point ≤ high else low < point && point < high
  let floor := units * scale / step
  let remainder := 2 * (units * scale % step)
  let floorIsNearer := remainder < step || (remainder == step && floor % 2 == 0)
  match rounds floor, rounds (floor + 1) with
  | true, true => some ⟨if floorIsNearer then floor else floor + 1, exponent⟩
  | true, false => some ⟨floor, exponent⟩
  | false, true => some ⟨floor + 1, exponent⟩
  | false, false => none

/-- The shortest decimal that rounds to a positive number of units; seventeen digits always suffice. -/
def shortest (units : Nat) : Decimal :=
  let leading := leadingExponent units
  match (List.range 17).findSome? fun (n : Nat) => neighbour? units (leading - n) with
  | some decimal => trimZeros 20 decimal
  | none => ⟨0, 0⟩

end Decimal

end RuleWalk
