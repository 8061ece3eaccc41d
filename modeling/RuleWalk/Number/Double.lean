/-!
# Double-precision numbers

Every finite double is a whole number of units of `2 ^ -1074`, so it is kept as that number with a sign, and two doubles
compare as whole numbers do. Zero has both signs. `Double.ofRatio` rounds a quotient to the nearest double and, of two
equally near ones, to the one whose last bit is zero.
-/

namespace RuleWalk

/-- A finite double: a sign and a whole number of units of `2 ^ -1074`. -/
structure Dyadic where
  neg : Bool
  units : Nat
deriving DecidableEq, Repr

/-- A double: finite, infinite or not a number. -/
inductive Double where
  | finite (value : Dyadic)
  | infinite (neg : Bool)
  | nan
deriving DecidableEq, Repr

/-- The number of units as an integer; both zeros give zero. -/
def Dyadic.toInt (d : Dyadic) : Int :=
  if d.neg then -(d.units : Int) else d.units

namespace Double

/-- A power of two. -/
def twoTo (k : Nat) : Nat := Nat.pow 2 k

/-- A power of ten. -/
def tenTo (k : Nat) : Nat := Nat.pow 10 k

/-- The number of bits below the unit place: one is `2 ^ 1074` units. -/
def unitBits : Nat := 1074

/-- The number of bits a significand may have. -/
def precision : Nat := 53

/-- The number of units from which on a magnitude is infinite. -/
def overflowUnits : Nat := twoTo (unitBits + 1024)

/-- The quotient rounded to the nearest whole number, a half going to the even neighbour. -/
def roundDiv (num den : Nat) : Nat :=
  let quotient := num / den
  let twice := 2 * (num % den)
  if twice < den then quotient
  else if den < twice then quotient + 1
  else quotient + quotient % 2

/-- The number of low bits that a magnitude of so many whole units has to leave out. -/
def droppedBits (units : Nat) : Nat :=
  units.log2 + 1 - precision

/-- The double nearest to the quotient of two natural numbers, with the given sign. -/
def ofRatio (neg : Bool) (num den : Nat) : Double :=
  let scaled := num * twoTo unitBits
  let dropped := droppedBits (scaled / den)
  let units := roundDiv scaled (den * twoTo dropped) * twoTo dropped
  if units < overflowUnits then .finite ⟨neg, units⟩ else .infinite neg

/-- The double nearest to an integer. -/
def ofInt (n : Int) : Double :=
  ofRatio (n < 0) n.natAbs 1

/-- The double nearest to `digits * 10 ^ exponent`. Beyond the reach of any double the power is not worked out: a numeral
of `n` digits lies below `10 ^ (n + exponent)` and, unless it is zero, not below `10 ^ (n - 1 + exponent)`. -/
def ofDecimal (neg : Bool) (digits : Nat) (exponent : Int) : Double :=
  let size : Int := (Nat.toDigits 10 digits).length + exponent
  if digits = 0 || size < -400 then .finite ⟨neg, 0⟩
  else if 400 < size then .infinite neg
  else if exponent < 0 then ofRatio neg digits (tenTo exponent.natAbs)
  else ofRatio neg (digits * tenTo exponent.natAbs) 1

/-- How two doubles stand to each other; not a number stands in no order, and the two zeros are equal. -/
def compare? : Double → Double → Option Ordering
  | .nan, _ => none
  | _, .nan => none
  | .finite a, .finite b => some (compare a.toInt b.toInt)
  | .finite _, .infinite neg => some (if neg then .gt else .lt)
  | .infinite neg, .finite _ => some (if neg then .lt else .gt)
  | .infinite a, .infinite b => some (if a = b then .eq else if a then .lt else .gt)

/-- The product of two magnitudes given in units, rounded. -/
def mulUnits (a b : Nat) : Double :=
  ofRatio false (a * b) (twoTo (2 * unitBits))

/-- The quotient of two magnitudes given in units, rounded. -/
def divUnits (a b : Nat) : Double :=
  ofRatio false a b

end Double

end RuleWalk
