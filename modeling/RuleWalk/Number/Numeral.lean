import RuleWalk.Number.Double

/-!
# Numerals

How a literal is read as a number: as an integer of 64 bits with or without sign, or as a double. Readers take the whole
text or nothing.
-/

namespace RuleWalk.Numeral

/-- The value of a run of decimal digits after a number read so far. -/
def digitsFrom (start : Nat) (cs : List Char) : Nat :=
  cs.foldl (fun n c => 10 * n + (c.toNat - 48)) start

/-- The value of a nonempty run of decimal digits. -/
def natural? (cs : List Char) : Option Nat :=
  if !cs.isEmpty && cs.all Char.isDigit then some (digitsFrom 0 cs) else none

/-- The sign in front of a numeral, true for minus, and the text after it. -/
def sign : List Char → Bool × List Char
  | '-' :: cs => (true, cs)
  | '+' :: cs => (false, cs)
  | cs => (false, cs)

/-- A number that a signed word of 64 bits holds. -/
def fitsSigned (n : Int) : Bool :=
  -9223372036854775808 ≤ n && n ≤ 9223372036854775807

/-- A number that an unsigned word of 64 bits holds. -/
def fitsUnsigned (n : Int) : Bool :=
  0 ≤ n && n ≤ 18446744073709551615

/-- A signed numeral whose value fits a signed word. -/
def signed? (cs : List Char) : Option Int := do
  let (neg, rest) := sign cs
  let n ← natural? rest
  let value : Int := if neg then -(n : Int) else n
  if fitsSigned value then some value else none

/-- A numeral without minus sign whose value fits an unsigned word. -/
def unsigned? (cs : List Char) : Option Nat := do
  let (neg, rest) := sign cs
  let n ← natural? rest
  if !neg && fitsUnsigned n then some n else none

/-- An exponent mark followed by a signed run of digits; no text at all is the exponent zero. -/
def exponent? : List Char → Option Int
  | [] => some 0
  | c :: cs =>
    if c = 'e' ∨ c = 'E' then do
      let (neg, rest) := sign cs
      let n ← natural? rest
      return if neg then -(n : Int) else n
    else none

/-- The names of the numbers that have no digits. -/
def special? (neg : Bool) (cs : List Char) : Option Double :=
  let word := cs.map Char.toLower
  if word = ['n', 'a', 'n'] then some .nan
  else if word = ['i', 'n', 'f'] ∨ word = ['i', 'n', 'f', 'i', 'n', 'i', 't', 'y'] then some (.infinite neg)
  else none

/-- The double nearest to a decimal numeral: an optional sign, digits with at most one point and at least one digit, and
an optional exponent; or the name of an infinity or of the number that is none. -/
def double? (cs : List Char) : Option Double :=
  let (neg, body) := sign cs
  let whole := body.takeWhile Char.isDigit
  let afterWhole := body.dropWhile Char.isDigit
  let (fraction, rest) := match afterWhole with
    | '.' :: tail => (tail.takeWhile Char.isDigit, tail.dropWhile Char.isDigit)
    | _ => ([], afterWhole)
  if whole.isEmpty && fraction.isEmpty then special? neg body
  else do
    let exponent ← exponent? rest
    return .ofDecimal neg (digitsFrom 0 (whole ++ fraction)) (exponent - fraction.length)

end RuleWalk.Numeral
