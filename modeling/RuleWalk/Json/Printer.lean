import RuleWalk.Text.Ascii
import RuleWalk.Text.Quoted
import RuleWalk.Number.Shortest
import RuleWalk.Json.Value

/-!
# JSON as text

`Json.text` writes a value compactly, as it stands in a document. `Json.outline` writes it for people, with the kind of
every value in front of it. Both write a double with the fewest digits that read back: in positional notation with a
point as long as its exponent of ten lies from minus five to fifteen, and else with a signed exponent.
-/

namespace RuleWalk

namespace Decimal

/-- The least and the greatest exponent of the leading digit for which a decimal is written without an exponent. -/
def positionalExponents : Int × Int := (-5, 15)

/-- A decimal as text: positional with a point, or one digit before the point and an exponent with its sign. -/
def text (d : Decimal) : List Char :=
  let digits := Nat.toDigits 10 d.digits
  let leading : Int := digits.length - 1 + d.exponent
  if positionalExponents.1 ≤ leading && leading ≤ positionalExponents.2 then
    if leading < 0 then ['0', '.'] ++ List.replicate (leading.natAbs - 1) '0' ++ digits
    else
      let places := leading.natAbs + 1
      if digits.length ≤ places then digits ++ List.replicate (places - digits.length) '0' ++ ['.', '0']
      else digits.take places ++ '.' :: digits.drop places
  else
    let fraction := digits.drop 1
    let power := (if leading < 0 then '-' else '+') :: Nat.toDigits 10 leading.natAbs
    digits.take 1 ++ (if fraction.isEmpty then [] else '.' :: fraction) ++ 'e' :: power

end Decimal

/-- A finite double as text. -/
def Dyadic.text (d : Dyadic) : List Char :=
  let magnitude := if d.units = 0 then ['0', '.', '0'] else (Decimal.shortest d.units).text
  if d.neg then '-' :: magnitude else magnitude

/-- An integer in decimal digits. -/
def Number.intText (n : Int) : List Char :=
  let magnitude := Nat.toDigits 10 n.natAbs
  if n < 0 then '-' :: magnitude else magnitude

/-- A JSON number as text. -/
def Number.text : Number → String
  | .int n => String.ofList (Number.intText n)
  | .real d => String.ofList d.text

namespace Json

/-- How one character stands in a JSON string: quote and backslash after a backslash, controls by their letter or by four
hexadecimal digits, all else as it is. -/
def escapeChar (c : Char) : List Char :=
  if c = '"' then ['\\', '"']
  else if c = '\\' then ['\\', '\\']
  else if c = '\n' then ['\\', 'n']
  else if c = '\r' then ['\\', 'r']
  else if c = '\t' then ['\\', 't']
  else if c = '\x08' then ['\\', 'b']
  else if c = '\x0c' then ['\\', 'f']
  else if c.toNat < 0x20 then
    let digits := Text.hexDigits c.toNat
    ['\\', 'u'] ++ List.replicate (4 - digits.length) '0' ++ digits
  else [c]

/-- A text as a JSON string. -/
def stringText (s : String) : String :=
  String.ofList ('"' :: s.toList.flatMap escapeChar ++ ['"'])

mutual

/-- The value as a compact JSON text. -/
def text : Json → String
  | .null => "null"
  | .bool true => "true"
  | .bool false => "false"
  | .number n => n.text
  | .string s => stringText s
  | .array items => "[" ++ Text.joinWith "," (itemTexts items) ++ "]"
  | .object members => "\x7b" ++ Text.joinWith "," (memberTexts members) ++ "\x7d"

/-- The texts of the items of an array. -/
def itemTexts : List Json → List String
  | [] => []
  | item :: rest => text item :: itemTexts rest

/-- The texts of the members of an object. -/
def memberTexts : List (String × Json) → List String
  | [] => []
  | (key, value) :: rest => (stringText key ++ ":" ++ text value) :: memberTexts rest

end

mutual

/-- The value with the kind of each of its parts. -/
def outline : Json → String
  | .null => "Null"
  | .bool true => "Bool(true)"
  | .bool false => "Bool(false)"
  | .number n => "Number(" ++ n.text ++ ")"
  | .string s => "String(" ++ Text.quoted s ++ ")"
  | .array items => "Array [" ++ Text.joinWith ", " (itemOutlines items) ++ "]"
  | .object members => "Object \x7b" ++ Text.joinWith ", " (memberOutlines members) ++ "\x7d"

/-- The outlines of the items of an array. -/
def itemOutlines : List Json → List String
  | [] => []
  | item :: rest => outline item :: itemOutlines rest

/-- The outlines of the members of an object. -/
def memberOutlines : List (String × Json) → List String
  | [] => []
  | (key, value) :: rest => (Text.quoted key ++ ": " ++ outline value) :: memberOutlines rest

end

end Json

end RuleWalk
