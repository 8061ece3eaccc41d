import RuleWalk.Text.Utf8
import RuleWalk.Number.Numeral
import RuleWalk.Json.Value

/-!
# Reading JSON

Readers go through the text from left to right and stop at the first fault: the text ended too early, it is not JSON, or
it is JSON of another shape than asked for. A reader of a shape takes the readers of its parts, so a fault of shape shows
as soon as the value that has it is met. Containers may nest 127 deep; a value that is only skipped has no such limit, and
neither the range of its numbers nor the pairing of its surrogates is looked at.
-/

namespace RuleWalk.Json.Reader

/-- What stops a reader. -/
inductive Fault where
  /-- The text ended too early. -/
  | truncated
  /-- The text is not JSON. -/
  | malformed
  /-- The text is JSON of another shape. -/
  | mismatched
deriving DecidableEq, Repr

/-- A blank between JSON tokens. -/
def isBlank (c : Char) : Bool :=
  c == ' ' || c == '\n' || c == '\t' || c == '\r'

/-- The text from its first character that is no blank. -/
def skipBlanks (cs : List Char) : List Char :=
  cs.dropWhile isBlank

/-- The text after a word that has to stand at its start. -/
def expectWord : List Char → List Char → Except Fault (List Char)
  | [], cs => .ok cs
  | _ :: _, [] => .error .truncated
  | w :: word, c :: cs => if c = w then expectWord word cs else .error .malformed

/-! ## Strings -/

/-- The value of a hexadecimal digit. -/
def hexValue? (c : Char) : Option Nat :=
  if '0' ≤ c && c ≤ '9' then some (c.toNat - 48)
  else if 'a' ≤ c && c ≤ 'f' then some (c.toNat - 87)
  else if 'A' ≤ c && c ≤ 'F' then some (c.toNat - 55)
  else none

/-- The code unit given by four hexadecimal digits. A text of fewer than four bytes has ended too early. -/
def codeUnit (cs : List Char) : Except Fault (Nat × List Char) :=
  match cs with
  | a :: b :: c :: d :: rest =>
    match hexValue? a, hexValue? b, hexValue? c, hexValue? d with
    | some a, some b, some c, some d => .ok (((a * 16 + b) * 16 + c) * 16 + d, rest)
    | _, _, _, _ => .error .malformed
  | _ => .error (if Text.byteLength cs < 4 then .truncated else .malformed)

/-- The first half of a surrogate pair. -/
def isHighSurrogate (n : Nat) : Bool :=
  0xD800 ≤ n && n ≤ 0xDBFF

/-- The second half of a surrogate pair. -/
def isLowSurrogate (n : Nat) : Bool :=
  0xDC00 ≤ n && n ≤ 0xDFFF

/-- The character given by code units after their mark: one unit, or a pair of surrogates each with its mark. -/
def unicodeEscape (cs : List Char) : Except Fault (Char × List Char) := do
  let (high, rest) ← codeUnit cs
  if isLowSurrogate high then .error .malformed
  else if isHighSurrogate high then
    match rest with
    | [] => .error .truncated
    | ['\\'] => .error .truncated
    | '\\' :: 'u' :: rest => do
      let (low, rest) ← codeUnit rest
      if isLowSurrogate low then
        return (Char.ofNat (0x10000 + (high - 0xD800) * 0x400 + (low - 0xDC00)), rest)
      else .error .malformed
    | _ => .error .malformed
  else return (Char.ofNat high, rest)

/-- The character that a letter after a backslash stands for. -/
def letterEscape? : Char → Option Char
  | '"' => some '"'
  | '\\' => some '\\'
  | '/' => some '/'
  | 'b' => some '\x08'
  | 'f' => some '\x0c'
  | 'n' => some '\n'
  | 'r' => some '\r'
  | 't' => some '\t'
  | _ => none

/-- The characters of a string up to its closing quote; each takes one of `limit`. -/
def stringChars : Nat → List Char → Except Fault (List Char × List Char)
  | 0, _ => .error .truncated
  | _ + 1, [] => .error .truncated
  | limit + 1, c :: cs =>
    if c = '"' then .ok ([], cs)
    else if c.toNat < 0x20 then .error .malformed
    else if c = '\\' then
      match cs with
      | [] => .error .truncated
      | 'u' :: cs => do
        let (c, cs) ← unicodeEscape cs
        let (chars, rest) ← stringChars limit cs
        return (c :: chars, rest)
      | letter :: cs =>
        match letterEscape? letter with
        | some c => do
          let (chars, rest) ← stringChars limit cs
          return (c :: chars, rest)
        | none => .error .malformed
    else do
      let (chars, rest) ← stringChars limit cs
      return (c :: chars, rest)

/-- A string after its opening quote. -/
def stringBody (cs : List Char) : Except Fault (String × List Char) := do
  let (chars, rest) ← stringChars (cs.length + 1) cs
  return (String.ofList chars, rest)

/-! ## Numbers -/

/-- The largest significand that is kept exactly. -/
def significandLimit : Nat := 18446744073709551615

/-- The significand after as many digits as it can take, and the number of digits left out. -/
def absorbDigits (significand : Nat) : List Char → Nat × Nat
  | [] => (significand, 0)
  | c :: cs =>
    let next := 10 * significand + (c.toNat - 48)
    if next ≤ significandLimit then absorbDigits next cs else (significand, (c :: cs).length)

/-- The greatest power of ten that is a finite double. -/
def greatestPower : Nat := 308

/-- A finite double's units; an infinity has none. -/
def finiteUnits? : Double → Option Nat
  | .finite d => some d.units
  | _ => none

/-- The units of a power of ten, rounded. -/
def powerUnits (k : Nat) : Nat :=
  (finiteUnits? (.ofRatio false (Double.tenTo k) 1)).getD 0

/-- The quotient of a number of units by a power of ten of any size, by steps that each round. Three steps bring every
significand to zero. -/
def scaleDown : Nat → Nat → Nat → Option Nat
  | steps, units, power =>
    if power ≤ greatestPower then finiteUnits? (.divUnits units (powerUnits power))
    else match steps with
      | 0 => some 0
      | steps + 1 => do
        let units ← finiteUnits? (.divUnits units (powerUnits greatestPower))
        if units = 0 then some 0 else scaleDown steps units (power - greatestPower)

/-- The double of a significand times a power of ten, in units: the significand is rounded, then the product or quotient
with the rounded power. There is none when the number is out of range. -/
def scaled? (significand : Nat) (exponent : Int) : Option Nat := do
  let units ← finiteUnits? (.ofRatio false significand 1)
  if exponent < 0 then scaleDown 3 units exponent.natAbs
  else if exponent.natAbs ≤ greatestPower then finiteUnits? (.mulUnits units (powerUnits exponent.natAbs))
  else if units = 0 then some 0
  else none

/-- A number with a fraction or an exponent, or one too long for a word. -/
def realNumber (neg : Bool) (significand : Nat) (exponent : Int) (rest : List Char) : Except Fault (Number × List Char) :=
  match scaled? significand exponent with
  | some units => .ok (.real ⟨neg, units⟩, rest)
  | none => .error .malformed

/-- A signed run of digits after an exponent mark. -/
def exponentDigits (cs : List Char) : Except Fault (Int × List Char) :=
  let (neg, cs) := Numeral.sign cs
  match cs with
  | [] => .error .truncated
  | c :: _ =>
    if c.isDigit then
      let n := Numeral.digitsFrom 0 (cs.takeWhile Char.isDigit)
      .ok (if neg then -(n : Int) else n, cs.dropWhile Char.isDigit)
    else .error .malformed

/-- An exponent mark. -/
def isExponentMark (c : Char) : Bool :=
  c == 'e' || c == 'E'

/-- The exponent of a number whose significand has been read, and with it the number. -/
def withExponent (neg : Bool) (significand : Nat) (exponent : Int) (cs : List Char) : Except Fault (Number × List Char) :=
  match cs with
  | c :: rest =>
    if isExponentMark c then do
      let (power, rest) ← exponentDigits rest
      realNumber neg significand (exponent + power) rest
    else realNumber neg significand exponent cs
  | [] => realNumber neg significand exponent cs

/-- The fraction of a number after its point, and with it the number. -/
def withFraction (neg : Bool) (significand : Nat) (exponent : Int) (cs : List Char) : Except Fault (Number × List Char) :=
  let digits := cs.takeWhile Char.isDigit
  let rest := cs.dropWhile Char.isDigit
  if digits.isEmpty then .error (if rest.isEmpty then .truncated else .malformed)
  else
    let (significand, left) := absorbDigits significand digits
    withExponent neg significand (exponent - (digits.length - left : Nat)) rest

/-- The integer of a numeral without fraction and exponent; minus zero and what no word holds are doubles. -/
def integer (neg : Bool) (significand : Nat) (rest : List Char) : Except Fault (Number × List Char) :=
  if neg then
    if significand = 0 || 9223372036854775808 < significand then realNumber neg significand 0 rest
    else .ok (.int (-significand), rest)
  else .ok (.int significand, rest)

/-- A number after its sign. -/
def numeral (neg : Bool) (cs : List Char) : Except Fault (Number × List Char) :=
  match cs with
  | [] => .error .truncated
  | c :: rest =>
    if !c.isDigit then .error .malformed
    else if c = '0' && (rest.head?.any Char.isDigit) then .error .malformed
    else
      let (significand, left) := absorbDigits 0 (cs.takeWhile Char.isDigit)
      match cs.dropWhile Char.isDigit with
      | '.' :: rest => withFraction neg significand left rest
      | rest =>
        if rest.head?.any isExponentMark then withExponent neg significand left rest
        else if left = 0 then integer neg significand rest
        else realNumber neg significand left rest

/-! ## Containers -/

/-- Where the next item of an array starts; nothing if the array ends here. -/
def nextItem (first : Bool) (cs : List Char) : Except Fault (Option (List Char)) :=
  match skipBlanks cs with
  | [] => .error .truncated
  | ']' :: _ => .ok none
  | c :: rest =>
    if first then .ok (some (c :: rest))
    else if c = ',' then
      match skipBlanks rest with
      | [] => .error .truncated
      | ']' :: _ => .error .malformed
      | cs => .ok (some cs)
    else .error .malformed

/-- The text after the closing bracket of an array that has to end here. -/
def arrayEnd (cs : List Char) : Except Fault (List Char) :=
  match skipBlanks cs with
  | [] => .error .truncated
  | ']' :: rest => .ok rest
  | _ => .error .malformed

/-- The items of an array up to its closing bracket; each takes one of `limit`. -/
def items {α : Type} (item : List Char → Except Fault (α × List Char)) :
    Nat → Bool → List Char → Except Fault (List α × List Char)
  | 0, _, _ => .error .truncated
  | limit + 1, first, cs => do
    match ← nextItem first cs with
    | none => return ([], ← arrayEnd cs)
    | some cs =>
      let (a, cs) ← item cs
      let (more, cs) ← items item limit false cs
      return (a :: more, cs)

/-- The text after the colon between a key and its value. -/
def colon (cs : List Char) : Except Fault (List Char) :=
  match skipBlanks cs with
  | [] => .error .truncated
  | ':' :: rest => .ok rest
  | _ => .error .malformed

/-- The members of an object up to its closing brace, folded into a state; each takes one of `limit`. A key is shown to
`onKey` before the colon after it is read. -/
def members {σ : Type} (onKey : σ → String → Except Fault (List Char → Except Fault (σ × List Char))) :
    Nat → Bool → σ → List Char → Except Fault (σ × List Char)
  | 0, _, _, _ => .error .truncated
  | limit + 1, first, state, cs =>
    let member (cs : List Char) : Except Fault (σ × List Char) := do
      let (key, cs) ← stringBody cs
      let value ← onKey state key
      let cs ← colon cs
      let (state, cs) ← value cs
      members onKey limit false state cs
    match skipBlanks cs with
    | [] => .error .truncated
    | '\x7d' :: rest => .ok (state, rest)
    | c :: rest =>
      if first then
        if c = '"' then member rest else .error .malformed
      else if c = ',' then
        match skipBlanks rest with
        | [] => .error .truncated
        | '"' :: rest => member rest
        | _ => .error .malformed
      else .error .malformed

/-- The number of containers that may stand around a value, itself included. -/
def nestingLimit : Nat := 128

/-- A value of any kind. Containers need a nesting budget above one. -/
def value : Nat → List Char → Except Fault (Json × List Char)
  | 0, _ => .error .malformed
  | budget + 1, cs =>
    match skipBlanks cs with
    | [] => .error .truncated
    | 'n' :: cs => do return (.null, ← expectWord ['u', 'l', 'l'] cs)
    | 't' :: cs => do return (.bool true, ← expectWord ['r', 'u', 'e'] cs)
    | 'f' :: cs => do return (.bool false, ← expectWord ['a', 'l', 's', 'e'] cs)
    | '-' :: cs => do
      let (n, cs) ← numeral true cs
      return (.number n, cs)
    | '"' :: cs => do
      let (s, cs) ← stringBody cs
      return (.string s, cs)
    | '[' :: cs =>
      if budget = 0 then .error .malformed
      else do
        let (found, cs) ← items (value budget) (cs.length + 1) true cs
        return (.array found, cs)
    | '\x7b' :: cs =>
      if budget = 0 then .error .malformed
      else do
        let onKey (found : List (String × Json)) (key : String) :
            Except Fault (List Char → Except Fault (List (String × Json) × List Char)) :=
          .ok fun cs => do
            let (v, cs) ← value budget cs
            return (Assoc.insert key v found, cs)
        let (found, cs) ← members onKey (cs.length + 1) true [] cs
        return (.object found, cs)
    | c :: cs =>
      if c.isDigit then do
        let (n, cs) ← numeral false (c :: cs)
        return (.number n, cs)
      else .error .malformed

/-! ## Shapes -/

/-- The fault of a value that has another kind than asked for. A scalar is read first, so that a fault inside it wins. -/
def otherKind {α : Type} (cs : List Char) : Except Fault α :=
  match cs with
  | '[' :: _ => .error .mismatched
  | '\x7b' :: _ => .error .mismatched
  | cs => match value 1 cs with
    | .ok _ => .error .mismatched
    | .error fault => .error fault

/-- A string and nothing else. -/
def onlyString (cs : List Char) : Except Fault (String × List Char) :=
  match skipBlanks cs with
  | [] => .error .truncated
  | '"' :: cs => stringBody cs
  | cs => otherKind cs

/-- An array and nothing else. -/
def onlyArray {α : Type} (item : List Char → Except Fault (α × List Char)) (cs : List Char) :
    Except Fault (List α × List Char) :=
  match skipBlanks cs with
  | [] => .error .truncated
  | '[' :: cs => items item (cs.length + 1) true cs
  | cs => otherKind cs

/-- An object and nothing else, as a map; of two members with one key the later counts. -/
def onlyMap {α : Type} (member : List Char → Except Fault (α × List Char)) (cs : List Char) :
    Except Fault (List (String × α) × List Char) :=
  match skipBlanks cs with
  | [] => .error .truncated
  | '\x7b' :: cs =>
    let onKey (found : List (String × α)) (key : String) :
        Except Fault (List Char → Except Fault (List (String × α) × List Char)) :=
      .ok fun cs => do
        let (a, cs) ← member cs
        return (Assoc.insert key a found, cs)
    members onKey (cs.length + 1) true [] cs
  | cs => otherKind cs

/-! ## Skipping -/

/-- The text after a string whose opening quote has been read. -/
def skipString : Nat → List Char → Except Fault (List Char)
  | 0, _ => .error .truncated
  | _ + 1, [] => .error .truncated
  | limit + 1, c :: cs =>
    if c = '"' then .ok cs
    else if c.toNat < 0x20 then .error .malformed
    else if c = '\\' then
      match cs with
      | [] => .error .truncated
      | 'u' :: cs => do
        let (_, cs) ← codeUnit cs
        skipString limit cs
      | letter :: cs => if (letterEscape? letter).isSome then skipString limit cs else .error .malformed
    else skipString limit cs

/-- The text after a run of at least one digit. -/
def skipDigits (cs : List Char) : Except Fault (List Char) :=
  if cs.head?.any Char.isDigit then .ok (cs.dropWhile Char.isDigit) else .error .malformed

/-- The text after an exponent, if one stands there. -/
def skipExponent (cs : List Char) : Except Fault (List Char) :=
  match cs with
  | c :: rest => if isExponentMark c then skipDigits (Numeral.sign rest).2 else .ok cs
  | [] => .ok cs

/-- The text after a number whose sign has been read. -/
def skipNumber (cs : List Char) : Except Fault (List Char) := do
  if cs.head? = some '0' && (cs.tail.head?.any Char.isDigit) then .error .malformed
  else
    match ← skipDigits cs with
    | '.' :: rest => skipExponent (← skipDigits rest)
    | rest => skipExponent rest

/-- A container around the value that is being skipped. -/
inductive Frame where
  | array
  | object
deriving DecidableEq, Repr

/-- The text from the value of the next member on, whose key stands there. -/
def skipKey (cs : List Char) : Except Fault (List Char) :=
  match skipBlanks cs with
  | [] => .error .truncated
  | '"' :: cs => do colon (← skipString (cs.length + 1) cs)
  | _ => .error .malformed

/-- Leaves the containers that end after a value: what stays around the next value and where it starts, or no container
at all. -/
def leave : List Frame → List Char → Except Fault (List Frame × List Char)
  | [], cs => .ok ([], cs)
  | frame :: frames, cs =>
    match skipBlanks cs, frame with
    | [], _ => .error .truncated
    | ',' :: cs, .array => .ok (.array :: frames, cs)
    | ',' :: cs, .object => do return (.object :: frames, ← skipKey cs)
    | ']' :: cs, .array => leave frames cs
    | '\x7d' :: cs, .object => leave frames cs
    | _ :: _, _ => .error .malformed

/-- Steps over one value inside the given containers, and over all that follows up to the end of the outermost. -/
def skipWithin : Nat → List Frame → List Char → Except Fault (List Char)
  | 0, _, _ => .error .truncated
  | limit + 1, frames, cs =>
    let resume (rest : Except Fault (List Char)) : Except Fault (List Char) := do
      match ← leave frames (← rest) with
      | ([], cs) => return cs
      | (frames, cs) => skipWithin limit frames cs
    match skipBlanks cs with
    | [] => .error .truncated
    | 'n' :: cs => resume (expectWord ['u', 'l', 'l'] cs)
    | 't' :: cs => resume (expectWord ['r', 'u', 'e'] cs)
    | 'f' :: cs => resume (expectWord ['a', 'l', 's', 'e'] cs)
    | '-' :: cs => resume (skipNumber cs)
    | '"' :: cs => resume (skipString (cs.length + 1) cs)
    | '[' :: cs =>
      match skipBlanks cs with
      | [] => .error .truncated
      | ']' :: cs => resume (.ok cs)
      | cs => skipWithin limit (.array :: frames) cs
    | '\x7b' :: cs =>
      match skipBlanks cs with
      | [] => .error .truncated
      | '\x7d' :: cs => resume (.ok cs)
      | cs => do skipWithin limit (.object :: frames) (← skipKey cs)
    | c :: cs => if c.isDigit then resume (skipNumber (c :: cs)) else .error .malformed

/-- The text after a value of any kind. -/
def skip (cs : List Char) : Except Fault (List Char) :=
  skipWithin (cs.length + 1) [] cs

/-! ## Whole texts -/

/-- Reads a whole text: after the value only blanks may follow. -/
def whole {α : Type} (reader : List Char → Except Fault (α × List Char)) (text : String) : Except Fault α := do
  let (a, rest) ← reader text.toList
  if (skipBlanks rest).isEmpty then return a else .error .malformed

end RuleWalk.Json.Reader

namespace RuleWalk.Json

/-- Reads a whole text as one value. -/
def read (text : String) : Except Reader.Fault Json :=
  Reader.whole (Reader.value Reader.nestingLimit) text

end RuleWalk.Json
