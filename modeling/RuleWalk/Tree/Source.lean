import RuleWalk.Text.Utf8

/-!
# Source text

A source is a text with the offsets at which its lines start. A position counts lines from one and columns, in bytes,
from zero; an offset past the end lies in the last line.
-/

namespace RuleWalk

/-- A place in a source. -/
structure Position where
  line : Nat
  column : Nat
deriving DecidableEq, Repr

/-- A position as text. -/
def Position.text (p : Position) : String :=
  toString p.line ++ ":" ++ toString p.column

/-- The offsets just after the line breaks of a text that starts at `offset`. -/
def Source.lineBreaks (offset : Nat) : List Char → List Nat
  | [] => []
  | c :: cs =>
    let next := offset + c.utf8Size
    if c = '\n' then next :: Source.lineBreaks next cs else Source.lineBreaks next cs

/-- A text with the offsets of its lines in increasing order; the first is zero. -/
structure Source where
  chars : List Char
  lineStarts : List Nat

namespace Source

/-- The source of a text. -/
def ofText (text : String) : Source where
  chars := text.toList
  lineStarts := 0 :: lineBreaks 0 text.toList

/-- The number of lines. -/
def lineCount (s : Source) : Nat :=
  s.lineStarts.length

/-- The number of bytes. -/
def byteCount (s : Source) : Nat :=
  Text.byteLength s.chars

/-- The position of a byte offset. -/
def position (s : Source) (offset : Nat) : Position :=
  let passed := s.lineStarts.takeWhile (· ≤ offset)
  ⟨passed.length, offset - passed.getLastD 0⟩

/-- The text between two byte offsets; nothing if there is no such stretch of characters. -/
def slice (s : Source) (start stop : Nat) : String :=
  String.ofList ((Text.sliceBytes? start stop s.chars).getD [])

end Source

end RuleWalk
