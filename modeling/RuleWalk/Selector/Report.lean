import RuleWalk.Text.Ascii
import RuleWalk.Text.Utf8
import RuleWalk.Selector.Reader

/-!
# Reports on unreadable selectors

A report shows the text with a mark under the place where reading stopped and says what was expected there. For a text
of several lines it shows the line with its number.
-/

namespace RuleWalk.Selector.Reader

/-- The byte offset in `body` at which reading stopped. -/
def Stuck.offset (s : Stuck) (body : List Char) : Nat :=
  Text.byteLength body - Text.byteLength s.rest

/-- The part of `body` in front of the place where reading stopped. -/
def Stuck.before (s : Stuck) (body : List Char) : List Char :=
  body.take (body.length - s.rest.length)

/-- What was expected, in words; nothing if there is nothing to say. -/
def Stuck.expectation (s : Stuck) : String :=
  if s.expected.isEmpty then "" else "expected " ++ Text.joinWith ", " (s.expected.map Expected.text)

/-- The characters after the last line break. -/
def lastLine (cs : List Char) : List Char :=
  (cs.reverse.takeWhile (· != '\n')).reverse

/-- Where the mark goes: the number of line breaks in front of the marked line, and the column of the mark.

The mark stands under the character that could not be read. It counts the characters before it in its line, or their bytes
if that character is not ASCII. At the end of the text it stands one past the last character, in that character's line. -/
def Stuck.place (s : Stuck) (body : List Char) : Nat × Nat :=
  match s.rest with
  | c :: _ =>
    let line := lastLine (s.before body)
    ((s.before body).count '\n', if c.utf8Size = 1 then line.length else Text.byteLength line)
  | [] =>
    let earlier := body.dropLast
    (earlier.count '\n', (lastLine earlier).length + 1)

/-- So many blanks. -/
def blanks (n : Nat) : String :=
  String.ofList (List.replicate n ' ')

/-- The report on a body that could not be read. -/
def Stuck.report (s : Stuck) (body : List Char) : String :=
  if '\n' ∈ body then
    let (line, column) := s.place body
    let number := toString (line + 1)
    let gutter := blanks number.length
    let content := String.ofList ((Text.splitOn '\n' body).getD line [])
    "parse error at line " ++ number ++ ", column " ++ toString (column + 1) ++ "\n" ++
      gutter ++ " |\n" ++
      number ++ " | " ++ content ++ "\n" ++
      gutter ++ " | " ++ blanks column ++ "^\n" ++ s.expectation
  else String.ofList body ++ "\n" ++ blanks (s.offset body) ++ "^\n" ++ s.expectation

end RuleWalk.Selector.Reader
