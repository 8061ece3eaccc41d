/-!
# Byte offsets

Offsets into a text count UTF-8 bytes. A cut at an offset that falls inside a character, or past the end, does not
exist.
-/

namespace RuleWalk.Text

/-- The number of bytes a text takes. -/
def byteLength : List Char → Nat
  | [] => 0
  | c :: cs => c.utf8Size + byteLength cs

/-- The text before a byte offset and the text from it on, when the offset falls between two characters. -/
def cutBytes? : Nat → List Char → Option (List Char × List Char)
  | 0, cs => some ([], cs)
  | _ + 1, [] => none
  | n + 1, c :: cs =>
    if c.utf8Size ≤ n + 1 then
      (cutBytes? (n + 1 - c.utf8Size) cs).map fun (before, after) => (c :: before, after)
    else none

/-- The text between two byte offsets, when both fall between characters and stand in order. -/
def sliceBytes? (start stop : Nat) (cs : List Char) : Option (List Char) :=
  if start ≤ stop then do
    let (_, after) ← cutBytes? start cs
    let (slice, _) ← cutBytes? (stop - start) after
    return slice
  else none

end RuleWalk.Text
