import RuleWalk.Text.Unprintable
import RuleWalk.Text.Extender

/-!
# Quoted text

A text between double quotes in which everything a reader could not see or could misread is escaped: the quote and the
backslash, the usual controls by a letter, and unprintable characters and grapheme extenders by their code point.
-/

namespace RuleWalk.Text

/-- A code point in lowercase hexadecimal digits without padding. -/
def hexDigits (n : Nat) : List Char :=
  Nat.toDigits 16 n

/-- How one character is written inside quotes. -/
def quoteChar (c : Char) : List Char :=
  if c = '"' then ['\\', '"']
  else if c = '\\' then ['\\', '\\']
  else if c = '\n' then ['\\', 'n']
  else if c = '\r' then ['\\', 'r']
  else if c = '\t' then ['\\', 't']
  else if c.toNat = 0 then ['\\', '0']
  else if isExtender c || isUnprintable c then ['\\', 'u', '\x7b'] ++ hexDigits c.toNat ++ ['\x7d']
  else [c]

/-- The text between double quotes with its escapes. -/
def quoted (s : String) : String :=
  String.ofList ('"' :: s.toList.flatMap quoteChar ++ ['"'])

end RuleWalk.Text
