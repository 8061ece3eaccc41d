import RuleWalk.Selector.Analysis
import RuleWalk.Selector.Report

/-!
# Patterns

A pattern is a selector as a rule registers it: a text, which may end in `:exit` to ask for the moment of leaving a node,
with all that is known of it before any tree is seen. Patterns are ordered by specificity: fewer attribute tests first,
then fewer type names, then the text itself.
-/

namespace RuleWalk

/-- The moment of a visit: on the way into a node or out of it. -/
inductive Direction where
  | enter
  | leave
deriving DecidableEq, Repr

/-- A selector text with what has been read from it. -/
structure Pattern where
  raw : String
  direction : Direction
  selector : Selector
  types : Option (List String)
  attributes : Nat
  identifiers : Nat
deriving DecidableEq

/-- A text that is no pattern, with the place where reading its selector stopped. -/
structure ParseError where
  raw : String
  body : List Char
  stuck : Selector.Reader.Stuck
deriving DecidableEq, Repr

/-- The words for an unreadable pattern. -/
def ParseError.message (e : ParseError) : String :=
  "invalid selector '" ++ e.raw ++ "': " ++ e.stuck.report e.body

namespace Pattern

/-- The mark of a pattern for leaving a node. -/
def exitMark : List Char := ":exit".toList

/-- The selector part of a pattern text and the direction it asks for. -/
def bodyOf (raw : String) : List Char × Direction :=
  match Text.stripSuffix? exitMark raw.toList with
  | some body => (body, .leave)
  | none => (raw.toList, .enter)

/-- The pattern of a text and the selector read from it. -/
def ofSelector (raw : String) (direction : Direction) (selector : Selector) : Pattern where
  raw := raw
  direction := direction
  selector := selector
  types := selector.types
  attributes := selector.attributes
  identifiers := selector.identifiers

/-- Reads a pattern. -/
def parse (raw : String) : Except ParseError Pattern :=
  match Selector.read (bodyOf raw).1 with
  | .ok selector => .ok (ofSelector raw (bodyOf raw).2 selector)
  | .error stuck => .error ⟨raw, (bodyOf raw).1, stuck⟩

/-- The order of delivery: by attribute tests, then type names, then text. -/
def specificity (a b : Pattern) : Ordering :=
  (compare a.attributes b.attributes).then ((compare a.identifiers b.identifiers).then (compare a.raw b.raw))

/-- The pattern does not come after the other. -/
def le (a b : Pattern) : Bool :=
  (specificity a b).isLE

end Pattern

end RuleWalk
