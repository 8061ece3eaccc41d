import RuleWalk.Text.Ascii
import RuleWalk.Text.WhiteSpace
import RuleWalk.Number.Numeral
import RuleWalk.Json.Printer
import RuleWalk.Tree.Basic

/-!
# Attribute tests

An attribute is found by a dotted path: the first name asks the node, each further one goes into an object by its key or
into an array by its index. Numbers compare with literals by value, exactly as long as both fit one kind of integer word
and else as doubles. Strings compare by code point. Everything else is only equal to the text it prints as.
-/

namespace RuleWalk

namespace Number

/-- The number as a signed word, if it is one. -/
def signed? : Number → Option Int
  | .int n => if Numeral.fitsSigned n then some n else none
  | .real _ => none

/-- The number as an unsigned word, if it is one. -/
def unsigned? : Number → Option Nat
  | .int n => if Numeral.fitsUnsigned n then some n.toNat else none
  | .real _ => none

/-- The nearest double. -/
def toDouble : Number → Double
  | .int n => .ofInt n
  | .real d => .finite d

/-- How the number stands to a literal, white space around it ignored; nothing if the literal is no number. -/
def compareLiteral? (n : Number) (literal : String) : Option Ordering :=
  let numeral := Text.trim literal.toList
  match n.signed?, Numeral.signed? numeral with
  | some a, some b => some (compare a b)
  | _, _ =>
    match n.unsigned?, Numeral.unsigned? numeral with
    | some a, some b => some (compare a b)
    | _, _ => (Numeral.double? numeral).bind n.toDouble.compare?

end Number

namespace Json

/-- The part of a value that one name of a path leads to. -/
def step? (value : Json) (name : String) : Option Json :=
  match value with
  | .object members => members.lookup name
  | .array items => (Numeral.unsigned? name.toList).bind fun i => items[i]?
  | _ => none

/-- How the value stands to a literal, if it is a number or a string. -/
def compareLiteral? (value : Json) (literal : String) : Option Ordering :=
  match value with
  | .number n => n.compareLiteral? literal
  | .string s => some (compare s literal)
  | _ => none

/-- Whether the value equals a literal: a number by value, or by its text if the literal is no number; a string as it is;
anything else by its text. -/
def equalsLiteral (value : Json) (literal : String) : Bool :=
  match value with
  | .number n =>
    match n.compareLiteral? literal with
    | some order => order.isEq
    | none => n.text == literal
  | .string s => s == literal
  | value => value.text == literal

end Json

/-- The value that a dotted path leads to. -/
def Label.resolve? (l : Label) (path : String) : Option Json :=
  match (Text.splitOn '.' path.toList).map String.ofList with
  | [] => none
  | first :: rest => (l.attribute? first).bind fun value => rest.foldlM Json.step? value

end RuleWalk
