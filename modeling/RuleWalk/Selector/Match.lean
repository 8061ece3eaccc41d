import RuleWalk.Selector.Basic
import RuleWalk.Selector.Attribute

/-!
# Matching

Whether a node satisfies a selector, given its ancestors. Parts are evaluated from the right side of a chain to the left
and from the first alternative to the last, no further than needed, so a construct that cannot be evaluated only counts
where it is reached.
-/

namespace RuleWalk

/-- A construct that cannot be evaluated. -/
inductive MatchError where
  | combinator (c : Combinator)
  | pseudoClass (name : String)
  | operator (symbol : String)
deriving DecidableEq, Repr

/-- The words for a construct that cannot be evaluated. -/
def MatchError.message : MatchError → String
  | .combinator c => "unknown combinator: '" ++ c.symbol ++ "'"
  | .pseudoClass name => "unknown pseudo-class: ':" ++ name ++ "'"
  | .operator symbol => "unknown attribute operator: '" ++ symbol ++ "'"

namespace Selector

/-- A condition on a node and its ancestors that may fail to be evaluated. -/
abbrev Test := Tree → List Tree → Except MatchError Bool

/-- Whether an ancestor passes the test with the ancestors above it; the nearest is asked first. -/
def someAncestor (test : Test) : List Tree → Except MatchError Bool
  | [] => .ok false
  | ancestor :: above =>
    match test ancestor above with
    | .ok false => someAncestor test above
    | verdict => verdict

mutual

/-- Whether a strict descendant passes the test, each with its ancestors as far as `chain` goes. -/
def someDescendant (test : Test) (chain : List Tree) : Tree → Except MatchError Bool
  | .node _ children => someAmong test chain children

/-- Whether one of the trees or a descendant of it passes the test; a node is asked before what is below it. -/
def someAmong (test : Test) (chain : List Tree) : List Tree → Except MatchError Bool
  | [] => .ok false
  | t :: rest =>
    match test t chain with
    | .ok false =>
      match someDescendant test (t :: chain) t with
      | .ok false => someAmong test chain rest
      | verdict => verdict
    | verdict => verdict

end

/-- Whether a node passes an attribute test; without one the attribute only has to be there and not be null. -/
def attributeTest (node : Tree) (path : String) : Option (AttrOp × String) → Except MatchError Bool
  | none => .ok ((node.label.resolve? path).any fun value => !value.isNull)
  | some (op, literal) =>
    let value := node.label.resolve? path
    let order := value.bind (Json.compareLiteral? · literal)
    match op with
    | .eq => .ok (value.any (Json.equalsLiteral · literal))
    | .lt => .ok (order.any Ordering.isLT)
    | .le => .ok (order.any Ordering.isLE)
    | .gt => .ok (order.any Ordering.isGT)
    | .ge => .ok (order.any Ordering.isGE)
    | .other symbol => .error (.operator symbol)

mutual

/-- Whether a node with the given ancestors, nearest first, satisfies the selector. -/
def matchesAt : Selector → Tree → List Tree → Except MatchError Bool
  | .any, _, _ => .ok true
  | .type name, node, _ => .ok (Text.sameName name node.name)
  | .compound parts, node, ancestry => matchesAll parts node ancestry
  | .complex left .child right, node, ancestry =>
    match right.matchesAt node ancestry with
    | .ok true =>
      match ancestry with
      | [] => .ok false
      | parent :: above => left.matchesAt parent above
    | verdict => verdict
  | .complex left .descendant right, node, ancestry =>
    match right.matchesAt node ancestry with
    | .ok true => someAncestor left.matchesAt ancestry
    | verdict => verdict
  | .complex _ .adjacent _, _, _ => .error (.combinator .adjacent)
  | .complex _ .sibling _, _, _ => .error (.combinator .sibling)
  | .pseudo .is args, node, ancestry => matchesAny args node ancestry
  | .pseudo .whereAny args, node, ancestry => matchesAny args node ancestry
  | .pseudo .not args, node, ancestry => (matchesAny args node ancestry).map not
  | .pseudo .has args, node, _ => someDescendant (matchesAny args) [] node
  | .pseudo (.other name) _, _, _ => .error (.pseudoClass name)
  | .attribute path test, node, _ => attributeTest node path test

/-- Whether a node satisfies every selector of a list; the first that it does not satisfy settles it. -/
def matchesAll : List Selector → Tree → List Tree → Except MatchError Bool
  | [], _, _ => .ok true
  | s :: rest, node, ancestry =>
    match s.matchesAt node ancestry with
    | .ok true => matchesAll rest node ancestry
    | verdict => verdict

/-- Whether a node satisfies some selector of a list; the first that it satisfies settles it. -/
def matchesAny : List Selector → Tree → List Tree → Except MatchError Bool
  | [], _, _ => .ok false
  | s :: rest, node, ancestry =>
    match s.matchesAt node ancestry with
    | .ok false => matchesAny rest node ancestry
    | verdict => verdict

end

end Selector

end RuleWalk
