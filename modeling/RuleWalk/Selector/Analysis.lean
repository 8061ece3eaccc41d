import RuleWalk.Text.Ascii
import RuleWalk.Selector.Basic

/-!
# Static facts about selectors

What a selector says without a tree: how many type names and attribute tests it holds, and which types of node it can
match at all. What stands inside `:has` speaks of other nodes and counts for nothing.
-/

namespace RuleWalk.Selector

mutual

/-- The number of type names. -/
def identifiers : Selector → Nat
  | .any => 0
  | .type _ => 1
  | .compound parts => identifiersIn parts
  | .complex left _ right => left.identifiers + right.identifiers
  | .pseudo .is args => identifiersIn args
  | .pseudo .whereAny args => identifiersIn args
  | .pseudo .not args => identifiersIn args
  | .pseudo .has _ => 0
  | .pseudo (.other _) _ => 0
  | .attribute _ _ => 0

/-- The number of type names in a list of selectors. -/
def identifiersIn : List Selector → Nat
  | [] => 0
  | s :: rest => s.identifiers + identifiersIn rest

end

mutual

/-- The number of attribute tests. -/
def attributes : Selector → Nat
  | .any => 0
  | .type _ => 0
  | .compound parts => attributesIn parts
  | .complex left _ right => left.attributes + right.attributes
  | .pseudo .is args => attributesIn args
  | .pseudo .whereAny args => attributesIn args
  | .pseudo .not args => attributesIn args
  | .pseudo .has _ => 0
  | .pseudo (.other _) _ => 0
  | .attribute _ _ => 1

/-- The number of attribute tests in a list of selectors. -/
def attributesIn : List Selector → Nat
  | [] => 0
  | s :: rest => s.attributes + attributesIn rest

end

/-- The list without repetitions, each text where it stands first. -/
def distinct (texts : List String) : List String :=
  texts.foldl (fun found t => if found.contains t then found else found ++ [t]) []

/-- The types allowed by every constrained part; no constraint if no part has one. -/
def typesInAll : List (Option (List String)) → Option (List String)
  | [] => none
  | none :: rest => typesInAll rest
  | some types :: rest =>
    some ((rest.filterMap id).foldl (fun found ts => found.filter ts.contains) (distinct types))

/-- The types allowed by some part; no constraint if a part has none. -/
def typesInAny (parts : List (Option (List String))) : Option (List String) :=
  (parts.mapM id).map fun lists => distinct lists.flatten

mutual

/-- The lowered names of the types a matching node can have; none if it can have any. -/
def types : Selector → Option (List String)
  | .any => none
  | .type name => some [Text.lower name]
  | .compound parts => typesInAll (typesOf parts)
  | .complex _ _ right => right.types
  | .pseudo .is args => typesInAny (typesOf args)
  | .pseudo .whereAny args => typesInAny (typesOf args)
  | .pseudo .not _ => none
  | .pseudo .has _ => none
  | .pseudo (.other _) _ => none
  | .attribute _ _ => none

/-- The types of each selector of a list. -/
def typesOf : List Selector → List (Option (List String))
  | [] => []
  | s :: rest => s.types :: typesOf rest

end

end RuleWalk.Selector
