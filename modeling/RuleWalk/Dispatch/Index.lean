import RuleWalk.Order
import RuleWalk.Selector.Cache
import RuleWalk.Selector.Match

/-!
# The selector index

Registered patterns are filed by direction and by the types they can match, so that a visit only looks at the patterns
for its node's type and at those for any type. Every bucket is sorted by specificity, and a visit merges the two that
concern it. What matches is then ordered by the rank of the owner; emissions of one owner keep their specificity order.
-/

namespace RuleWalk

/-- A listener that a rule registers under the text of a pattern. -/
structure Registration (L : Type) where
  selector : String
  owner : String
  listener : L

/-- A listener whose pattern has matched, with the rank of its owner; an owner outside the delivery order has none. -/
structure Emission (L : Type) where
  owner : String
  selector : String
  listener : L
  rank : Option Nat

/-- The emission does not come after the other: owners with a rank come first, in order. -/
def Emission.le {L : Type} (a b : Emission L) : Bool :=
  match a.rank, b.rank with
  | some m, some n => m ≤ n
  | none, some _ => false
  | _, none => true

/-- The patterns of one direction: by lowered type name, and those that can match any type. -/
structure Buckets where
  typed : List (String × List Pattern) := []
  untyped : List Pattern := []

namespace Buckets

/-- The patterns filed under a type name. -/
def under (b : Buckets) (type : String) : List Pattern :=
  (b.typed.lookup type).getD []

/-- Files a pattern under each type it can match, or under none if it can match any. -/
def file (b : Buckets) (p : Pattern) : Buckets :=
  match p.types with
  | none => { b with untyped := b.untyped ++ [p] }
  | some types => types.foldl (fun b type => { b with typed := Assoc.insert type (b.under type ++ [p]) b.typed }) b

/-- The same patterns with every bucket sorted by specificity. -/
def sort (b : Buckets) : Buckets where
  typed := b.typed.map fun (type, patterns) => (type, patterns.mergeSort Pattern.le)
  untyped := b.untyped.mergeSort Pattern.le

/-- The patterns that concern a node, in order of specificity. -/
def candidates (b : Buckets) (node : Tree) : List Pattern :=
  List.merge (b.under (Text.lower node.name)) b.untyped Pattern.le

end Buckets

/-- Patterns filed for lookup, and the listeners of each pattern text. -/
structure SelectorIndex (L : Type) where
  enter : Buckets := {}
  leave : Buckets := {}
  listeners : List (String × List (Emission L)) := []

namespace SelectorIndex

variable {L : Type}

/-- The buckets of a direction. -/
def buckets (index : SelectorIndex L) : Direction → Buckets
  | .enter => index.enter
  | .leave => index.leave

/-- The listeners of a pattern text in order of registration. -/
def listenersOf (index : SelectorIndex L) (raw : String) : List (Emission L) :=
  (index.listeners.lookup raw).getD []

/-- The number of distinct pattern texts. -/
def size (index : SelectorIndex L) : Nat :=
  index.listeners.length

/-- Files a pattern in the buckets of its direction. -/
def file (index : SelectorIndex L) (p : Pattern) : SelectorIndex L :=
  match p.direction with
  | .enter => { index with enter := index.enter.file p }
  | .leave => { index with leave := index.leave.file p }

/-- Adds a listener under its pattern text. -/
def listen (index : SelectorIndex L) (raw : String) (emission : Emission L) : SelectorIndex L :=
  { index with listeners := Assoc.insert raw (index.listenersOf raw ++ [emission]) index.listeners }

/-- Adds a registration; a pattern text is read and filed the first time it comes. -/
def register (order : DeliveryOrder) (state : SelectorIndex L × PatternCache) (r : Registration L) :
    Except ParseError (SelectorIndex L × PatternCache) :=
  let (index, cache) := state
  let heard := index.listen r.selector ⟨r.owner, r.selector, r.listener, order.rank? r.owner⟩
  if (index.listenersOf r.selector).isEmpty then
    match cache.parse r.selector with
    | (.ok cached, cache) => .ok (heard.file cached.pattern, cache)
    | (.error e, _) => .error e
  else .ok (heard, cache)

/-- The index of a list of registrations, and the cache after reading their patterns. -/
def build (order : DeliveryOrder) (cache : PatternCache) (registrations : List (Registration L)) :
    Except ParseError (SelectorIndex L × PatternCache) := do
  let (index, cache) ← registrations.foldlM (register order) ({}, cache)
  return ({ index with enter := index.enter.sort, leave := index.leave.sort }, cache)

/-- The listeners of the patterns that match a node, pattern by pattern. -/
def collect (index : SelectorIndex L) (node : Tree) (ancestry : List Tree) :
    List Pattern → Except MatchError (List (Emission L))
  | [] => .ok []
  | p :: rest => do
    if ← p.selector.matchesAt node ancestry then
      return index.listenersOf p.raw ++ (← collect index node ancestry rest)
    else collect index node ancestry rest

/-- The emissions for a visit of a node in the order of delivery. -/
def emissions (index : SelectorIndex L) (direction : Direction) (node : Tree) (ancestry : List Tree) :
    Except MatchError (List (Emission L)) := do
  let found ← index.collect node ancestry ((index.buckets direction).candidates node)
  return found.mergeSort Emission.le

end SelectorIndex

end RuleWalk
