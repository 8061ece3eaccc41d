import RuleWalk.Json.Value

/-!
# Syntax trees

A tree is a node with its label and its children in document order. Wherever a node is handed on, it is the tree below
it that is handed on, and its ancestors are a list of trees, nearest first.
-/

namespace RuleWalk

/-- A stretch of source text by the byte offsets of its start and of its end. -/
structure Range where
  start : Nat
  stop : Nat
deriving DecidableEq, Repr

/-- What tells nodes apart: a number given to the node, or its own place in the document. -/
inductive NodeId where
  | assigned (n : Nat)
  | intrinsic (ordinal : Nat)
deriving DecidableEq, Repr

/-- What a node carries. Without `attributes` it answers no question about attributes at all. -/
structure Label where
  name : String
  ranges : List Range := []
  attributes : Option (List (String × Json)) := some []
  assigned : Option Nat := none
  /-- The place of the node in document order. -/
  ordinal : Nat := 0
deriving Inhabited

/-- The identity of a node: the number assigned to it if there is one. -/
def Label.id (l : Label) : NodeId :=
  match l.assigned with
  | some n => .assigned n
  | none => .intrinsic l.ordinal

/-- The value of an attribute. The name of the node stands in for an attribute called `name` that is not set. -/
def Label.attribute? (l : Label) (key : String) : Option Json := do
  let members ← l.attributes
  match members.lookup key with
  | some value => some value
  | none => if key = "name" then some (.string l.name) else none

/-- A node with all that is below it. -/
inductive Tree where
  | node (label : Label) (children : List Tree)
deriving Inhabited

namespace Tree

/-- What the node carries. -/
def label : Tree → Label
  | .node label _ => label

/-- The children of the node in document order. -/
def children : Tree → List Tree
  | .node _ children => children

/-- The type name of the node. -/
def name (t : Tree) : String :=
  t.label.name

/-- The ranges of source text the node covers. -/
def ranges (t : Tree) : List Range :=
  t.label.ranges

/-- The identity of the node. -/
def id (t : Tree) : NodeId :=
  t.label.id

mutual

/-- The number of nodes. -/
def size : Tree → Nat
  | .node _ children => sizeAll children + 1

/-- The number of nodes of all trees of a list. -/
def sizeAll : List Tree → Nat
  | [] => 0
  | t :: rest => t.size + sizeAll rest

end

mutual

/-- The nodes in document order, each with its ancestors, nearest first. -/
def places (ancestors : List Tree) : Tree → List (Tree × List Tree)
  | .node label children =>
    (.node label children, ancestors) :: placesAll (.node label children :: ancestors) children

/-- The nodes of all trees of a list in document order, each with its ancestors. -/
def placesAll (ancestors : List Tree) : List Tree → List (Tree × List Tree)
  | [] => []
  | t :: rest => t.places ancestors ++ placesAll ancestors rest

end

/-- The nodes in document order. -/
def nodes (t : Tree) : List Tree :=
  (t.places []).map Prod.fst

mutual

/-- The tree with its nodes numbered in document order from `next` on, and the first number that is left. -/
def numberFrom (next : Nat) : Tree → Tree × Nat
  | .node label children =>
    let (children, after) := numberAll (next + 1) children
    (.node { label with ordinal := next } children, after)

/-- The trees of a list numbered one after the other. -/
def numberAll (next : Nat) : List Tree → List Tree × Nat
  | [] => ([], next)
  | t :: rest =>
    let (t, next) := numberFrom next t
    let (rest, next) := numberAll next rest
    (t :: rest, next)

end

/-- The tree with its nodes numbered from zero in document order. -/
def numbered (t : Tree) : Tree :=
  (t.numberFrom 0).1

end Tree

end RuleWalk
