import RuleWalk.Text.Ascii

/-!
# Delivery order

Rules name the rules they depend on. The delivery order is a total order in which every rule comes after all it depends
on. It is the reversed order in which a depth-first walk along the dependents finishes; ties go by the listing.
-/

namespace RuleWalk

/-- Rules in listing order, each with the rules it depends on. A rule may be listed more than once. -/
abbrev Graph := List (String × List String)

/-- Why a graph has no delivery order. -/
inductive DependencyError where
  /-- Each rule of the path is a dependency of the next, and the last is the first. -/
  | cyclic (path : List String)
  | missing (rule dependency : String)
deriving DecidableEq, Repr

/-- The words for a graph without delivery order. -/
def DependencyError.message : DependencyError → String
  | .cyclic path => "cyclic dependency detected: " ++ Text.joinWith " -> " path
  | .missing rule dependency => "rule '" ++ rule ++ "' depends on '" ++ dependency ++ "', which could not be found"

/-- Rules in the order of delivery. -/
structure DeliveryOrder where
  ids : List String
deriving DecidableEq, Repr

/-- The place of a rule in the order. -/
def DeliveryOrder.rank? (order : DeliveryOrder) (id : String) : Option Nat :=
  order.ids.idxOf? id

namespace Graph

/-- The listed rules. -/
def ids (g : Graph) : List String :=
  g.map Prod.fst

/-- The rules that depend on a rule, in listing order, once for every time they say so. -/
def dependents (g : Graph) (id : String) : List String :=
  g.flatMap fun (rule, dependencies) => (dependencies.filter (· == id)).map fun _ => rule

/-- The first dependency that is not listed, with the rule that names it. -/
def missing? (g : Graph) : Option (String × String) :=
  g.findSome? fun (rule, dependencies) => (dependencies.find? fun d => !g.ids.contains d).map fun d => (rule, d)

/-- The part of a path, nearest first, that leads from a rule on it back to that rule. -/
def cycleTo (id : String) (path : List String) : List String :=
  id :: (path.takeWhile (· != id)).reverse ++ [id]

/-- Walks from a rule to all that depend on it, last dependent first, and puts each rule in front of those finished before
it. A rule met on the path to itself closes a cycle. Paths are shorter than `depth`. -/
def visit (g : Graph) : (depth : Nat) → (path finished : List String) → (id : String) →
    Except (List String) (List String)
  | 0, _, finished, _ => .ok finished
  | depth + 1, path, finished, id =>
    if finished.contains id then .ok finished
    else if path.contains id then .error (cycleTo id path)
    else
      match (g.dependents id).reverse.foldlM (visit g depth (id :: path)) finished with
      | .ok finished => .ok (id :: finished)
      | .error cycle => .error cycle

/-- The delivery order of a graph. -/
def resolve (g : Graph) : Except DependencyError DeliveryOrder :=
  match g.missing? with
  | some (rule, dependency) => .error (.missing rule dependency)
  | none =>
    match g.ids.reverse.foldlM (visit g (g.length + 1) []) [] with
    | .ok finished => .ok ⟨finished⟩
    | .error cycle => .error (.cyclic cycle)

end Graph

end RuleWalk
