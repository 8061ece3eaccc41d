import RuleWalk.Selector.Pattern
import RuleWalk.Tree.Basic
import RuleWalk.State.Value

/-!
# State instances and their freshness

An instance holds a value, the configuration it was made with, and marks that tell a reader how fresh the value is: when
it was last written during the visit of the current node, and during the visit of the nearest ancestor that wrote it. The
marks are worked out from a history of writes, which keeps only nodes on the path to the current one.
-/

namespace RuleWalk

/-- When a value was written, seen from a node's visit. -/
inductive Visit where
  | stale
  | onEntry
  | onExit
deriving DecidableEq, Repr

/-- The mark of a write made on the way into or out of a node. -/
def Direction.visit : Direction → Visit
  | .enter => .onEntry
  | .leave => .onExit

/-- One instance of a rule's state. -/
structure RuleState (K : Type) [Kinds K] where
  value : StateValue K
  config : Json
  current : Visit := .stale
  ancestor : Visit := .stale
  /-- The nodes that wrote the value, the latest first, with the mark of their last write. -/
  history : List (NodeId × Visit) := []

namespace RuleState

variable {K : Type} [Kinds K]

/-- A new instance, never written. -/
def fresh (value : StateValue K) (config : Json) : RuleState K := { value, config }

/-- The history after a write: a node that was also the last to write only changes its mark. -/
def recordWrite (node : NodeId) (visit : Visit) : List (NodeId × Visit) → List (NodeId × Visit)
  | [] => [(node, visit)]
  | (last, mark) :: earlier =>
    if last = node then (node, visit) :: earlier else (node, visit) :: (last, mark) :: earlier

/-- Replaces a value of the given kind, and tells whether it was of that kind. The value is taken out for the reducer; one of
another kind is put back. -/
def apply (s : RuleState K) (k : K) (f : Carrier k → Carrier k) (node : NodeId) (visit : Visit) : Bool × RuleState K :=
  let taken := s.value
  let s : RuleState K := { s with value := .blank }
  match taken.as? k with
  | some old =>
    (true, { s with value := ⟨k, f old⟩, current := visit, history := recordWrite node visit s.history })
  | none => (false, { s with value := taken })

/-- The marks for the visit of a node below the given ancestors, nearest first. -/
def refresh (s : RuleState K) (node : NodeId) (ancestors : List NodeId) : RuleState K :=
  let history := s.history.filter fun (id, _) => id == node || ancestors.contains id
  { s with
    history := history
    current := (history.lookup node).getD .stale
    ancestor := (ancestors.findSome? fun id => history.lookup id).getD .stale }

/-- The name of a mark. -/
def visitText : Visit → String
  | .stale => "Stale"
  | .onEntry => "OnEntry"
  | .onExit => "OnExit"

end RuleState

end RuleWalk
