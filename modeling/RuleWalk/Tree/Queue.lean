import RuleWalk.Text.Quoted
import RuleWalk.Selector.Pattern
import RuleWalk.Tree.Basic

/-!
# The traversal queue

A tree is walked once, in document order: every node is entered, then everything below it is visited, then it is left.
The steps are laid out beforehand from a stack of those that are still to come, so that the depth of a tree costs nothing.
-/

namespace RuleWalk

/-- One event of a traversal; only the root has no parent. -/
structure Step where
  direction : Direction
  node : Tree
  parent : Option Tree

namespace Step

/-- The name of a direction. -/
def directionText : Direction → String
  | .enter => "Enter"
  | .leave => "Leave"

/-- A step for people to read. -/
def outline (s : Step) : String :=
  let parent := match s.parent with
    | some p => "Some(" ++ Text.quoted p.name ++ ")"
    | none => "None"
  "Step \x7b direction: " ++ directionText s.direction ++ ", node: " ++ Text.quoted s.node.name ++ ", parent: " ++
    parent ++ " \x7d"

/-- The steps that a step puts on the stack: entering a node asks for its children and then for leaving it. -/
def successors (s : Step) : List Step :=
  match s.direction with
  | .leave => []
  | .enter => s.node.children.map (fun child => ⟨.enter, child, some s.node⟩) ++ [{ s with direction := .leave }]

/-- The steps that follow from a stack of pending ones, `limit` at most. -/
def drain : Nat → List Step → List Step
  | 0, _ => []
  | _ + 1, [] => []
  | limit + 1, step :: pending => step :: drain limit (step.successors ++ pending)

end Step

/-- All steps of the traversal of a tree: two for every node. -/
def Tree.queue (root : Tree) : List Step :=
  Step.drain (2 * root.size) [⟨.enter, root, none⟩]

end RuleWalk
