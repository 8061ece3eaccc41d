import RuleWalk.Dispatch.Dispatcher
import RuleWalk.Rule.Script

/-!
# Running scripts

The world of a run is what scripts act on: the state table, the diagnostics reported so far and the notes left so far. A
script runs for a binding, which says whose state it may write and whose it may read.
-/

namespace RuleWalk

/-- A group that runs an instance, with the rules it lists. -/
structure Membership where
  group : String
  members : List String
deriving DecidableEq, Repr

/-- What an instance is bound to: its tag, the groups that run it, its rule's dependencies and its configuration. -/
structure Binding where
  tag : StateTag
  groups : List Membership
  dependencies : List String
  config : Json

namespace Binding

variable {K : Type} [Kinds K]

/-- The first group that runs the instance. -/
def group (b : Binding) : String :=
  (b.groups.head?.map (·.group)).getD ""

/-- The tag by which the instance may read another rule: both have to run in one group, the first such group decides, and
the rule has to be a declared dependency. -/
def external (b : Binding) (states : StateTable K) (rule : String) : Except EngineError StateTag :=
  match b.groups.find? (·.members.contains rule) with
  | none => .error (.config (.notInGroup rule b.group))
  | some membership =>
    if b.dependencies.contains rule then
      match states.tagFor? rule membership.group with
      | some tag => .ok tag
      | none => .error (.config (.missingDependencyState rule membership.group))
    else .error (.config (.notADependency rule b.tag.rule))

/-- The state of another rule as the instance sees it. -/
def request (b : Binding) (states : StateTable K) (rule : String) (k : K) : Except EngineError (External k) :=
  match b.external states rule with
  | .error e => .error e
  | .ok tag =>
    match states.get tag with
    | .error e => .error (.state e)
    | .ok state =>
      match state.value.as? k with
      | none => .error (.state (.otherKind tag (Kinds.typeName k)))
      | some value => .ok ⟨value, tag.isShared, state.current, state.ancestor⟩

end Binding

/-- What the scripts of a run act on. -/
structure World (K : Type) [Kinds K] (Note : Type) where
  states : StateTable K
  diagnostics : List Diagnostic := []
  notes : List Note := []

/-- The world with the marks of all instances worked out for the visit of a node. -/
def World.refresh {K : Type} [Kinds K] {Note : Type} (w : World K Note) (node : Tree) (ancestry : List Tree) : World K Note :=
  { w with states := w.states.refresh node.id (ancestry.map Tree.id) }

/-- The error of an instance as an error of the engine. -/
def EngineError.liftState {α : Type} : Except StateError α → Except EngineError α
  | .ok a => .ok a
  | .error e => .error (.state e)

/-- Runs a script for a binding. -/
def Script.run {K : Type} [Kinds K] {Note : Type} (b : Binding) (scene : Scene) :
    Script K Note → World K Note → Except (Halt (World K Note) EngineError) (World K Note)
  | .done, w => .ok w
  | .fail e, w => .error ⟨w, e⟩
  | .read k next, w => (next (EngineError.liftState (w.states.read b.tag k))).run b scene w
  | .update k f next, w =>
    let (answer, states) := w.states.update b.tag k f scene.node.id scene.visit
    (next (EngineError.liftState answer)).run b scene { w with states := states }
  | .request rule k next, w => (next (b.request w.states rule k)).run b scene w
  | .report severity node message next, w =>
    let position := node.ranges.head?.map fun range => scene.source.position range.start
    next.run b scene { w with diagnostics := w.diagnostics ++ [⟨b.tag, severity, message, position⟩] }
  | .note n next, w => next.run b scene { w with notes := w.notes ++ [n] }

end RuleWalk
