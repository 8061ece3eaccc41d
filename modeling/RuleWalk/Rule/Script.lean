import RuleWalk.Diagnostic
import RuleWalk.Error

/-!
# Visitors

A visitor is called with the scene of a visit and answers with a script: a finite tree of requests to the engine, each
followed by what to do with the answer. So a visitor can read and replace its own state, ask for the state of another
rule, report, and stop the run, and nothing else. Along the way a script may leave notes of type `Note`, which the engine
only collects.
-/

namespace RuleWalk

/-- What a visitor sees of a visit. -/
structure Scene where
  /-- The instance the visitor works for. -/
  tag : StateTag
  /-- The groups that run the instance. -/
  groups : List String
  config : Json
  visit : Visit
  node : Tree
  /-- The ancestors of the node, nearest first. -/
  ancestors : List Tree
  source : Source

/-- The source text of the node, from the start of its first range to the end of its last. -/
def Scene.nodeText (s : Scene) : String :=
  match s.node.ranges.head?, s.node.ranges.getLast? with
  | some first, some last => s.source.slice first.start last.stop
  | _, _ => ""

/-- The state of another rule as a visitor sees it. -/
structure External {K : Type} [Kinds K] (k : K) where
  value : Carrier k
  shared : Bool
  current : Visit
  ancestor : Visit

/-- What a visitor does, request by request. -/
inductive Script (K : Type) [Kinds K] (Note : Type) where
  /-- All is done. -/
  | done
  /-- Stops the run. -/
  | fail (e : EngineError)
  /-- Reads the instance's own state. -/
  | read (k : K) (next : Except EngineError (Carrier k) → Script K Note)
  /-- Replaces the instance's own state. -/
  | update (k : K) (f : Carrier k → Carrier k) (next : Except EngineError Unit → Script K Note)
  /-- Reads the state of another rule. -/
  | request (rule : String) (k : K) (next : Except EngineError (External k) → Script K Note)
  /-- Reports something about a node. -/
  | report (severity : Severity) (node : Tree) (message : String) (next : Script K Note)
  /-- Leaves a note. -/
  | note (n : Note) (next : Script K Note)

/-- Ends a script with a result. -/
def Script.finish {K : Type} [Kinds K] {Note : Type} : Except EngineError Unit → Script K Note
  | .ok () => .done
  | .error e => .fail e

/-- What a rule does at the nodes that a selector describes. -/
structure Visitor (K : Type) [Kinds K] (Note : Type) where
  selector : String
  script : Scene → Script K Note

end RuleWalk
