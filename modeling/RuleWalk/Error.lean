import RuleWalk.Order
import RuleWalk.Selector.Pattern
import RuleWalk.Selector.Match
import RuleWalk.State.Table

/-!
# Errors of a run

Everything that can stop the setup of an engine or a run of it, by cause, and the words for each.
-/

namespace RuleWalk

/-- A rule that is not where it is looked for. -/
inductive ConfigError where
  | unknownRule (rule group : String)
  | notInGroup (requested group : String)
  | notADependency (requested rule : String)
  | missingDependencyState (requested group : String)
deriving DecidableEq, Repr

/-- The words for a rule that is not where it is looked for. -/
def ConfigError.message : ConfigError → String
  | .unknownRule rule group =>
    "the rule '" ++ rule ++ "', declared as part of the group '" ++ group ++ "', could not be found"
  | .notInGroup requested group =>
    "cannot retrieve requested rule state '" ++ requested ++ "': it is not a part of the group '" ++ group ++ "'"
  | .notADependency requested rule =>
    "cannot retrieve requested rule state '" ++ requested ++ "': it is not declared as a dependency of '" ++ rule ++ "'"
  | .missingDependencyState requested group =>
    "no state was initialized for dependency '" ++ requested ++ "' in group '" ++ group ++ "'"

/-- What stops an engine. -/
inductive EngineError where
  | parse (e : ParseError)
  | unmatchable (e : MatchError)
  | dependency (e : DependencyError)
  | config (e : ConfigError)
  | state (e : StateError)
  /-- The visitors of an instance could not be made. -/
  | load (tag : StateTag) (reason : String)
  /-- A visitor gave up. -/
  | visitor (tag : StateTag) (reason : String)
deriving DecidableEq, Repr

/-- The words for what stops an engine. -/
def EngineError.message : EngineError → String
  | .parse e => e.message
  | .unmatchable e => e.message
  | .dependency e => e.message
  | .config e => e.message
  | .state e => e.message
  | .load tag _ => "failed to load rule '" ++ tag.text ++ "'"
  | .visitor tag reason => "rule '" ++ tag.text ++ "' failed: " ++ reason

end RuleWalk
