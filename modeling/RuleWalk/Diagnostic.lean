import RuleWalk.Tree.Source
import RuleWalk.State.Tag

/-!
# Diagnostics

What a rule has to say about the source without stopping the run.
-/

namespace RuleWalk

/-- How grave a diagnostic is. -/
inductive Severity where
  | error
  | warning
deriving DecidableEq, Repr

/-- The name of a severity. -/
def Severity.text : Severity → String
  | .error => "error"
  | .warning => "warning"

/-- A message of a rule's instance, with the place it speaks of if there is one. -/
structure Diagnostic where
  tag : StateTag
  severity : Severity
  message : String
  position : Option Position
deriving DecidableEq, Repr

/-- A diagnostic on one line. -/
def Diagnostic.text (d : Diagnostic) : String :=
  let place := match d.position with
    | some p => p.text ++ ": "
    | none => ""
  place ++ d.severity.text ++ " [" ++ d.tag.text ++ "]: " ++ d.message

end RuleWalk
