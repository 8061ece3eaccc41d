import RuleWalk.Json.Printer
import RuleWalk.Rule.Script

/-!
# Rule modules

A rule module declares a rule: its name, the rules it depends on, its configuration when none is given, the state it
starts with, and its visitors. Some visitors are only known with the configuration: a factory adds them to those that
are always there, or gives a reason why it cannot.
-/

namespace RuleWalk

/-- What a factory gives: its notes, and all visitors of the instance or the reason why there are none. -/
structure Build (K : Type) [Kinds K] (Note : Type) where
  notes : List Note
  visitors : Except String (List (Visitor K Note))

/-- A rule. -/
structure RuleModule (K : Type) [Kinds K] (Note : Type) where
  name : String
  dependencies : List String := []
  config : Json := .null
  initial : StateValue K
  visitors : List (Visitor K Note) := []
  /-- Makes the visitors of an instance from its configuration and the visitors that are always there. -/
  factory : Option (Json → List (Visitor K Note) → Build K Note) := none

namespace RuleModule

variable {K : Type} [Kinds K] {Note : Type}

/-- The visitors of an instance with the given configuration. -/
def build (m : RuleModule K Note) (config : Json) : Build K Note :=
  match m.factory with
  | some factory => factory config m.visitors
  | none => ⟨[], .ok m.visitors⟩

/-- Texts in quotes between brackets. -/
def listOutline (texts : List String) : String :=
  "[" ++ Text.joinWith ", " (texts.map Text.quoted) ++ "]"

/-- A module for people to read. -/
def outline (m : RuleModule K Note) : String :=
  "RuleModule \x7b name: " ++ Text.quoted m.name ++ ", dependencies: " ++ listOutline m.dependencies ++
    ", default_config: " ++ m.config.outline ++ ", selectors: " ++ listOutline (m.visitors.map (·.selector)) ++
    ", has_factory: " ++ (if m.factory.isSome then "true" else "false") ++ " \x7d"

end RuleModule

end RuleWalk
