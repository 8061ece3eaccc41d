import RuleWalk.Json.Value

/-!
# Groups and configuration

A group is a named bundle of rules that run together. A configuration has a base bucket of rule entries and, for each
group, a bucket of entries of its own. A rule's configuration is layered: what the rule declares, then its base entry,
then its entry in the group, where objects are merged key by key and anything else is replaced.
-/

namespace RuleWalk

/-- A named bundle of rules. -/
structure Group where
  id : String
  rules : List String
deriving DecidableEq, Repr

/-- Whether the group lists a rule. -/
def Group.lists (g : Group) (rule : String) : Bool :=
  g.rules.contains rule

/-- Entries by rule. -/
abbrev Bucket := List (String × Json)

/-- The entries that apply everywhere and those of each group. -/
structure Config where
  base : Bucket := []
  groups : List (String × Bucket) := []

namespace Config

/-- The configuration without entries. -/
def empty : Config := {}

/-- The bucket of a group; a group without one has an empty one. -/
def bucket (c : Config) (group : String) : Bucket :=
  (c.groups.lookup group).getD []

/-- The entry of a rule in a group's bucket. -/
def override? (c : Config) (group rule : String) : Option Json :=
  (c.bucket group).lookup rule

/-- Sets the base entry of a rule. -/
def withBase (c : Config) (rule : String) (entry : Json) : Config :=
  { c with base := Assoc.insert rule entry c.base }

/-- Sets the entry of a rule for one group. -/
def withOverride (c : Config) (group rule : String) (entry : Json) : Config :=
  { c with groups := Assoc.insert group (Assoc.insert rule entry (c.bucket group)) c.groups }

/-- Whether a group has an entry of its own for a rule. -/
def overrides (c : Config) (group rule : String) : Bool :=
  (c.override? group rule).isSome

/-- A value with a layer over it, if there is one. -/
def layer (value : Json) : Option Json → Json
  | some entry => value.overlay entry
  | none => value

/-- The configuration of a rule in a group over what the rule declares. -/
def resolve (c : Config) (group rule : String) (declared : Json) : Json :=
  layer (layer declared (c.base.lookup rule)) (c.override? group rule)

end Config

end RuleWalk
