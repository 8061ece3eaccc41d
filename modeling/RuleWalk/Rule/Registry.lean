import RuleWalk.Dict
import RuleWalk.Rule.Module

/-!
# The rule registry

A registry knows rules by id. Bundled rules are only loaded when they are first asked for; rules defined by the user stand
in front of bundled ones of the same id.
-/

namespace RuleWalk

/-- A bundled rule that may not be loaded yet. Loading it leaves notes. -/
structure Bundled (K : Type) [Kinds K] (Note : Type) where
  id : String
  module : RuleModule K Note
  notes : List Note := []
  loaded : Bool := false

/-- Bundled rules in the order of their latest definition, user rules by name, and the names of the user rules in the order of
their first definition. -/
structure Registry (K : Type) [Kinds K] (Note : Type) where
  bundled : List (Bundled K Note) := []
  user : Dict String (RuleModule K Note) := .empty
  order : List String := []

namespace Registry

variable {K : Type} [Kinds K] {Note : Type}

/-- The bundled rule of an id. -/
def bundledRule? (r : Registry K Note) (id : String) : Option (Bundled K Note) :=
  r.bundled.find? (·.id == id)

/-- Defines a user rule; it takes the place of an earlier one of the same name, and only a new name is put in the order. -/
def define (r : Registry K Note) (m : RuleModule K Note) : Registry K Note :=
  { r with
    user := r.user.insert m.name m
    order := if r.user.contains m.name then r.order else r.order ++ [m.name] }

/-- Defines a bundled rule, not loaded; an earlier one of the same id is dropped. -/
def bundle (r : Registry K Note) (id : String) (m : RuleModule K Note) (notes : List Note) : Registry K Note :=
  { r with bundled := r.bundled.filter (·.id != id) ++ [{ id, module := m, notes }] }

/-- The rule of an id, whether it is loaded or not. -/
def find? (r : Registry K Note) (id : String) : Option (RuleModule K Note) :=
  match r.user.find? id with
  | some m => some m
  | none => (r.bundledRule? id).map (·.module)

/-- Loads the rule of an id if it is bundled, not in the shadow of a user rule and not loaded yet; gives the notes of
loading it. -/
def load (r : Registry K Note) (id : String) : Registry K Note × List Note :=
  if r.user.contains id then (r, [])
  else match r.bundledRule? id with
    | none => (r, [])
    | some b =>
      if b.loaded then (r, [])
      else ({ r with bundled := r.bundled.map fun b => if b.id == id then { b with loaded := true } else b }, b.notes)

/-- Loads rules one after the other. -/
def loadAll (r : Registry K Note) : List String → Registry K Note × List Note
  | [] => (r, [])
  | id :: rest =>
    let (r, notes) := r.load id
    let (r, more) := r.loadAll rest
    (r, notes ++ more)

/-- Asks for a rule, which loads it. -/
def get (r : Registry K Note) (id : String) : Option (RuleModule K Note) × Registry K Note × List Note :=
  (r.find? id, r.load id)

/-- Whether there is a rule of an id. -/
def contains (r : Registry K Note) (id : String) : Bool :=
  r.user.contains id || (r.bundledRule? id).isSome

/-- Whether the rule of an id is loaded; a user rule always is. -/
def isLoaded (r : Registry K Note) (id : String) : Bool :=
  r.user.contains id || r.bundled.any fun b => b.id == id && b.loaded

/-- All ids: the bundled rules, then the user rules that are not bundled. -/
def ids (r : Registry K Note) : List String :=
  let bundled := r.bundled.map (·.id)
  bundled ++ r.order.filter fun id => !bundled.contains id

/-- The number of definitions that count. -/
def size (r : Registry K Note) : Nat :=
  r.bundled.length + r.user.size

/-- A registry for people to read. -/
def outline (r : Registry K Note) : String :=
  "RuleRegistry \x7b rules: " ++ RuleModule.listOutline r.ids ++ " \x7d"

end Registry

end RuleWalk
