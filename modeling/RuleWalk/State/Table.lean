import RuleWalk.Dict
import RuleWalk.Json.Printer
import RuleWalk.State.Tag
import RuleWalk.State.Instance

/-!
# The state table

The instances of a run. Those that groups share are kept by rule, and the private ones by group and then by rule. An instance is
initialised once; asking for it again either finds it as it is or is refused.
-/

namespace RuleWalk

/-- What can go wrong with an instance. -/
inductive StateError where
  | duplicate (tag : StateTag)
  | missing (tag : StateTag)
  | malformedTag (text : String)
  /-- The value is not of the kind that goes by this name. -/
  | otherKind (tag : StateTag) (expected : String)
deriving DecidableEq, Repr

/-- The words for what went wrong with an instance. -/
def StateError.message : StateError → String
  | .duplicate tag => "cannot initialize existing state '" ++ tag.text ++ "'"
  | .missing tag => "no state has been initialized for '" ++ tag.text ++ "'"
  | .malformedTag text => "malformed state tag '" ++ text ++ "'"
  | .otherKind tag expected => "state '" ++ tag.text ++ "' does not hold a value of type " ++ expected

/-- Reads the text of a tag. -/
def StateTag.parse (text : String) : Except StateError StateTag :=
  match ofChars? text.toList with
  | some tag => .ok tag
  | none => .error (.malformedTag text)

variable {K : Type} [Kinds K]

/-- An instance for people to read. -/
def RuleState.outline (s : RuleState K) : String :=
  "RuleState \x7b config: " ++ s.config.outline ++ ", updated_on_current_visit: " ++ visitText s.current ++
    ", updated_on_ancestor_visit: " ++ visitText s.ancestor ++ ", .. \x7d"

/-- The shared instances by rule, and the private ones by group and rule. -/
structure StateTable (K : Type) [Kinds K] where
  shared : Dict String (RuleState K) := .empty
  groups : Dict String (Dict String (RuleState K)) := .empty

namespace StateTable

/-- The table without instances. -/
def empty : StateTable K := {}

/-- The number of instances. -/
def size (t : StateTable K) : Nat :=
  t.shared.size + (t.groups.values.map Dict.size).foldr (· + ·) 0

/-- The instance of a tag. -/
def find? (t : StateTable K) (tag : StateTag) : Option (RuleState K) :=
  match tag.scope with
  | .shared => t.shared.find? tag.rule
  | .group id => (t.groups.find? id).bind (·.find? tag.rule)

/-- Whether a tag has an instance. -/
def contains (t : StateTable K) (tag : StateTag) : Bool :=
  (t.find? tag).isSome

/-- The instance of a tag, or the fault that there is none. -/
def get (t : StateTable K) (tag : StateTag) : Except StateError (RuleState K) :=
  match t.find? tag with
  | some state => .ok state
  | none => .error (.missing tag)

/-- The answer for a tag that has an instance: all is well if `ignoreDuplicate` is set. -/
def duplicate (tag : StateTag) (ignoreDuplicate : Bool) : Except StateError StateTag :=
  if ignoreDuplicate then .ok tag else .error (.duplicate tag)

/-- Makes the shared instance of a rule that has none, of the value that a factory makes, and answers with its tag. A rule that
has one keeps it; the factory does not run then. -/
def initShared {m : Type → Type} [Monad m] (t : StateTable K) (rule : String) (config : Json) (make : m (StateValue K))
    (ignoreDuplicate : Bool) : m (Except StateError StateTag × StateTable K) := do
  if t.shared.contains rule then
    return (duplicate (.shared rule) ignoreDuplicate, t)
  else
    let value ← make
    return (.ok (.shared rule), { t with shared := t.shared.insert rule (.fresh value config) })

/-- The table with a map for the instances of a group, an empty one if there was none. -/
def openGroup (t : StateTable K) (group : String) : StateTable K :=
  if t.groups.contains group then t else { t with groups := t.groups.insert group .empty }

/-- Makes the private instance of a rule for a group, as `initShared` makes the shared one. The group has its map from then on,
whatever comes of it. -/
def initPrivate {m : Type → Type} [Monad m] (t : StateTable K) (rule group : String) (config : Json)
    (make : m (StateValue K)) (ignoreDuplicate : Bool) : m (Except StateError StateTag × StateTable K) := do
  let t := t.openGroup group
  if (t.groups.find? group).any (·.contains rule) then
    return (duplicate (.group rule group) ignoreDuplicate, t)
  else
    let value ← make
    return (.ok (.group rule group), { t with groups := t.groups.modify group (·.insert rule (.fresh value config)) })

/-- Makes the instance of a tag in its scope, of a value that is at hand. -/
def init (t : StateTable K) (tag : StateTag) (config : Json) (value : StateValue K) (ignoreDuplicate : Bool) :
    Except StateError StateTag × StateTable K :=
  match tag.scope with
  | .shared => Id.run (t.initShared tag.rule config (pure value) ignoreDuplicate)
  | .group id => Id.run (t.initPrivate tag.rule id config (pure value) ignoreDuplicate)

/-- The value of an instance as the given kind. -/
def read (t : StateTable K) (tag : StateTag) (k : K) : Except StateError (Carrier k) := do
  let state ← t.get tag
  match state.value.as? k with
  | some value => .ok value
  | none => .error (.otherKind tag (Kinds.typeName k))

/-- Puts another state in the place of an instance. -/
def replace (t : StateTable K) (tag : StateTag) (state : RuleState K) : StateTable K :=
  match tag.scope with
  | .shared => { t with shared := t.shared.modify tag.rule fun _ => state }
  | .group id => { t with groups := t.groups.modify id (·.modify tag.rule fun _ => state) }

/-- Applies a reducer to an instance on a visit of a node. -/
def update (t : StateTable K) (tag : StateTag) (k : K) (f : Carrier k → Carrier k) (node : NodeId) (visit : Visit) :
    Except StateError Unit × StateTable K :=
  match t.find? tag with
  | none => (.error (.missing tag), t)
  | some state =>
    let (done, state) := state.apply k f node visit
    (if done then .ok () else .error (.otherKind tag (Kinds.typeName k)), t.replace tag state)

/-- The tag by which a group reads a rule: its private instance if there is one, else the shared one. -/
def tagFor? (t : StateTable K) (rule group : String) : Option StateTag :=
  if (t.groups.find? group).any (·.contains rule) then some (.group rule group)
  else if t.shared.contains rule then some (.shared rule)
  else none

/-- Works out the marks of all instances, shared and private, for the visit of a node. -/
def refresh (t : StateTable K) (node : NodeId) (ancestors : List NodeId) : StateTable K where
  shared := t.shared.map (·.refresh node ancestors)
  groups := t.groups.map (·.map (·.refresh node ancestors))

end StateTable

end RuleWalk
