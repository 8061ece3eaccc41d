import RuleWalk.Rule.Bundle

/-!
# Rules declared as data

A rule can be declared without code: its visitors are lists of actions. A visitor performs its actions in order until one
fails, collects what they put out, and leaves a record of the visit.
-/

namespace RuleWalk

/-- The kinds that declared rules know: plain ones for their own states and those of the bundled rules. -/
abbrev DeclaredKind := BundledKind PlainKind

/-- One thing a declared visitor does. -/
inductive Action where
  /-- Adds to an integer state. -/
  | add (n : Int)
  /-- Appends to a text state. -/
  | append (text : String)
  /-- Appends an item to a list state, by default the text of the node. -/
  | push (item : Option String)
  /-- Writes a state of some kind without changing it. -/
  | touch (k : DeclaredKind)
  /-- Puts out the own state. -/
  | state (k : DeclaredKind)
  /-- Puts out the state of another rule. -/
  | read (rule : String) (k : DeclaredKind)
  /-- Adds another rule's integer state to the own. -/
  | addFrom (rule : String)
  /-- Puts out the scene. -/
  | info
  /-- Puts out the position of an offset. -/
  | position (offset : Nat)
  /-- Puts out a stretch of the source. -/
  | slice (start stop : Nat)
  /-- Reports something about the node. -/
  | report (severity : Severity) (message : String)
  /-- Gives up. -/
  | fail (message : String)
  /-- Performs all actions; each failure is put out and stops nothing. -/
  | attempt (actions : List Action)
deriving Inhabited

/-- What an action puts out. -/
inductive Output where
  | value (v : StateValue DeclaredKind)
  | external (k : DeclaredKind) (x : External k)
  | info (scene : Scene)
  | position (p : Position)
  | text (s : String)
  | failure (e : EngineError)

/-- What a declared rule notes. -/
inductive RuleNote where
  /-- A bundled rule of this name was loaded. -/
  | loaded (name : String)
  /-- A factory ran on a configuration; the number of visitors before and after. -/
  | built (name : String) (config : Json) (before after : Nat)
  /-- A visitor ran. -/
  | visited (tag : StateTag) (selector : String) (ordinal : Nat) (visit : Visit) (out : List Output)

namespace Action

mutual

/-- Performs an action after what has been put out so far and goes on with its result. -/
def perform {Note : Type} (scene : Scene) (action : Action) (out : List Output)
    (next : List Output → Except EngineError Unit → Script DeclaredKind Note) : Script DeclaredKind Note :=
  match action with
  | .add n => .update (.other .int) (fun (old : Int) => old + n) (next out)
  | .append text => .update (.other .text) (fun (old : String) => old ++ text) (next out)
  | .push item => .update (.other .list) (fun (old : List String) => old ++ [item.getD scene.nodeText]) (next out)
  | .touch k => .update k id (next out)
  | .state k => .read k fun
    | .ok v => next (out ++ [.value ⟨k, v⟩]) (.ok ())
    | .error e => next out (.error e)
  | .read rule k => .request rule k fun
    | .ok x => next (out ++ [.external k x]) (.ok ())
    | .error e => next out (.error e)
  | .addFrom rule => .request rule (.other .int) fun
    | .ok x => .update (.other .int) (fun (old : Int) => old + (x.value : Int)) (next out)
    | .error e => next out (.error e)
  | .info => next (out ++ [.info scene]) (.ok ())
  | .position offset => next (out ++ [.position (scene.source.position offset)]) (.ok ())
  | .slice start stop => next (out ++ [.text (scene.source.slice start stop)]) (.ok ())
  | .report severity message => .report severity scene.node message (next out (.ok ()))
  | .fail message => next out (.error (.visitor scene.tag message))
  | .attempt actions => attemptAll scene actions out next

/-- Performs all actions whatever their results. -/
def attemptAll {Note : Type} (scene : Scene) (actions : List Action) (out : List Output)
    (next : List Output → Except EngineError Unit → Script DeclaredKind Note) : Script DeclaredKind Note :=
  match actions with
  | [] => next out (.ok ())
  | action :: rest =>
    action.perform scene out fun out result =>
      match result with
      | .ok () => attemptAll scene rest out next
      | .error e => attemptAll scene rest (out ++ [.failure e]) next

end

/-- Performs actions up to the first failure. -/
def performAll {Note : Type} (scene : Scene) (actions : List Action) (out : List Output)
    (next : List Output → Except EngineError Unit → Script DeclaredKind Note) : Script DeclaredKind Note :=
  match actions with
  | [] => next out (.ok ())
  | action :: rest =>
    action.perform scene out fun out result =>
      match result with
      | .ok () => performAll scene rest out next
      | .error e => next out (.error e)

end Action

/-- The visitor of a list of actions. -/
def Visitor.ofActions (selector : String) (actions : List Action) : Visitor DeclaredKind RuleNote where
  selector := selector
  script scene := Action.performAll scene actions [] fun out result =>
    .note (.visited scene.tag selector scene.node.label.ordinal scene.visit out) (.finish result)

/-- A factory declared as data: one visitor with these actions for each selector under a key of the configuration. -/
structure FactoryDeclaration where
  key : String
  actions : List Action

namespace FactoryDeclaration

/-- The values that ought to be selectors. -/
def wanted (f : FactoryDeclaration) (config : Json) : List Json :=
  match (config.member? f.key).getD .null with
  | .array items => items
  | value => [value]

/-- The texts in front of the first value that is none, and whether there is such a value. -/
def texts : List Json → List String × Bool
  | [] => ([], false)
  | .string s :: rest =>
    let (more, stopped) := texts rest
    (s :: more, stopped)
  | _ :: _ => ([], true)

/-- Adds the visitors to those that are there; a value that is no text stops it. -/
def build (f : FactoryDeclaration) (name : String) (config : Json) (visitors : List (Visitor DeclaredKind RuleNote)) :
    Build DeclaredKind RuleNote :=
  let (selectors, stopped) := texts (f.wanted config)
  let all := visitors ++ selectors.map fun selector => .ofActions selector f.actions
  ⟨[.built name config visitors.length all.length],
    if stopped then .error (f.key ++ " must be a string") else .ok all⟩

end FactoryDeclaration

/-- A rule declared as data. With `bundledAs` it is a bundled rule of that id. -/
structure RuleDeclaration where
  name : String
  initial : StateValue DeclaredKind
  dependencies : List String
  config : Json
  visitors : List (String × List Action)
  factory : Option FactoryDeclaration
  bundledAs : Option String

namespace RuleDeclaration

/-- The module of a declaration. -/
def module (d : RuleDeclaration) : RuleModule DeclaredKind RuleNote where
  name := d.name
  dependencies := d.dependencies
  config := d.config
  initial := d.initial
  visitors := d.visitors.map fun (selector, actions) => .ofActions selector actions
  factory := d.factory.map fun f => f.build d.name

/-- Enters a declared rule into a registry. -/
def define (d : RuleDeclaration) (r : Registry DeclaredKind RuleNote) : Registry DeclaredKind RuleNote :=
  match d.bundledAs with
  | some id => r.bundle id d.module [.loaded d.name]
  | none => r.define d.module

end RuleDeclaration

end RuleWalk
