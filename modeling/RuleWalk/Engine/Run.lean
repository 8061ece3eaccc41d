import RuleWalk.Engine.Setup

/-!
# Running an engine

A run takes the steps of a tree's traversal one after the other. At each step the emissions of the index are delivered in
order; the marks of all instances are worked out just before the first. The first error ends the run.
-/

namespace RuleWalk

variable {K : Type} [Kinds K] {Note : Type}

/-- What a run has found. -/
structure Report (K : Type) [Kinds K] where
  states : StateTable K
  diagnostics : List Diagnostic
  /-- The number of steps taken. -/
  steps : Nat
  /-- The number of visitors run. -/
  deliveries : Nat

namespace Report

/-- Whether an error was reported. -/
def hasErrors (r : Report K) : Bool :=
  r.diagnostics.any fun d => d.severity = .error

/-- The final state of an instance as the given kind. -/
def state (r : Report K) (tag : StateTag) (k : K) : Except StateError (Carrier k) :=
  r.states.read tag k

/-- The final state of a rule as a group sees it. -/
def stateFor (r : Report K) (rule group : String) (k : K) : Except StateError (Carrier k) :=
  match r.states.tagFor? rule group with
  | some tag => r.state tag k
  | none => .error (.missing (.group rule group))

end Report

/-- A world within one step, and whether its marks are worked out for that step. -/
structure Session (K : Type) [Kinds K] (Note : Type) where
  world : World K Note
  refreshed : Bool := false

/-- The scene of a visit for a binding. -/
def Binding.scene (b : Binding) (source : Source) (direction : Direction) (node : Tree) (ancestry : List Tree) : Scene where
  tag := b.tag
  groups := b.groups.map (·.group)
  config := b.config
  visit := direction.visit
  node := node
  ancestors := ancestry
  source := source

/-- Runs a visitor at a node. -/
def Listener.run (l : Listener K Note) (source : Source) (direction : Direction) (node : Tree) (ancestry : List Tree)
    (w : World K Note) : Except (Halt (World K Note) EngineError) (World K Note) :=
  let scene := l.binding.scene source direction node ancestry
  (l.visitor.script scene).run l.binding scene w

/-- Delivers an emission at a step; the first of a step finds the marks worked out for it. -/
def Engine.deliver (source : Source) (direction : Direction) (node : Tree) :
    Delivery (Session K Note) EngineError (Listener K Note) :=
  fun ancestry session emission =>
    let world := if session.refreshed then session.world else session.world.refresh node ancestry
    match emission.listener.run source direction node ancestry world with
    | .ok world => .ok ⟨world, true⟩
    | .error halt => .error ⟨⟨halt.state, true⟩, halt.error⟩

/-- How far a run has come. -/
structure Progress (K : Type) [Kinds K] (Note : Type) where
  dispatcher : Dispatcher (Listener K Note)
  world : World K Note
  deliveries : Nat := 0

/-- Takes one step of a run. -/
def Progress.advance (source : Source) (p : Progress K Note) (s : Step) :
    Except (Halt (World K Note) EngineError) (Progress K Note) :=
  match p.dispatcher.step .unmatchable (Engine.deliver source s.direction s.node) s ⟨p.world, false⟩ with
  | (dispatcher, .ok (session, delivered)) => .ok ⟨dispatcher, session.world, p.deliveries + delivered⟩
  | (_, .error halt) => .error ⟨halt.state.world, halt.error⟩

/-- What a run gives: the notes left by its visitors, and its report or what stopped it. -/
structure Run (K : Type) [Kinds K] (Note : Type) where
  notes : List Note
  outcome : Except EngineError (Report K)

namespace Engine

/-- The start of a run. -/
def start (e : Engine K Note) : Progress K Note :=
  { dispatcher := { index := e.index }, world := { states := e.states } }

/-- Runs the engine on a tree. -/
def run (e : Engine K Note) (root : Tree) (source : Source) : Run K Note :=
  let queue := root.queue
  match queue.foldlM (Progress.advance source) e.start with
  | .ok p => ⟨p.world.notes, .ok ⟨p.world.states, p.world.diagnostics, queue.length, p.deliveries⟩⟩
  | .error halt => ⟨halt.state.notes, .error halt.error⟩

end Engine

end RuleWalk
