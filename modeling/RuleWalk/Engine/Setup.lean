import RuleWalk.Config.Basic
import RuleWalk.Rule.Registry
import RuleWalk.Engine.World

/-!
# Setting up an engine

From a registry, a list of groups and a configuration: the rules that the groups name and all they depend on are put in
delivery order; every rule of every group is bound to an instance, private if the group has an entry of its own for the
rule and shared otherwise; the visitors of each instance are made once; and their patterns are indexed.
-/

namespace RuleWalk

/-- A visitor with the binding it runs for. -/
structure Listener (K : Type) [Kinds K] (Note : Type) where
  binding : Binding
  visitor : Visitor K Note

/-- An engine that is ready to run. -/
structure Engine (K : Type) [Kinds K] (Note : Type) where
  states : StateTable K
  bindings : List Binding
  index : SelectorIndex (Listener K Note)
  order : DeliveryOrder
  cache : PatternCache

/-- Each rule of each group, with its group, in listing order. -/
def Group.pairs (groups : List Group) : List (Group × String) :=
  groups.flatMap fun g => g.rules.map fun rule => (g, rule)

namespace Registry

variable {K : Type} [Kinds K] {Note : Type}

/-- Adds a rule to a graph, unless it is there or not known. -/
def discover (r : Registry K Note) (graph : Graph) (rule : String) : Graph :=
  match r.find? rule with
  | none => graph
  | some m => if graph.ids.contains rule then graph else graph ++ [(rule, m.dependencies)]

/-- The rules that the groups name, in order of first mention; a rule that is not known is refused. -/
def named (r : Registry K Note) (groups : List Group) : Except ConfigError Graph :=
  (Group.pairs groups).foldlM (fun graph (g, rule) =>
    if (r.find? rule).isSome then .ok (r.discover graph rule) else .error (.unknownRule rule g.id)) []

/-- Goes through a graph from a place on and adds what its rules depend on at the end, for `limit` rules at most. Gives the
place it has come to and the graph. -/
def expand (r : Registry K Note) : (limit : Nat) → Nat × Graph → Nat × Graph
  | 0, work => work
  | limit + 1, (next, graph) =>
    match graph[next]? with
    | none => (next, graph)
    | some (_, dependencies) => expand r limit (next + 1, dependencies.foldl r.discover graph)

/-- The graph of the rules that the groups name and of all they depend on. No rule comes twice, so as many rounds as
there are rules suffice. -/
def closure (r : Registry K Note) (groups : List Group) : Except ConfigError Graph := do
  let graph ← r.named groups
  return (r.expand r.size (0, graph)).2

/-- The rules that setup asks for, in order: those of the groups up to the first that is not known, and if all are known,
what each rule of the graph depends on. -/
def consulted (r : Registry K Note) (groups : List Group) : List String :=
  let rules := (Group.pairs groups).map Prod.snd
  match r.closure groups with
  | .ok graph => rules ++ graph.flatMap Prod.snd
  | .error _ => rules.takeWhile fun rule => (r.find? rule).isSome

end Registry

/-- A binding and the module of its rule. -/
structure Bound (K : Type) [Kinds K] (Note : Type) where
  binding : Binding
  module : RuleModule K Note

/-- The instances bound so far. -/
structure Assembly (K : Type) [Kinds K] (Note : Type) where
  states : StateTable K := {}
  bound : List (Bound K Note) := []

/-- The tag of the instance that runs a rule for a group. -/
def Config.tag (c : Config) (group rule : String) : StateTag :=
  if c.overrides group rule then .group rule group else .shared rule

/-- The binding with one more group, unless it has a group of that id. -/
def Binding.join (b : Binding) (m : Membership) : Binding :=
  if b.groups.all (·.group != m.group) then { b with groups := b.groups ++ [m] } else b

namespace Assembly

variable {K : Type} [Kinds K] {Note : Type}

/-- Binds a rule of a group: an instance that is bound already is joined by the group, and a new one is made else. -/
def bind (r : Registry K Note) (c : Config) (a : Assembly K Note) (pair : Group × String) :
    Except EngineError (Assembly K Note) :=
  let (g, rule) := pair
  match r.find? rule with
  | none => .error (.config (.unknownRule rule g.id))
  | some m => do
    let config := c.resolve g.id rule m.config
    let (answer, states) := a.states.init (c.tag g.id rule) config m.initial true
    let tag ← EngineError.liftState answer
    let membership : Membership := ⟨g.id, g.rules⟩
    if a.bound.any (·.binding.tag = tag) then
      let join (b : Bound K Note) : Bound K Note :=
        if b.binding.tag = tag then { b with binding := b.binding.join membership } else b
      return ⟨states, a.bound.map join⟩
    else return ⟨states, a.bound ++ [⟨⟨tag, [membership], m.dependencies, config⟩, m⟩]⟩

/-- Binds all rules of all groups. -/
def ofGroups (r : Registry K Note) (c : Config) (groups : List Group) : Except EngineError (Assembly K Note) :=
  (Group.pairs groups).foldlM (bind r c) {}

/-- What a bound instance registers: its visitors under its rule's name. -/
def registrations (b : Bound K Note) (visitors : List (Visitor K Note)) : List (Registration (Listener K Note)) :=
  visitors.map fun v => ⟨v.selector, b.binding.tag.rule, ⟨b.binding, v⟩⟩

/-- Makes the visitors of all instances in order, up to the first that cannot be made, with the notes of their making. -/
def visitors : List (Bound K Note) → List Note × Except EngineError (List (Registration (Listener K Note)))
  | [] => ([], .ok [])
  | b :: rest =>
    let work := b.module.build b.binding.config
    match work.visitors with
    | .error reason => (work.notes, .error (.load b.binding.tag reason))
    | .ok made =>
      let (notes, more) := visitors rest
      (work.notes ++ notes, more.map fun more => registrations b made ++ more)

end Assembly

/-- What setting up an engine gives: the registry after it, the notes left on the way, and the engine or what stopped
it. -/
structure Setup (K : Type) [Kinds K] (Note : Type) where
  registry : Registry K Note
  notes : List Note
  outcome : Except EngineError (Engine K Note)

namespace Engine

variable {K : Type} [Kinds K] {Note : Type}

/-- The delivery order of the rules that the groups name and of all they depend on. -/
def orderOf (r : Registry K Note) (groups : List Group) : Except EngineError DeliveryOrder :=
  match r.closure groups with
  | .error e => .error (.config e)
  | .ok graph =>
    match graph.resolve with
    | .ok order => .ok order
    | .error e => .error (.dependency e)

/-- The order and the bound instances, before visitors are made. -/
def prepare (r : Registry K Note) (groups : List Group) (c : Config) :
    Except EngineError (DeliveryOrder × Assembly K Note) := do
  let order ← orderOf r groups
  let assembly ← Assembly.ofGroups r c groups
  return (order, assembly)

/-- Indexes the registrations of all instances. -/
def finish (cache : PatternCache) (order : DeliveryOrder) (a : Assembly K Note)
    (registrations : List (Registration (Listener K Note))) : Except EngineError (Engine K Note) :=
  match SelectorIndex.build order cache registrations with
  | .ok (index, cache) => .ok ⟨a.states, a.bound.map (·.binding), index, order, cache⟩
  | .error e => .error (.parse e)

/-- Sets up an engine with a cache of patterns read before. -/
def setupWith (cache : PatternCache) (r : Registry K Note) (groups : List Group) (c : Config) : Setup K Note :=
  let (loaded, notes) := r.loadAll (r.consulted groups)
  match prepare r groups c with
  | .error e => ⟨loaded, notes, .error e⟩
  | .ok (order, assembly) =>
    let (more, registrations) := Assembly.visitors assembly.bound
    ⟨loaded, notes ++ more, registrations.bind (finish cache order assembly)⟩

/-- Sets up an engine. -/
def setup (r : Registry K Note) (groups : List Group) (c : Config) : Setup K Note :=
  setupWith .empty r groups c

/-- The tags of the bound instances in order of binding. -/
def tags (e : Engine K Note) : List StateTag :=
  e.bindings.map (·.tag)

end Engine

end RuleWalk
