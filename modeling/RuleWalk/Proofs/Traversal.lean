import RuleWalk.Engine.Run
import RuleWalk.Proofs.Lists

/-!
# A run is a walk of the tree

The queue of a tree lists the steps of a recursive walk, and a dispatcher that follows it has the ancestors of the visited
node at every step. So a run takes the moments of the walk one after the other, each with its true ancestry.
-/

namespace RuleWalk

variable {K : Type} [Kinds K] {Note : Type}

/-! ## Walks -/

namespace Tree

/-- A node is a child of another. -/
def ChildOf (child parent : Tree) : Prop :=
  child ∈ parent.children

mutual

/-- The steps of a recursive walk: a node is entered, its children are walked, and it is left. -/
def walk (parent : Option Tree) : Tree → List Step
  | .node label children =>
    ⟨.enter, .node label children, parent⟩ ::
      (walkAll (.node label children) children ++ [⟨.leave, .node label children, parent⟩])

/-- The walks of all children of a node. -/
def walkAll (parent : Tree) : List Tree → List Step
  | [] => []
  | t :: rest => t.walk (some parent) ++ walkAll parent rest

end

mutual

/-- Draining a stack walks the tree of its first step before anything else. -/
theorem drain_walk (t : Tree) (parent : Option Tree) (limit : Nat) (pending : List Step) :
    Step.drain (2 * t.size + limit) (⟨.enter, t, parent⟩ :: pending) = t.walk parent ++ Step.drain limit pending := by
  cases t with
  | node label children =>
    have hlimit : 2 * (Tree.node label children).size + limit = (2 * sizeAll children + (limit + 1)) + 1 := by
      rw [Tree.size]
      omega
    have hsuccessors : (⟨.enter, .node label children, parent⟩ : Step).successors ++ pending =
        children.map (fun child => ⟨.enter, child, some (.node label children)⟩) ++
          ⟨.leave, .node label children, parent⟩ :: pending := by
      simp [Step.successors, Tree.children]
    rw [hlimit, Step.drain, hsuccessors, drain_walkAll children (.node label children) (limit + 1), Step.drain, walk]
    simp [Step.successors]

/-- Draining a stack walks the children of a node one after the other. -/
theorem drain_walkAll (ts : List Tree) (parent : Tree) (limit : Nat) (pending : List Step) :
    Step.drain (2 * sizeAll ts + limit) (ts.map (fun child => ⟨.enter, child, some parent⟩) ++ pending) =
      walkAll parent ts ++ Step.drain limit pending := by
  cases ts with
  | nil => simp [walkAll, sizeAll]
  | cons t rest =>
    have hlimit : 2 * sizeAll (t :: rest) + limit = 2 * t.size + (2 * sizeAll rest + limit) := by
      rw [sizeAll]
      omega
    rw [hlimit, List.map_cons, List.cons_append, drain_walk t (some parent), drain_walkAll rest parent limit pending,
      walkAll, List.append_assoc]

end

/-- The queue is the recursive walk. -/
theorem queue_eq_walk (root : Tree) : root.queue = root.walk none := by
  have h := drain_walk root none 0 []
  rw [Nat.add_zero] at h
  rw [queue, h, Step.drain, List.append_nil]

mutual

theorem length_walk (t : Tree) (parent : Option Tree) : (t.walk parent).length = 2 * t.size := by
  cases t with
  | node label children =>
    rw [walk, Tree.size, List.length_cons, List.length_append, length_walkAll, List.length_singleton]
    omega

theorem length_walkAll (ts : List Tree) (parent : Tree) : (walkAll parent ts).length = 2 * sizeAll ts := by
  cases ts with
  | nil => rfl
  | cons t rest =>
    rw [walkAll, sizeAll, List.length_append, length_walk, length_walkAll]
    omega

end

/-- The queue has two steps for every node. -/
theorem length_queue (root : Tree) : root.queue.length = 2 * root.size := by
  rw [root.queue_eq_walk, length_walk]

end Tree

/-! ## Moments -/

/-- A visit: which way, of which node, below which ancestors, nearest first. -/
structure Moment where
  direction : Direction
  node : Tree
  ancestry : List Tree

namespace Tree

mutual

/-- The moments of the walk of a tree below some ancestors. -/
def moments (ancestry : List Tree) : Tree → List Moment
  | .node label children =>
    ⟨.enter, .node label children, ancestry⟩ ::
      (momentsAll (.node label children :: ancestry) children ++ [⟨.leave, .node label children, ancestry⟩])

/-- The moments of the walks of all trees of a list. -/
def momentsAll (ancestry : List Tree) : List Tree → List Moment
  | [] => []
  | t :: rest => t.moments ancestry ++ momentsAll ancestry rest

end

end Tree

/-! ## Following steps -/

namespace Step

/-- The ancestry with which a step is dispatched: entering a node makes its parent the nearest ancestor. -/
def facing (ancestry : List Tree) (s : Step) : List Tree :=
  match s.direction with
  | .enter => s.parent.toList ++ ancestry
  | .leave => ancestry

/-- The ancestry after a step: leaving a node drops the nearest ancestor. -/
def passing (ancestry : List Tree) (s : Step) : List Tree :=
  match s.direction with
  | .enter => s.parent.toList ++ ancestry
  | .leave => ancestry.tail

/-- The moment of a step below some ancestors. -/
def moment (ancestry : List Tree) (s : Step) : Moment :=
  ⟨s.direction, s.node, s.facing ancestry⟩

/-- The moments that one comes to by following steps. -/
def visited : List Tree → List Step → List Moment
  | _, [] => []
  | ancestry, s :: rest => s.moment ancestry :: visited (s.passing ancestry) rest

theorem visited_append (ancestry : List Tree) (steps more : List Step) :
    visited ancestry (steps ++ more) = visited ancestry steps ++ visited (steps.foldl passing ancestry) more := by
  induction steps generalizing ancestry with
  | nil => rfl
  | cons s rest ih => rw [List.cons_append, visited, visited, ih, List.foldl_cons, List.cons_append]

theorem length_visited (ancestry : List Tree) (steps : List Step) : (visited ancestry steps).length = steps.length := by
  induction steps generalizing ancestry with
  | nil => rfl
  | cons s rest ih => rw [visited, List.length_cons, List.length_cons, ih]

end Step

mutual

/-- Following the walk of a tree one comes to its moments and back to the ancestors of its parent. -/
theorem visited_walk (t : Tree) (parent : Option Tree) (ancestry : List Tree) :
    Step.visited ancestry (t.walk parent) = t.moments (parent.toList ++ ancestry) ∧
      (t.walk parent).foldl Step.passing ancestry = (parent.toList ++ ancestry).tail := by
  cases t with
  | node label children =>
    obtain ⟨hchildren, hback⟩ := visited_walkAll children (.node label children) (parent.toList ++ ancestry)
    rw [Tree.walk, Tree.moments, List.foldl_cons, List.foldl_append, Step.visited, Step.visited_append]
    change _ :: (Step.visited (parent.toList ++ ancestry) _ ++
      Step.visited ((Tree.walkAll (.node label children) children).foldl Step.passing (parent.toList ++ ancestry)) _) = _ ∧
      List.foldl Step.passing ((Tree.walkAll (.node label children) children).foldl Step.passing
        (parent.toList ++ ancestry)) _ = _
    rw [hchildren, hback]
    exact ⟨rfl, rfl⟩

/-- Following the walks of a node's children one comes to their moments and back to the node. -/
theorem visited_walkAll (ts : List Tree) (parent : Tree) (ancestry : List Tree) :
    Step.visited ancestry (Tree.walkAll parent ts) = Tree.momentsAll (parent :: ancestry) ts ∧
      (Tree.walkAll parent ts).foldl Step.passing ancestry = ancestry := by
  cases ts with
  | nil => exact ⟨rfl, rfl⟩
  | cons t rest =>
    obtain ⟨hfirst, hback⟩ := visited_walk t (some parent) ancestry
    obtain ⟨hrest, hend⟩ := visited_walkAll rest parent ancestry
    have hback' : (t.walk (some parent)).foldl Step.passing ancestry = ancestry := hback
    rw [Tree.walkAll, Tree.momentsAll, Step.visited_append, List.foldl_append, hfirst, hback', hrest, hend]
    exact ⟨rfl, rfl⟩

end

/-- Following the queue of a tree one comes to its moments and ends without ancestors. -/
theorem Tree.visited_queue (root : Tree) : Step.visited [] root.queue = root.moments [] ∧
    root.queue.foldl Step.passing [] = [] := by
  rw [root.queue_eq_walk]
  exact visited_walk root none []

/-- What follows the steps of a traversal one by one, below the ancestors of each, takes the moments one by one. -/
theorem foldlM_visited {P S ε : Type} {advance : P → Step → Except ε P} {take : S → Moment → Except ε S}
    {below : List Tree → S → P}
    (h : ∀ ancestry state s, advance (below ancestry state) s =
      (take state (s.moment ancestry)).map (below (s.passing ancestry)))
    (steps : List Step) (ancestry : List Tree) (state : S) :
    steps.foldlM advance (below ancestry state) =
      ((Step.visited ancestry steps).foldlM take state).map (below (steps.foldl Step.passing ancestry)) := by
  induction steps generalizing ancestry state with
  | nil => rfl
  | cons s rest ih =>
    have hstep := h ancestry state s
    rw [Step.visited]
    cases htake : take state (s.moment ancestry) with
    | error e =>
      rw [htake] at hstep
      rw [foldlM_cons_of_error _ hstep, foldlM_cons_of_error _ htake]
      rfl
    | ok state' =>
      rw [htake] at hstep
      rw [foldlM_cons_of_ok _ hstep, foldlM_cons_of_ok _ htake, List.foldl_cons]
      exact ih (s.passing ancestry) state'

namespace Dispatcher

variable {σ ε L : Type}

/-- The dispatcher as it dispatches a step. -/
def facing (d : Dispatcher L) (s : Step) : Dispatcher L :=
  { d with ancestry := s.facing d.ancestry }

/-- A step is dispatched below the ancestors of its node, and then passed. -/
theorem step_eq (d : Dispatcher L) (refuse : MatchError → ε) (deliver : Delivery σ ε L) (s : Step) (state : σ) :
    d.step refuse deliver s state =
      match (d.facing s).dispatch refuse deliver s.direction s.node state with
      | .ok result => ({ d with ancestry := s.passing d.ancestry }, .ok result)
      | .error halt => (d.facing s, .error halt) := by
  obtain ⟨direction, node, parent⟩ := s
  cases direction with
  | enter =>
    rw [step, enter]
    change (d.descend parent, (d.descend parent).dispatch refuse deliver .enter node state) = match
      (d.descend parent).dispatch refuse deliver .enter node state with
      | .ok result => (d.descend parent, .ok result)
      | .error halt => (d.descend parent, .error halt)
    cases (d.descend parent).dispatch refuse deliver .enter node state <;> rfl
  | leave => rfl

end Dispatcher

/-! ## Runs -/

/-- Takes one moment of a run: works out the emissions and delivers them. The second part counts deliveries. -/
def Moment.take (index : SelectorIndex (Listener K Note)) (source : Source) (state : World K Note × Nat) (m : Moment) :
    Except (Halt (World K Note) EngineError) (World K Note × Nat) :=
  match index.emissions m.direction m.node m.ancestry with
  | .error e => .error ⟨state.1, .unmatchable e⟩
  | .ok es =>
    match es.foldlM (Engine.deliver source m.direction m.node m.ancestry) ⟨state.1, false⟩ with
    | .ok session => .ok (session.world, state.2 + es.length)
    | .error halt => .error ⟨halt.state.world, halt.error⟩

/-- The progress of a run that has come to some world below some ancestors. -/
def Progress.below (index : SelectorIndex (Listener K Note)) (ancestry : List Tree) (state : World K Note × Nat) :
    Progress K Note :=
  ⟨⟨index, ancestry⟩, state.1, state.2⟩

/-- A step of a run takes the moment of the step. -/
theorem Progress.advance_below (index : SelectorIndex (Listener K Note)) (source : Source) (ancestry : List Tree)
    (state : World K Note × Nat) (s : Step) : (Progress.below index ancestry state).advance source s =
      (Moment.take index source state (s.moment ancestry)).map (Progress.below index (s.passing ancestry)) := by
  simp only [advance, Progress.below, Dispatcher.step_eq, Dispatcher.facing, Dispatcher.dispatch, Moment.take, Step.moment]
  cases index.emissions s.direction s.node (s.facing ancestry) with
  | error e => rfl
  | ok es =>
    dsimp only
    cases es.foldlM (Engine.deliver source s.direction s.node (s.facing ancestry)) ⟨state.1, false⟩ <;> rfl

/-- A run takes the moments of the walk of its tree. -/
theorem Engine.run_eq (e : Engine K Note) (root : Tree) (source : Source) :
    (e.run root source).outcome =
      match (root.moments []).foldlM (Moment.take e.index source) ({ states := e.states }, 0) with
      | .ok (world, deliveries) => .ok ⟨world.states, world.diagnostics, root.queue.length, deliveries⟩
      | .error halt => .error halt.error := by
  have hfold := foldlM_visited (Progress.advance_below e.index source) root.queue [] ({ states := e.states }, 0)
  rw [root.visited_queue.1] at hfold
  change root.queue.foldlM (Progress.advance source) e.start = _ at hfold
  unfold Engine.run
  dsimp only
  rw [hfold]
  cases (root.moments []).foldlM (Moment.take e.index source) ({ states := e.states }, 0) <;> rfl

end RuleWalk
