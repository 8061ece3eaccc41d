import RuleWalk.Tree.Queue
import RuleWalk.Dispatch.Index

/-!
# The dispatcher

A dispatcher follows a traversal: it keeps the ancestors of the node that is visited and hands the emissions of every
visit to a delivery function. All emissions of a visit are worked out before the first is delivered. The delivery function
works on a state of its own, which survives a failure.
-/

namespace RuleWalk

/-- A failure together with the state it left behind. -/
structure Halt (σ ε : Type) where
  state : σ
  error : ε

/-- What delivers one emission: it sees the ancestry and works on a state. -/
abbrev Delivery (σ ε L : Type) := List Tree → σ → Emission L → Except (Halt σ ε) σ

/-- An index and the ancestors of the visited node, nearest first. -/
structure Dispatcher (L : Type) where
  index : SelectorIndex L
  ancestry : List Tree := []

namespace Dispatcher

variable {σ ε L : Type}

/-- Delivers all emissions for a visit in order, up to the first failure, and counts them. -/
def dispatch (d : Dispatcher L) (refuse : MatchError → ε) (deliver : Delivery σ ε L) (direction : Direction)
    (node : Tree) (state : σ) : Except (Halt σ ε) (σ × Nat) :=
  match d.index.emissions direction node d.ancestry with
  | .error e => .error ⟨state, refuse e⟩
  | .ok emissions =>
    match emissions.foldlM (deliver d.ancestry) state with
    | .ok state => .ok (state, emissions.length)
    | .error halt => .error halt

/-- The dispatcher below a parent. -/
def descend (d : Dispatcher L) (parent : Option Tree) : Dispatcher L :=
  { d with ancestry := parent.toList ++ d.ancestry }

/-- The dispatcher after a node has been left. -/
def ascend (d : Dispatcher L) : Dispatcher L :=
  { d with ancestry := d.ancestry.tail }

/-- Enters a node: its parent becomes the nearest ancestor, whatever the delivery does. -/
def enter (d : Dispatcher L) (refuse : MatchError → ε) (deliver : Delivery σ ε L) (node : Tree) (parent : Option Tree)
    (state : σ) : Dispatcher L × Except (Halt σ ε) (σ × Nat) :=
  (d.descend parent, (d.descend parent).dispatch refuse deliver .enter node state)

/-- Leaves a node: its parent is dropped once all is delivered. -/
def leave (d : Dispatcher L) (refuse : MatchError → ε) (deliver : Delivery σ ε L) (node : Tree) (state : σ) :
    Dispatcher L × Except (Halt σ ε) (σ × Nat) :=
  match d.dispatch refuse deliver .leave node state with
  | .ok result => (d.ascend, .ok result)
  | .error halt => (d, .error halt)

/-- Takes one step of a traversal. -/
def step (d : Dispatcher L) (refuse : MatchError → ε) (deliver : Delivery σ ε L) (s : Step) (state : σ) :
    Dispatcher L × Except (Halt σ ε) (σ × Nat) :=
  match s.direction with
  | .enter => d.enter refuse deliver s.node s.parent state
  | .leave => d.leave refuse deliver s.node state

end Dispatcher

end RuleWalk
