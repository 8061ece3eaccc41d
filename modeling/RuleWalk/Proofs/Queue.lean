import RuleWalk.Proofs.Traversal

/-!
# The loop behind the queue

Each pass of the loop takes one step from the stack and puts those on it that follow, which may be many. What goes down with
every pass is the number of steps that the stack stands for, so the loop ends, and what it has laid out by then is the recursive
walk. In the walk every occurrence of a node has two places, and what stands between them is the walk below it.
-/

namespace RuleWalk

namespace Step

/-! ## Passes of the loop -/

/-- The stack after one pass: its first step is taken, and those that follow from it come before the others. -/
def pass : List Step → List Step
  | [] => []
  | step :: pending => step.successors ++ pending

/-- The number of steps that a step on the stack stands for. -/
def weight (s : Step) : Nat :=
  match s.direction with
  | .enter => 2 * s.node.size
  | .leave => 1

/-- The number of steps that a stack stands for. -/
def remaining (stack : List Step) : Nat :=
  (stack.map weight).sum

theorem remaining_cons (s : Step) (pending : List Step) : remaining (s :: pending) = s.weight + remaining pending := by
  rw [remaining, List.map_cons, List.sum_cons]
  rfl

theorem remaining_append (stack pending : List Step) :
    remaining (stack ++ pending) = remaining stack + remaining pending := by
  rw [remaining, List.map_append, List.sum_append]
  rfl

/-- Children on the stack stand for two steps for each node of their subtrees. -/
theorem remaining_children (ts : List Tree) (parent : Tree) :
    remaining (ts.map fun child => ⟨.enter, child, some parent⟩) = 2 * Tree.sizeAll ts := by
  induction ts with
  | nil => rfl
  | cons t rest ih =>
    rw [List.map_cons, remaining_cons, ih, weight, Tree.sizeAll, Nat.mul_add]

/-- Taking a step counts for one, however many follow from it. -/
theorem remaining_successors (s : Step) : remaining s.successors + 1 = s.weight := by
  obtain ⟨direction, ⟨label, children⟩, parent⟩ := s
  cases direction with
  | enter =>
    have hchildren := remaining_children children (.node label children)
    have hleave : remaining [⟨.leave, .node label children, parent⟩] = 1 := rfl
    simp only [successors, Tree.children, remaining_append, hchildren, hleave, weight, Tree.size]
    omega
  | leave => rfl

/-- A pass takes one step off, and none off an empty stack. -/
theorem remaining_pass (stack : List Step) : remaining (pass stack) = remaining stack - 1 := by
  cases stack with
  | nil => rfl
  | cons s pending =>
    have hstep := remaining_successors s
    rw [pass, remaining_append, remaining_cons]
    omega

theorem remaining_iterate (n : Nat) (stack : List Step) : remaining (pass^[n] stack) = remaining stack - n := by
  induction n with
  | zero => rfl
  | succ n ih => rw [Function.iterate_succ_apply', remaining_pass, ih, Nat.sub_sub]

/-- Nothing remains exactly if the stack is empty. -/
theorem remaining_eq_zero_iff {stack : List Step} : remaining stack = 0 ↔ stack = [] := by
  constructor
  · intro h
    cases stack with
    | nil => rfl
    | cons s pending =>
      have hstep := remaining_successors s
      rw [remaining_cons] at h
      omega
  · rintro rfl
    rfl

/-- The loop comes to an end after as many passes as its stack stands for, and not before. -/
theorem iterate_pass_eq_nil_iff (n : Nat) (stack : List Step) : pass^[n] stack = [] ↔ remaining stack ≤ n := by
  rw [← remaining_eq_zero_iff, remaining_iterate, Nat.sub_eq_zero_iff_le]

/-- With fewer passes the loop lays out the beginning of what it lays out with more. -/
theorem drain_eq_take (limit more : Nat) (stack : List Step) :
    drain limit stack = (drain (limit + more) stack).take limit := by
  induction limit generalizing stack with
  | zero => rfl
  | succ limit ih =>
    rw [Nat.succ_add]
    cases stack with
    | nil => rfl
    | cons s pending => rw [drain, drain, List.take_succ_cons, ← ih]

end Step

namespace Tree

/-- The passes of the loop on a tree lay out its walk step by step. -/
theorem drain_eq_take_walk (limit : Nat) (root : Tree) :
    Step.drain limit [⟨.enter, root, none⟩] = (root.walk none).take limit := by
  have hwalk := drain_walk root none limit []
  have hnil : Step.drain limit [] = [] := by cases limit <;> rfl
  rw [hnil, List.append_nil, Nat.add_comm] at hwalk
  rw [Step.drain_eq_take limit (2 * root.size), hwalk]

/-! ## The two places of a node -/

theorem walkAll_eq_flatMap (parent : Tree) (ts : List Tree) : walkAll parent ts = ts.flatMap (walk (some parent)) := by
  induction ts with
  | nil => rfl
  | cons t rest ih => rw [walkAll, List.flatMap_cons, ih]

/-- A walk enters the node, goes through the subtrees of its children in order and leaves the node. -/
theorem walk_eq (t : Tree) (parent : Option Tree) : t.walk parent =
    ⟨.enter, t, parent⟩ :: (t.children.flatMap (walk (some t)) ++ [⟨.leave, t, parent⟩]) := by
  cases t with
  | node label children => rw [walk, walkAll_eq_flatMap, Tree.children]

mutual

/-- Where the nodes of a tree are entered and left, in document order, if its walk starts at a place. -/
def spans (start : Nat) : Tree → List (Nat × Nat)
  | .node _ children => (start, start + 1 + 2 * sizeAll children) :: spansAll (start + 1) children

/-- Where the nodes of all trees of a list are entered and left. -/
def spansAll (start : Nat) : List Tree → List (Nat × Nat)
  | [] => []
  | t :: rest => t.spans start ++ spansAll (start + 2 * t.size) rest

end

/-- A node with its ancestors is entered at one place of a list of steps and left at another, and the walk below it stands
between the two. -/
structure Spanned (steps : List Step) (place : Tree × List Tree) (span : Nat × Nat) : Prop where
  enters : steps[span.1]? = some ⟨.enter, place.1, place.2.head?⟩
  leaves : steps[span.2]? = some ⟨.leave, place.1, place.2.head?⟩
  between : (steps.take span.2).drop (span.1 + 1) = place.1.children.flatMap (walk (some place.1))

/-- A node is entered where its walk begins and left where that ends. -/
theorem spanned_walk (label : Label) (children ancestors : List Tree) (before after : List Step) :
    Spanned (before ++ ((Tree.node label children).walk ancestors.head? ++ after)) (.node label children, ancestors)
      (before.length, before.length + 1 + 2 * sizeAll children) := by
  have hlength := length_walkAll children (.node label children)
  rw [walk, ← hlength]
  refine ⟨by simp, ?_, ?_⟩
  · rw [Nat.add_assoc, List.getElem?_append_right (Nat.le_add_right _ _), Nat.add_sub_cancel_left, Nat.add_comm]
    simp
  · rw [Nat.add_assoc, List.take_length_add_append, List.drop_length_add_append, Nat.add_comm 1]
    simp [walkAll_eq_flatMap, Tree.children]

mutual

/-- The spans of a tree fit its walk, wherever the walk stands in a longer one. -/
theorem spanned_spans (t : Tree) (ancestors : List Tree) (before after : List Step) :
    List.Forall₂ (Spanned (before ++ (t.walk ancestors.head? ++ after))) (t.places ancestors) (t.spans before.length) := by
  cases t with
  | node label children =>
    refine .cons (spanned_walk label children ancestors before after) ?_
    -- the children are walked after the step in and before the step out
    have hinside := spanned_spansAll children (.node label children) ancestors
      (before ++ [⟨.enter, .node label children, ancestors.head?⟩])
      (⟨.leave, .node label children, ancestors.head?⟩ :: after)
    simpa [walk] using hinside

theorem spanned_spansAll (ts : List Tree) (parent : Tree) (ancestors : List Tree) (before after : List Step) :
    List.Forall₂ (Spanned (before ++ (walkAll parent ts ++ after))) (placesAll (parent :: ancestors) ts)
      (spansAll before.length ts) := by
  cases ts with
  | nil => exact .nil
  | cons t rest =>
    have hfirst := spanned_spans t (parent :: ancestors) before (walkAll parent rest ++ after)
    have hrest := spanned_spansAll rest parent ancestors (before ++ t.walk (some parent)) after
    rw [List.length_append, length_walk] at hrest
    rw [walkAll, placesAll, spansAll]
    simp only [List.append_assoc] at hrest ⊢
    exact List.rel_append hfirst hrest

end

/-- The two places of a node. -/
def ends (span : Nat × Nat) : List Nat :=
  [span.1, span.2]

mutual

/-- No two occurrences share a place, and every place of a walk is that of some occurrence. -/
theorem ends_spans (t : Tree) (start : Nat) : ((t.spans start).flatMap ends).Perm (List.range' start (2 * t.size)) := by
  cases t with
  | node label children =>
    have hinside := ends_spansAll children (start + 1)
    have hsize : 2 * (Tree.node label children).size = 2 * sizeAll children + 1 + 1 := by rw [size, Nat.mul_add]
    rw [spans, List.flatMap_cons, hsize, List.range'_succ, List.range'_concat, ends, Nat.one_mul]
    exact .cons _ ((hinside.cons _).trans (List.perm_append_singleton _ _).symm)

/-- Between them the spans of some trees use each place of their walks once. -/
theorem ends_spansAll (ts : List Tree) (start : Nat) :
    ((spansAll start ts).flatMap ends).Perm (List.range' start (2 * sizeAll ts)) := by
  cases ts with
  | nil => exact .nil
  | cons t rest =>
    rw [spansAll, List.flatMap_append, sizeAll, Nat.mul_add, ← List.range'_append_1]
    exact (ends_spans t start).append (ends_spansAll rest _)

end

mutual

/-- A tree has a place for each of its nodes. -/
theorem length_places (t : Tree) (ancestors : List Tree) : (t.places ancestors).length = t.size := by
  cases t with
  | node label children => rw [places, List.length_cons, length_placesAll, size]

theorem length_placesAll (ts : List Tree) (ancestors : List Tree) : (placesAll ancestors ts).length = sizeAll ts := by
  cases ts with
  | nil => rfl
  | cons t rest => rw [placesAll, List.length_append, length_places, length_placesAll, sizeAll]

end

/-- The loop that lays out the queue of a tree ends, after two passes for every node, and lays out the recursive walk. So every
occurrence of a node has one place where it is entered and one where it is left, both with its parent, and between them stand
exactly the steps below it. -/
theorem queue_by_loop (root : Tree) :
    (∀ n, Step.pass^[n] [⟨.enter, root, none⟩] = [] ↔ 2 * root.nodes.length ≤ n) ∧
    (∀ n, Step.drain n [⟨.enter, root, none⟩] = (root.walk none).take n) ∧
    root.queue = root.walk none ∧
    (∀ (t : Tree) (parent : Option Tree), t.walk parent =
      ⟨.enter, t, parent⟩ :: (t.children.flatMap (walk (some t)) ++ [⟨.leave, t, parent⟩])) ∧
    (∃ spans : List (Nat × Nat),
      List.Forall₂ (Spanned root.queue) (root.places []) spans ∧
      (spans.flatMap ends).Perm (List.range root.queue.length)) ∧
    root.queue.length = 2 * root.nodes.length := by
  have hnodes : root.nodes.length = root.size := by rw [nodes, List.length_map, length_places]
  refine ⟨fun n => ?_, fun n => drain_eq_take_walk n root, root.queue_eq_walk, walk_eq, ⟨root.spans 0, ?_, ?_⟩, ?_⟩
  · rw [Step.iterate_pass_eq_nil_iff, hnodes]
    rfl
  · have hspans := spanned_spans root [] [] []
    simpa [queue_eq_walk] using hspans
  · rw [root.length_queue, List.range_eq_range']
    exact ends_spans root 0
  · rw [root.length_queue, hnodes]

end Tree

end RuleWalk
