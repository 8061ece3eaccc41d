import RuleWalk.Proofs.Delivery
import RuleWalk.Proofs.Traversal

/-!
# The calls of a run

A run can keep a log of the listeners it calls, each with the visit it is called at and the world it finds; without the log
it is the run. With the log it is a recursive visit of the tree: every node is entered and left below its true ancestors, the
emissions of the index are delivered in order, and the first failure ends it.
-/

namespace RuleWalk

variable {K : Type} [Kinds K] {Note : Type}

/-! ## Runs with a log -/

/-- A call of a listener: the visit it is made at, the emission it delivers and the world the listener finds. -/
structure Call (K : Type) [Kinds K] (Note : Type) where
  moment : Moment
  emission : Emission (Listener K Note)
  world : World K Note

/-- What is called and when, whatever the world. -/
def Call.key (c : Call K Note) : Moment × Emission (Listener K Note) :=
  (c.moment, c.emission)

/-- Delivers an emission and adds the call to the log. -/
def Engine.deliverLogged (source : Source) (direction : Direction) (node : Tree) :
    Delivery (Session K Note × List (Call K Note)) EngineError (Listener K Note) :=
  fun ancestry logged emission =>
    let calls := logged.2 ++ [⟨⟨direction, node, ancestry⟩, emission, logged.1.current node ancestry⟩]
    match Engine.deliver source direction node ancestry logged.1 emission with
    | .ok session => .ok (session, calls)
    | .error halt => .error ⟨(halt.state, calls), halt.error⟩

/-- Takes one step of a run and adds its calls to the log. -/
def Progress.advanceLogged (source : Source) (logged : Progress K Note × List (Call K Note)) (s : Step) :
    Except (Halt (World K Note × List (Call K Note)) EngineError) (Progress K Note × List (Call K Note)) :=
  match logged.1.dispatcher.step .unmatchable (Engine.deliverLogged source s.direction s.node) s
      (⟨logged.1.world, false⟩, logged.2) with
  | (dispatcher, .ok (session, delivered)) =>
    .ok (⟨dispatcher, session.1.world, logged.1.deliveries + delivered⟩, session.2)
  | (_, .error halt) => .error ⟨(halt.state.1.world, halt.state.2), halt.error⟩

/-- A run and the calls it has made, in order. -/
structure Record (K : Type) [Kinds K] (Note : Type) where
  run : Run K Note
  calls : List (Call K Note)

/-- Runs the engine on a tree and keeps a log. -/
def Engine.record (e : Engine K Note) (root : Tree) (source : Source) : Record K Note :=
  let queue := root.queue
  match queue.foldlM (Progress.advanceLogged source) (e.start, []) with
  | .ok (p, calls) =>
    ⟨⟨p.world.notes, .ok ⟨p.world.states, p.world.diagnostics, queue.length, p.deliveries⟩⟩, calls⟩
  | .error halt => ⟨⟨halt.state.1.notes, .error halt.error⟩, halt.state.2⟩

/-! ## Without the log -/

section Forget

variable {α σ τ κ ε : Type}

/-- An attempt without its log. -/
def Halt.forget : Except (Halt (τ × κ) ε) (σ × κ) → Except (Halt τ ε) σ
  | .ok state => .ok state.1
  | .error halt => .error ⟨halt.state.1, halt.error⟩

/-- If every step only adds a log to a step, so does a fold. -/
theorem Halt.forget_foldlM {step' : σ × κ → α → Except (Halt (τ × κ) ε) (σ × κ)} {step : σ → α → Except (Halt τ ε) σ}
    (h : ∀ state x, forget (step' state x) = step state.1 x) (l : List α) (state : σ × κ) :
    forget (l.foldlM step' state) = l.foldlM step state.1 := by
  induction l generalizing state with
  | nil => rfl
  | cons x rest ih =>
    have hx := h state x
    cases hstep : step' state x with
    | error halt =>
      rw [hstep] at hx
      rw [foldlM_cons_of_error rest hstep, foldlM_cons_of_error rest hx.symm]
      rfl
    | ok next =>
      rw [hstep] at hx
      rw [foldlM_cons_of_ok rest hstep, foldlM_cons_of_ok rest hx.symm]
      exact ih next

end Forget

theorem Engine.forget_deliverLogged (source : Source) (d : Direction) (node : Tree) (ancestry : List Tree)
    (logged : Session K Note × List (Call K Note)) (x : Emission (Listener K Note)) :
    Halt.forget (deliverLogged source d node ancestry logged x) = deliver source d node ancestry logged.1 x := by
  unfold deliverLogged
  cases deliver source d node ancestry logged.1 x <;> rfl

theorem Progress.forget_advanceLogged (source : Source) (logged : Progress K Note × List (Call K Note)) (s : Step) :
    Halt.forget (advanceLogged source logged s) = logged.1.advance source s := by
  simp only [advanceLogged, advance, Dispatcher.step_eq, Dispatcher.dispatch]
  cases (logged.1.dispatcher.facing s).index.emissions s.direction s.node (logged.1.dispatcher.facing s).ancestry with
  | error e => rfl
  | ok es =>
    dsimp only
    rw [← Halt.forget_foldlM (Engine.forget_deliverLogged source s.direction s.node _) es (⟨logged.1.world, false⟩, logged.2)]
    cases es.foldlM (Engine.deliverLogged source s.direction s.node (logged.1.dispatcher.facing s).ancestry)
      (⟨logged.1.world, false⟩, logged.2) <;> rfl

/-- A run with a log is the run. -/
theorem Engine.run_record (e : Engine K Note) (root : Tree) (source : Source) :
    (e.record root source).run = e.run root source := by
  have hforget := Halt.forget_foldlM (Progress.forget_advanceLogged source) root.queue (e.start, [])
  unfold record run
  dsimp only at hforget ⊢
  rw [← hforget]
  cases root.queue.foldlM (Progress.advanceLogged source) (e.start, []) <;> rfl

/-! ## Recursive visits -/

namespace Tree

variable {σ ε : Type}

mutual

/-- Visits a tree below some ancestors: it is entered, its children are visited in order, and it is left. -/
def visit (act : σ → Moment → Except ε σ) (ancestry : List Tree) : Tree → σ → Except ε σ
  | .node label children, state => do
    let inside ← act state ⟨.enter, .node label children, ancestry⟩
    let outside ← visitAll act (.node label children :: ancestry) children inside
    act outside ⟨.leave, .node label children, ancestry⟩

/-- Visits the trees of a list in order. -/
def visitAll (act : σ → Moment → Except ε σ) (ancestry : List Tree) : List Tree → σ → Except ε σ
  | [], state => .ok state
  | t :: rest, state => do visitAll act ancestry rest (← t.visit act ancestry state)

end

mutual

/-- A recursive visit acts at the moments of the walk one after the other. -/
theorem visit_eq (act : σ → Moment → Except ε σ) (ancestry : List Tree) (t : Tree) (state : σ) :
    t.visit act ancestry state = (t.moments ancestry).foldlM act state := by
  cases t with
  | node label children =>
    rw [visit, moments, List.foldlM_cons]
    refine congrArg (act state ⟨.enter, .node label children, ancestry⟩ >>= ·) (funext fun inside => ?_)
    rw [visitAll_eq, List.foldlM_append]
    refine congrArg (List.foldlM act inside _ >>= ·) (funext fun outside => ?_)
    rw [List.foldlM_cons]
    cases act outside ⟨.leave, .node label children, ancestry⟩ <;> rfl

theorem visitAll_eq (act : σ → Moment → Except ε σ) (ancestry : List Tree) (ts : List Tree) (state : σ) :
    visitAll act ancestry ts state = (momentsAll ancestry ts).foldlM act state := by
  cases ts with
  | nil => rfl
  | cons t rest =>
    rw [visitAll, momentsAll, List.foldlM_append, visit_eq act ancestry t state]
    exact congrArg (List.foldlM act state _ >>= ·) (funext fun state' => visitAll_eq act ancestry rest state')

end

/-- A list of ancestors, nearest first, is the one of a node below a root: each is the parent of the one before it, and the
last is the root. -/
def IsAncestry (root node : Tree) (ancestry : List Tree) : Prop :=
  List.IsChain ChildOf (node :: ancestry) ∧ (node :: ancestry).getLast? = some root

mutual

/-- The moments of a walk have the ancestry of their node. -/
theorem isChain_of_mem_moments (t : Tree) {ancestry : List Tree} (h : List.IsChain ChildOf (t :: ancestry)) {m : Moment}
    (hm : m ∈ t.moments ancestry) :
    List.IsChain ChildOf (m.node :: m.ancestry) ∧ (t :: ancestry) <:+ (m.node :: m.ancestry) := by
  cases t with
  | node label children =>
    rw [moments, List.mem_cons, List.mem_append, List.mem_singleton] at hm
    rcases hm with rfl | hm | rfl
    · exact ⟨h, List.suffix_rfl⟩
    · have hchildren : ∀ t ∈ children, t.ChildOf (.node label children) := fun _ hchild => hchild
      exact isChain_of_mem_momentsAll children hchildren h hm
    · exact ⟨h, List.suffix_rfl⟩

theorem isChain_of_mem_momentsAll (ts : List Tree) {parent : Tree} {ancestry : List Tree} (hts : ∀ t ∈ ts, t.ChildOf parent)
    (h : List.IsChain ChildOf (parent :: ancestry)) {m : Moment} (hm : m ∈ momentsAll (parent :: ancestry) ts) :
    List.IsChain ChildOf (m.node :: m.ancestry) ∧ (parent :: ancestry) <:+ (m.node :: m.ancestry) := by
  cases ts with
  | nil => exact absurd hm List.not_mem_nil
  | cons t rest =>
    rw [momentsAll, List.mem_append] at hm
    rcases hm with hm | hm
    · obtain ⟨hchain, hsuffix⟩ := isChain_of_mem_moments t
        (List.isChain_cons_cons.2 ⟨hts t List.mem_cons_self, h⟩) hm
      exact ⟨hchain, (List.suffix_cons _ _).trans hsuffix⟩
    · exact isChain_of_mem_momentsAll rest (fun t ht => hts t (List.mem_cons_of_mem _ ht)) h hm

end

theorem isAncestry_of_mem_moments {root : Tree} {m : Moment} (hm : m ∈ root.moments []) :
    IsAncestry root m.node m.ancestry := by
  obtain ⟨hchain, before, heq⟩ := isChain_of_mem_moments root (List.isChain_singleton root) hm
  refine ⟨hchain, ?_⟩
  rw [← heq, List.getLast?_append]
  rfl

end Tree

/-! ## A run as a recursive visit -/

/-- Works out the emissions of a moment and delivers them from a session on. -/
def Moment.deliverAll (index : SelectorIndex (Listener K Note)) (source : Source) (m : Moment)
    (logged : Session K Note × List (Call K Note)) :
    Except (Halt (World K Note × List (Call K Note)) EngineError) (World K Note × List (Call K Note)) :=
  match index.emissions m.direction m.node m.ancestry with
  | .error e => .error ⟨(logged.1.world, logged.2), .unmatchable e⟩
  | .ok es =>
    match es.foldlM (Engine.deliverLogged source m.direction m.node m.ancestry) logged with
    | .ok (session, calls) => .ok (session.world, calls)
    | .error halt => .error ⟨(halt.state.1.world, halt.state.2), halt.error⟩

/-- Attends to a moment: its emissions are worked out and delivered in order. -/
def Moment.attend (index : SelectorIndex (Listener K Note)) (source : Source) (state : World K Note × List (Call K Note))
    (m : Moment) : Except (Halt (World K Note × List (Call K Note)) EngineError) (World K Note × List (Call K Note)) :=
  m.deliverAll index source (⟨state.1, false⟩, state.2)

section Deliveries

variable (source : Source) (d : Direction) (node : Tree) (ancestry : List Tree)

theorem Engine.deliverLogged_eq_ok {logged logged' : Session K Note × List (Call K Note)} {x : Emission (Listener K Note)}
    (h : Engine.deliverLogged source d node ancestry logged x = .ok logged') :
    Engine.deliver source d node ancestry logged.1 x = .ok logged'.1 ∧
      logged'.2 = logged.2 ++ [⟨⟨d, node, ancestry⟩, x, logged.1.current node ancestry⟩] := by
  unfold deliverLogged at h
  dsimp only at h
  split at h
  · rename_i session hsession
    cases h
    exact ⟨hsession, rfl⟩
  · cases h

theorem Engine.deliverLogged_eq_error {logged : Session K Note × List (Call K Note)} {x : Emission (Listener K Note)}
    {halt : Halt (Session K Note × List (Call K Note)) EngineError}
    (h : Engine.deliverLogged source d node ancestry logged x = .error halt) :
    Engine.deliver source d node ancestry logged.1 x = .error ⟨halt.state.1, halt.error⟩ ∧
      halt.state.2 = logged.2 ++ [⟨⟨d, node, ancestry⟩, x, logged.1.current node ancestry⟩] := by
  unfold deliverLogged at h
  dsimp only at h
  split at h
  · cases h
  · rename_i halt' hhalt
    cases h
    exact ⟨hhalt, rfl⟩

/-- Delivered emissions are logged in order. -/
theorem Engine.foldlM_deliverLogged_eq_ok {logged logged' : Session K Note × List (Call K Note)}
    {es : List (Emission (Listener K Note))}
    (h : es.foldlM (Engine.deliverLogged source d node ancestry) logged = .ok logged') :
    es.foldlM (Engine.deliver source d node ancestry) logged.1 = .ok logged'.1 ∧
      logged'.2.map Call.key = logged.2.map Call.key ++ es.map (⟨d, node, ancestry⟩, ·) := by
  constructor
  · rw [← Halt.forget_foldlM (Engine.forget_deliverLogged source d node ancestry), h]
    rfl
  · induction es generalizing logged with
    | nil =>
      cases h
      simp
    | cons x rest ih =>
      obtain ⟨next, hx, hrest⟩ := foldlM_cons_eq_ok h
      obtain ⟨-, hcalls⟩ := Engine.deliverLogged_eq_ok source d node ancestry hx
      rw [ih hrest, hcalls]
      simp [Call.key]

end Deliveries

/-- The progress of a run with a log that has come to some world below some ancestors. -/
def Progress.belowLogged (index : SelectorIndex (Listener K Note)) (ancestry : List Tree)
    (state : World K Note × List (Call K Note)) : Progress K Note × List (Call K Note) :=
  (⟨⟨index, ancestry⟩, state.1, state.2.length⟩, state.2)

/-- A step of a run attends to the moment of the step. -/
theorem Progress.advanceLogged_below (index : SelectorIndex (Listener K Note)) (source : Source) (ancestry : List Tree)
    (state : World K Note × List (Call K Note)) (s : Step) :
    Progress.advanceLogged source (Progress.belowLogged index ancestry state) s =
      (Moment.attend index source state (s.moment ancestry)).map (Progress.belowLogged index (s.passing ancestry)) := by
  simp only [advanceLogged, belowLogged, Dispatcher.step_eq, Dispatcher.facing, Dispatcher.dispatch, Moment.attend,
    Moment.deliverAll, Step.moment]
  cases index.emissions s.direction s.node (s.facing ancestry) with
  | error e => rfl
  | ok es =>
    dsimp only
    cases hfold : es.foldlM (Engine.deliverLogged source s.direction s.node (s.facing ancestry))
      (⟨state.1, false⟩, state.2) with
    | error halt => rfl
    | ok logged =>
      have hlength := congrArg List.length (Engine.foldlM_deliverLogged_eq_ok source _ _ _ hfold).2
      simp only [List.length_append, List.length_map] at hlength
      simp only [Except.map, belowLogged, hlength]

namespace Engine

/-- The recursive visit of a tree by an engine. -/
def walk (e : Engine K Note) (root : Tree) (source : Source) :
    Except (Halt (World K Note × List (Call K Note)) EngineError) (World K Note × List (Call K Note)) :=
  root.visit (Moment.attend e.index source) [] ({ states := e.states }, [])

theorem walk_eq (e : Engine K Note) (root : Tree) (source : Source) :
    e.walk root source = (root.moments []).foldlM (Moment.attend e.index source) ({ states := e.states }, []) :=
  Tree.visit_eq _ _ _ _

end Engine

/-- The record of a visit of a tree: each node makes two steps, and each call a delivery. -/
def Record.ofWalk (root : Tree) :
    Except (Halt (World K Note × List (Call K Note)) EngineError) (World K Note × List (Call K Note)) → Record K Note
  | .ok (world, calls) =>
    ⟨⟨world.notes, .ok ⟨world.states, world.diagnostics, 2 * root.size, calls.length⟩⟩, calls⟩
  | .error halt => ⟨⟨halt.state.1.notes, .error halt.error⟩, halt.state.2⟩

/-- A run with a log is the recursive visit of its tree. -/
theorem Engine.record_eq (e : Engine K Note) (root : Tree) (source : Source) :
    e.record root source = .ofWalk root (e.walk root source) := by
  have hfold := foldlM_visited (Progress.advanceLogged_below e.index source) root.queue [] ({ states := e.states }, [])
  rw [root.visited_queue.1, ← e.walk_eq] at hfold
  change root.queue.foldlM (Progress.advanceLogged source) (e.start, []) = _ at hfold
  unfold record
  dsimp only
  rw [hfold, root.length_queue]
  cases e.walk root source <;> rfl

/-! ## What is called -/

/-- The calls that a moment asks for. -/
def Moment.scheduled (index : SelectorIndex (Listener K Note)) (m : Moment) : List (Moment × Emission (Listener K Note)) :=
  match index.emissions m.direction m.node m.ancestry with
  | .ok es => es.map (m, ·)
  | .error _ => []

/-- How attending to a moment fails and what is delivered before: its emissions cannot be worked out, and nothing is
delivered; or a listener fails after those before it. -/
def Engine.FailsAt (e : Engine K Note) (source : Source) (m : Moment) (w : World K Note)
    (delivered : List (Emission (Listener K Note))) (error : EngineError) : Prop :=
  (∃ reason, e.index.emissions m.direction m.node m.ancestry = .error reason ∧ delivered = [] ∧
    error = .unmatchable reason) ∨
  ∃ before x after session halt, e.index.emissions m.direction m.node m.ancestry = .ok (before ++ x :: after) ∧
    before.foldlM (Engine.deliver source m.direction m.node m.ancestry) ⟨w, false⟩ = .ok session ∧
    x.listener.run source m.direction m.node m.ancestry (session.current m.node m.ancestry) = .error halt ∧
    delivered = before ++ [x] ∧ error = halt.error

section Attending

variable {e : Engine K Note} {source : Source} {state state' : World K Note × List (Call K Note)} {m : Moment}

theorem Moment.scheduled_of_ok {index : SelectorIndex (Listener K Note)} {es : List (Emission (Listener K Note))}
    (h : index.emissions m.direction m.node m.ancestry = .ok es) : m.scheduled index = es.map (m, ·) := by
  rw [scheduled, h]

/-- Attending to a moment makes the calls it asks for. -/
theorem Moment.attend_eq_ok (h : m.attend e.index source state = .ok state') :
    (∃ es, e.index.emissions m.direction m.node m.ancestry = .ok es) ∧
      state'.2.map Call.key = state.2.map Call.key ++ m.scheduled e.index := by
  unfold attend deliverAll at h
  cases hes : e.index.emissions m.direction m.node m.ancestry with
  | error reason =>
    rw [hes] at h
    cases h
  | ok es =>
    rw [hes] at h
    dsimp only at h
    split at h
    · rename_i session calls hfold
      cases h
      refine ⟨⟨es, rfl⟩, ?_⟩
      rw [scheduled_of_ok hes]
      exact (Engine.foldlM_deliverLogged_eq_ok source m.direction m.node m.ancestry hfold).2
    · cases h

/-- Attending to a moment fails with the first failure, and the calls up to it are made. -/
theorem Moment.attend_eq_error {halt : Halt (World K Note × List (Call K Note)) EngineError}
    (h : m.attend e.index source state = .error halt) : ∃ delivered, e.FailsAt source m state.1 delivered halt.error ∧
      halt.state.2.map Call.key = state.2.map Call.key ++ delivered.map (m, ·) := by
  unfold attend deliverAll at h
  cases hes : e.index.emissions m.direction m.node m.ancestry with
  | error reason =>
    rw [hes] at h
    cases h
    exact ⟨[], Or.inl ⟨reason, hes, rfl, rfl⟩, (List.append_nil _).symm⟩
  | ok es =>
    rw [hes] at h
    dsimp only at h
    split at h
    · cases h
    · rename_i failure hfold
      cases h
      obtain ⟨before, x, after, logged, rfl, hbefore, hx⟩ := foldlM_eq_error hfold
      obtain ⟨hsession, hkeys⟩ := Engine.foldlM_deliverLogged_eq_ok source _ _ _ hbefore
      obtain ⟨hdeliver, hcall⟩ := Engine.deliverLogged_eq_error source _ _ _ hx
      obtain ⟨halt', hrun, herror⟩ : ∃ halt', x.listener.run source m.direction m.node m.ancestry
          (logged.1.current m.node m.ancestry) = .error halt' ∧ failure.error = halt'.error := by
        unfold Engine.deliver at hdeliver
        dsimp only at hdeliver
        rw [← Session.current] at hdeliver
        split at hdeliver
        · cases hdeliver
        · rename_i halt' hrun
          exact ⟨halt', hrun, (congrArg Halt.error (Except.error.inj hdeliver)).symm⟩
      refine ⟨before ++ [x], Or.inr ⟨before, x, after, logged.1, halt', hes, hsession, hrun, rfl, herror⟩, ?_⟩
      dsimp only
      rw [hcall, List.map_append, hkeys, List.map_append, List.append_assoc]
      rfl

/-- Attending to moments one after the other makes the calls they ask for. -/
theorem Moment.foldlM_attend_eq_ok {ms : List Moment} (h : ms.foldlM (Moment.attend e.index source) state = .ok state') :
    (∀ m ∈ ms, ∃ es, e.index.emissions m.direction m.node m.ancestry = .ok es) ∧
      state'.2.map Call.key = state.2.map Call.key ++ ms.flatMap (Moment.scheduled e.index) := by
  induction ms generalizing state with
  | nil =>
    cases h
    simp
  | cons m rest ih =>
    obtain ⟨next, hm, hrest⟩ := foldlM_cons_eq_ok h
    obtain ⟨hemissions, hkeys⟩ := Moment.attend_eq_ok hm
    obtain ⟨hall, hrest⟩ := ih hrest
    refine ⟨List.forall_mem_cons.2 ⟨hemissions, hall⟩, ?_⟩
    rw [hrest, hkeys, List.flatMap_cons, List.append_assoc]

theorem Engine.FailsAt.isPrefix {w : World K Note} {delivered : List (Emission (Listener K Note))} {error : EngineError}
    (h : e.FailsAt source m w delivered error) : delivered.map (m, ·) <+: m.scheduled e.index := by
  rcases h with ⟨_, _, rfl, _⟩ | ⟨before, x, after, _, _, hes, _, _, rfl, _⟩
  · exact List.nil_prefix
  · rw [Moment.scheduled_of_ok hes]
    exact ⟨after.map (m, ·), by simp⟩

end Attending

/-- At every step of a run the dispatcher has the ancestry of the visited node. -/
theorem Engine.ancestry_facing (e : Engine K Note) {root : Tree} {source : Source} {before after : List Step} {s : Step}
    {p : Progress K Note} (hqueue : root.queue = before ++ s :: after)
    (hrun : before.foldlM (Progress.advance source) e.start = .ok p) :
    (root.moments [])[before.length]? = some ⟨s.direction, s.node, (p.dispatcher.facing s).ancestry⟩ := by
  have hfold := foldlM_visited (Progress.advance_below e.index source) before [] ({ states := e.states }, 0)
  change before.foldlM (Progress.advance source) e.start = _ at hfold
  rw [hrun] at hfold
  cases htake : (Step.visited [] before).foldlM (Moment.take e.index source) ({ states := e.states }, 0) with
  | error halt =>
    rw [htake] at hfold
    cases hfold
  | ok state =>
    rw [htake] at hfold
    cases hfold
    rw [← root.visited_queue.1, hqueue, Step.visited_append, List.getElem?_append_right (Step.length_visited _ _).le,
      Step.length_visited, Nat.sub_self]
    rfl

/-- After its last step a run has no ancestors left. -/
theorem Engine.ancestry_end (e : Engine K Note) {root : Tree} {source : Source} {p : Progress K Note}
    (hrun : root.queue.foldlM (Progress.advance source) e.start = .ok p) : p.dispatcher.ancestry = [] := by
  have hfold := foldlM_visited (Progress.advance_below e.index source) root.queue [] ({ states := e.states }, 0)
  change root.queue.foldlM (Progress.advance source) e.start = _ at hfold
  rw [hrun, root.visited_queue.2] at hfold
  cases htake : (Step.visited [] root.queue).foldlM (Moment.take e.index source) ({ states := e.states }, 0) with
  | error halt =>
    rw [htake] at hfold
    cases hfold
  | ok state =>
    rw [htake] at hfold
    cases hfold
    rfl

/-- A run that gets through has made the calls of all moments. -/
theorem Engine.calls_of_ok {e : Engine K Note} {root : Tree} {source : Source} {report : Report K}
    (h : (e.run root source).outcome = .ok report) :
    (∀ m ∈ root.moments [], ∃ es, e.index.emissions m.direction m.node m.ancestry = .ok es) ∧
    (e.record root source).calls.map Call.key = (root.moments []).flatMap (Moment.scheduled e.index) ∧
    report.steps = 2 * root.size ∧ report.deliveries = (e.record root source).calls.length := by
  rw [← e.run_record, e.record_eq] at h
  rw [e.record_eq]
  cases hwalk : e.walk root source with
  | error halt =>
    rw [hwalk] at h
    cases h
  | ok state =>
    rw [hwalk] at h
    cases h
    rw [e.walk_eq] at hwalk
    obtain ⟨hall, hkeys⟩ := Moment.foldlM_attend_eq_ok hwalk
    rw [List.map_nil, List.nil_append] at hkeys
    exact ⟨hall, hkeys, rfl, rfl⟩

/-- A run that fails has made the calls of the moments before the first that fails, and some of that moment. -/
theorem Engine.calls_of_error {e : Engine K Note} {root : Tree} {source : Source} {error : EngineError}
    (h : (e.run root source).outcome = .error error) :
    ∃ before m after w calls delivered, root.moments [] = before ++ m :: after ∧
      before.foldlM (Moment.attend e.index source) ({ states := e.states }, []) = .ok (w, calls) ∧
      e.FailsAt source m w delivered error ∧
      (e.record root source).calls.map Call.key = before.flatMap (Moment.scheduled e.index) ++ delivered.map (m, ·) := by
  rw [← e.run_record, e.record_eq] at h
  rw [e.record_eq]
  cases hwalk : e.walk root source with
  | ok state =>
    rw [hwalk] at h
    cases h
  | error halt =>
    rw [hwalk] at h
    cases h
    rw [e.walk_eq] at hwalk
    obtain ⟨before, m, after, ⟨w, calls⟩, hsplit, hbefore, hm⟩ := foldlM_eq_error hwalk
    obtain ⟨-, hkeys⟩ := Moment.foldlM_attend_eq_ok hbefore
    obtain ⟨delivered, hfails, hcalls⟩ := Moment.attend_eq_error hm
    rw [hkeys, List.map_nil, List.nil_append] at hcalls
    exact ⟨before, m, after, w, calls, delivered, hsplit, hbefore, hfails, hcalls⟩

/-- A run refines the recursive visit of its tree. Its log can be added without changing it, and with the log it is the visit
in which every node is entered, then its children are visited, then it is left. At every step the dispatcher has the true
ancestors of the visited node, and none at the end. A run that gets through has taken two steps for every node and has made
the calls of all moments, one delivery each. A run that fails does so at the first moment that fails, before any call of the
moment if its emissions cannot be worked out, and has made a beginning of those calls. -/
theorem Engine.run_refines_visit (e : Engine K Note) (root : Tree) (source : Source) :
    (e.record root source).run = e.run root source ∧
    e.record root source =
      .ofWalk root (root.visit (Moment.attend e.index source) [] ({ states := e.states }, [])) ∧
    (∀ before s after p, root.queue = before ++ s :: after →
      before.foldlM (Progress.advance source) e.start = .ok p →
      (root.moments [])[before.length]? = some ⟨s.direction, s.node, (p.dispatcher.facing s).ancestry⟩ ∧
      root.IsAncestry s.node (p.dispatcher.facing s).ancestry) ∧
    (∀ p, root.queue.foldlM (Progress.advance source) e.start = .ok p → p.dispatcher.ancestry = []) ∧
    (∀ report, (e.run root source).outcome = .ok report →
      (∀ m ∈ root.moments [], ∃ es, e.index.emissions m.direction m.node m.ancestry = .ok es) ∧
      (e.record root source).calls.map Call.key = (root.moments []).flatMap (Moment.scheduled e.index) ∧
      report.steps = 2 * root.size ∧
      report.deliveries = ((root.moments []).map fun m => (m.scheduled e.index).length).sum) ∧
    ∀ error, (e.run root source).outcome = .error error →
      ∃ before m after w calls delivered, root.moments [] = before ++ m :: after ∧
        before.foldlM (Moment.attend e.index source) ({ states := e.states }, []) = .ok (w, calls) ∧
        e.FailsAt source m w delivered error ∧
        (e.record root source).calls.map Call.key =
          before.flatMap (Moment.scheduled e.index) ++ delivered.map (m, ·) ∧
        (e.record root source).calls.map Call.key <+: (root.moments []).flatMap (Moment.scheduled e.index) := by
  refine ⟨e.run_record root source, e.record_eq root source, ?_, fun p hrun => e.ancestry_end hrun, ?_, ?_⟩
  · intro before s after p hqueue hrun
    have hmoment := e.ancestry_facing hqueue hrun
    exact ⟨hmoment, Tree.isAncestry_of_mem_moments (List.mem_of_getElem? hmoment)⟩
  · intro report hok
    obtain ⟨hall, hkeys, hsteps, hdeliveries⟩ := Engine.calls_of_ok hok
    refine ⟨hall, hkeys, hsteps, ?_⟩
    have hlength := congrArg List.length hkeys
    rw [List.length_map, List.length_flatMap] at hlength
    exact hdeliveries.trans hlength
  · intro error herror
    obtain ⟨before, m, after, w, calls, delivered, hsplit, hbefore, hfails, hcalls⟩ := Engine.calls_of_error herror
    refine ⟨before, m, after, w, calls, delivered, hsplit, hbefore, hfails, hcalls, ?_⟩
    rw [hcalls, hsplit, List.flatMap_append, List.flatMap_cons]
    exact (List.prefix_append_right_inj _).2 (hfails.isPrefix.trans (List.prefix_append _ _))

end RuleWalk
