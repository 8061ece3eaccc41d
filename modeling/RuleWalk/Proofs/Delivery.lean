import RuleWalk.Proofs.Assembly
import RuleWalk.Proofs.World

/-!
# Dependencies are delivered first

The order of an engine holds the rules that its groups need, and ranks each rule after all it depends on. Emissions come
in order of rank, so within one step all listeners of a rule run before any listener of a rule that depends on it. As a
script writes its own instance only, what a listener is told of a dependency is what the dependency ends the step with.
-/

namespace RuleWalk

variable {K : Type} [Kinds K] {Note : Type} {r : Registry K Note} {groups : List Group} {c : Config}

/-! ## Ranks -/

theorem DeliveryOrder.rankOrTop_of_mem {order : DeliveryOrder} (hnodup : order.ids.Nodup) {id : String}
    (h : id ∈ order.ids) : order.rankOrTop id = ((order.ids.idxOf id : ℕ) : WithTop ℕ) := by
  rw [rankOrTop, (Graph.rank?_eq_some_iff hnodup id _).2 (List.getElem?_idxOf h)]

namespace Engine

/-- The order holds, each once, the rules that the groups need. -/
theorem mem_order_iff {order : DeliveryOrder} (h : orderOf r groups = .ok order) :
    order.ids.Nodup ∧ ∀ id, id ∈ order.ids ↔ r.Needs groups id := by
  obtain ⟨graph, hgraph, hresolve⟩ := orderOf_eq_ok_iff.1 h
  have horder := (Graph.settled_of_resolve hresolve).2
  refine ⟨horder.nodup, fun id => ?_⟩
  rw [horder.listed, Registry.mem_closure_iff hgraph (Graph.complete_of_resolve hresolve)]

/-- A rule has a higher rank than all it depends on. -/
theorem rank_lt_of_transGen {order : DeliveryOrder} (h : orderOf r groups = .ok order) {rule id : String}
    (hrule : rule ∈ order.ids) (hdep : Relation.TransGen r.Declares rule id) :
    order.rankOrTop id < order.rankOrTop rule := by
  obtain ⟨graph, hgraph, hresolve⟩ := orderOf_eq_ok_iff.1 h
  obtain ⟨hsettled, horder⟩ := Graph.settled_of_resolve hresolve
  obtain ⟨hid, hpath⟩ := (Registry.closure_spec hgraph).1.transGen (Graph.complete_of_resolve hresolve)
    ((horder.listed rule).1 hrule) hdep
  have hlt := (hsettled.later_transGen ((horder.listed id).2 hid) hpath).2
  rw [DeliveryOrder.rankOrTop_of_mem horder.nodup hrule,
    DeliveryOrder.rankOrTop_of_mem horder.nodup ((horder.listed id).2 hid)]
  exact WithTop.coe_lt_coe.2 hlt

end Engine

/-! ## The emissions of an engine -/

/-- An emission is for an instance of its owner, a rule that a group names, as the registry declares it. -/
structure Emission.Declared (r : Registry K Note) (groups : List Group) (x : Emission (Listener K Note)) : Prop where
  owner : x.owner = x.listener.binding.tag.rule
  named : ∃ g ∈ groups, x.owner ∈ g.rules
  module : ∃ m, r.find? x.owner = some m ∧ x.listener.binding.dependencies = m.dependencies ∧
    ∃ config made, (m.build config).visitors = .ok made ∧ x.listener.visitor ∈ made

theorem Engine.emissions_spec {e : Engine K Note} (h : (Engine.setup r groups c).outcome = .ok e) {d : Direction}
    {node : Tree} {ancestry : List Tree} {es : List (Emission (Listener K Note))}
    (hes : e.index.emissions d node ancestry = .ok es) :
    (∀ x ∈ es, x.Declared r groups) ∧
      es.Pairwise fun a b => e.order.rankOrTop a.owner ≤ e.order.rankOrTop b.owner := by
  obtain ⟨order, a, registered, index, cache', horder, ha, hv, hbuild, rfl⟩ := setupWith_eq_ok_iff.1 h
  obtain ⟨patterns, hbuilt⟩ := SelectorIndex.built_of_build PatternCache.Made.empty.sound hbuild
  obtain ⟨hits, hhits, hscan⟩ := hbuilt.emissions (hbuilt.decided_of_emissions hes)
  cases hhits.symm.trans hes
  constructor
  · intro x hx
    obtain ⟨⟨reg, place⟩, hhit, rfl⟩ := List.mem_map.1 hx
    have hreg : reg ∈ registered :=
      List.fst_mem_of_mem_zipIdx (List.mem_filter.1 (hscan.perm.mem_iff.1 hhit)).1
    obtain ⟨b, hb, howner, hbinding, made, hmade, hvisitor⟩ := Assembly.mem_visitors hv hreg
    have hdeclared := Assembly.ofGroups_declared ha b hb
    refine ⟨?_, ?_, b.module, ?_, ?_, b.binding.config, made, hmade, hvisitor⟩
    · exact howner.trans (congrArg (·.tag.rule) hbinding.symm)
    · have hnamed := hdeclared.named
      rwa [← howner] at hnamed
    · have hmodule := hdeclared.module
      rwa [← howner] at hmodule
    · exact (congrArg (·.dependencies) hbinding).trans hdeclared.dependencies
  · refine List.pairwise_map.2 (hscan.sorted.imp fun {x y} hlt => ?_)
    rcases SelectorIndex.key_lt_iff.1 hlt with hlt | ⟨heq, -⟩
    · exact (Prod.Lex.toLex_le_toLex'.1 hlt.le).1
    · exact (congrArg (fun turn => (ofLex turn).1) heq).le

/-! ## Deliveries of one step -/

section Deliveries

variable (source : Source) (d : Direction) (node : Tree) (ancestry : List Tree)

/-- The world that the next delivery of a step finds. -/
def Session.current (session : Session K Note) : World K Note :=
  if session.refreshed then session.world else session.world.refresh node ancestry

/-- Runs listeners one after the other. -/
def Listener.runAll (ls : List (Listener K Note)) (w : World K Note) :
    Except (Halt (World K Note) EngineError) (World K Note) :=
  ls.foldlM (fun w l => l.run source d node ancestry w) w

/-- Delivering emissions is running their listeners in a world whose marks are worked out. -/
theorem Engine.foldlM_deliver (es : List (Emission (Listener K Note))) (session : Session K Note) :
    Listener.runAll source d node ancestry (es.map (·.listener)) (session.current node ancestry) =
      match es.foldlM (Engine.deliver source d node ancestry) session with
      | .ok session' => .ok (session'.current node ancestry)
      | .error halt => .error ⟨halt.state.world, halt.error⟩ := by
  induction es generalizing session with
  | nil => rfl
  | cons x rest ih =>
    cases hx : x.listener.run source d node ancestry (session.current node ancestry) with
    | error halt =>
      have hdeliver : Engine.deliver source d node ancestry session x = .error ⟨⟨halt.state, true⟩, halt.error⟩ := by
        unfold Engine.deliver
        dsimp only
        rw [← Session.current, hx]
      rw [Listener.runAll, List.map_cons, foldlM_cons_of_error _ hx, foldlM_cons_of_error rest hdeliver]
    | ok w =>
      have hdeliver : Engine.deliver source d node ancestry session x = .ok ⟨w, true⟩ := by
        unfold Engine.deliver
        dsimp only
        rw [← Session.current, hx]
      rw [Listener.runAll, List.map_cons, foldlM_cons_of_ok _ hx, foldlM_cons_of_ok rest hdeliver]
      exact ih ⟨w, true⟩

variable {d node ancestry}

/-- Listeners of other instances leave an instance and its reports alone. -/
theorem Listener.runAll_frame {tag : StateTag} {ls : List (Listener K Note)} (h : ∀ l ∈ ls, l.binding.tag ≠ tag)
    (w : World K Note) : (Halt.last (runAll source d node ancestry ls w)).states.find? tag = w.states.find? tag ∧
      (Halt.last (runAll source d node ancestry ls w)).diagnostics.filter (·.tag = tag) =
        w.diagnostics.filter (·.tag = tag) := by
  induction ls generalizing w with
  | nil => exact ⟨rfl, rfl⟩
  | cons l rest ih =>
    have hframe := (l.run_changedFor source d node ancestry w).frame (Ne.symm (h l List.mem_cons_self))
    cases hrun : l.run source d node ancestry w with
    | error halt =>
      rw [runAll, foldlM_cons_of_error rest hrun]
      rw [hrun] at hframe
      exact hframe
    | ok w' =>
      rw [runAll, foldlM_cons_of_ok rest hrun]
      rw [hrun] at hframe
      obtain ⟨hstate, hreports⟩ := ih (fun l hl => h l (List.mem_cons_of_mem _ hl)) w'
      exact ⟨hstate.trans hframe.1, hreports.trans hframe.2⟩

/-- Listeners record nothing but writes at the visited node. -/
theorem Listener.runAll_recorded {ls : List (Listener K Note)} {w w₁ : World K Note}
    (hrun : runAll source d node ancestry ls w = .ok w₁) {tag : StateTag} {state₁ : RuleState K}
    (hfind : w₁.states.find? tag = some state₁) : ∃ state, w.states.find? tag = some state ∧
      ∀ entry ∈ state₁.history, entry.1 = node.id ∨ entry ∈ state.history := by
  induction ls generalizing w with
  | nil =>
    cases hrun
    exact ⟨state₁, hfind, fun _ => Or.inr⟩
  | cons l rest ih =>
    obtain ⟨w', hl, hrest⟩ := foldlM_cons_eq_ok hrun
    obtain ⟨state', hfind', hrecorded'⟩ := ih hrest
    have hchanged := l.run_changedFor source d node ancestry w
    rw [hl] at hchanged
    obtain ⟨state, hfind, hrecorded⟩ := hchanged.recorded hfind'
    refine ⟨state, hfind, fun entry hentry => ?_⟩
    rcases hrecorded' entry hentry with heq | hentry
    · exact Or.inl heq
    · exact hrecorded entry hentry

theorem Engine.deliver_refreshed {session session' : Session K Note} {x : Emission (Listener K Note)}
    (h : Engine.deliver source d node ancestry session x = .ok session') : session'.refreshed := by
  unfold Engine.deliver at h
  dsimp only at h
  split at h
  · cases h
    rfl
  · cases h

/-- After a delivery the marks are worked out. -/
theorem Engine.foldlM_deliver_refreshed {session session' : Session K Note} {es : List (Emission (Listener K Note))}
    (hes : es ≠ []) (h : es.foldlM (Engine.deliver source d node ancestry) session = .ok session') :
    session'.refreshed := by
  cases es with
  | nil => exact absurd rfl hes
  | cons x rest =>
    obtain ⟨first, hx, hrest⟩ := foldlM_cons_eq_ok h
    exact foldlM_keeps (fun session : Session K Note => session.refreshed)
      (fun _ _ _ _ _ hstep => Engine.deliver_refreshed source hstep) (Engine.deliver_refreshed source hx) hrest

end Deliveries

namespace Engine

/-- The world at the end of a step, whether all was delivered or not. -/
def worldAfter (e : Engine K Note) (source : Source) (d : Direction) (node : Tree) (ancestry : List Tree) (w : World K Note) :
    World K Note :=
  match ({ index := e.index, ancestry := ancestry } : Dispatcher (Listener K Note)).dispatch .unmatchable
      (deliver source d node) d node ⟨w, false⟩ with
  | .ok (session, _) => session.world
  | .error halt => halt.state.world

theorem worldAfter_eq {e : Engine K Note} {d : Direction} {node : Tree} {ancestry : List Tree}
    {es : List (Emission (Listener K Note))} (h : e.index.emissions d node ancestry = .ok es) (hes : es ≠ [])
    (source : Source) (w : World K Note) : e.worldAfter source d node ancestry w =
      Halt.last (Listener.runAll source d node ancestry (es.map (·.listener)) (w.refresh node ancestry)) := by
  have hrun := foldlM_deliver source d node ancestry es ⟨w, false⟩
  unfold worldAfter Dispatcher.dispatch
  rw [h]
  dsimp only
  cases hfold : es.foldlM (deliver source d node ancestry) ⟨w, false⟩ with
  | error halt =>
    rw [hfold] at hrun
    exact (congrArg Halt.last hrun).symm
  | ok session =>
    rw [hfold] at hrun
    have hcurrent : session.current node ancestry = session.world :=
      if_pos (foldlM_deliver_refreshed source hes hfold)
    exact hcurrent.symm.trans (congrArg Halt.last hrun).symm

/-- Emissions of a rule come before those of a rule that depends on it. -/
theorem precedes_of_transGen {e : Engine K Note} (h : (setup r groups c).outcome = .ok e) {d : Direction} {node : Tree}
    {ancestry : List Tree} {es : List (Emission (Listener K Note))} (hes : e.index.emissions d node ancestry = .ok es)
    {i j : Nat} {x y : Emission (Listener K Note)} (hx : es[i]? = some x) (hy : es[j]? = some y)
    (hdep : Relation.TransGen r.Declares y.owner x.owner) : i < j := by
  obtain ⟨hdeclared, hsorted⟩ := emissions_spec h hes
  obtain ⟨order, a, registered, index, cache', horder, ha, hv, hbuild, rfl⟩ := setupWith_eq_ok_iff.1 h
  obtain ⟨hj, hyj⟩ := List.getElem?_eq_some_iff.1 hy
  obtain ⟨hi, hxi⟩ := List.getElem?_eq_some_iff.1 hx
  have hneeds : r.Needs groups y.owner := by
    obtain ⟨g, hg, hrule⟩ := (hdeclared y (hyj ▸ List.getElem_mem hj)).named
    exact ⟨g, hg, y.owner, hrule, .refl⟩
  have hlt := rank_lt_of_transGen horder (((mem_order_iff horder).2 _).2 hneeds) hdep
  rcases Nat.lt_trichotomy i j with hij | rfl | hji
  · exact hij
  · rw [← hxi, ← hyj] at hlt
    exact absurd hlt (lt_irrefl _)
  · have hle := List.pairwise_iff_getElem.1 hsorted j i hj hi hji
    rw [hxi, hyj] at hle
    exact absurd hlt (not_lt_of_ge hle)

/-- What a listener is told of another rule is what that rule ends the step with. -/
theorem told_is_final {e : Engine K Note} (h : (setup r groups c).outcome = .ok e) {d : Direction} {node : Tree}
    {ancestry : List Tree} {es before after : List (Emission (Listener K Note))} {x : Emission (Listener K Note)}
    (hes : e.index.emissions d node ancestry = .ok es) (hsplit : es = before ++ x :: after) {source : Source}
    {w : World K Note} {session : Session K Note}
    (hbefore : before.foldlM (deliver source d node ancestry) ⟨w, false⟩ = .ok session)
    {tag : StateTag} {value : StateValue K}
    (htold : (tag, value) ∈ x.listener.told source d node ancestry (session.current node ancestry)) :
    r.Declares x.owner tag.rule ∧
      ((e.worldAfter source d node ancestry w).states.find? tag).map (·.value) = some value := by
  obtain ⟨hdeclared, -⟩ := emissions_spec h hes
  have hx : es[before.length]? = some x := by simp [hsplit]
  obtain ⟨m, hfind, hdeps, -⟩ := (hdeclared x (List.mem_of_getElem? hx)).module
  obtain ⟨hdep, hvalue⟩ := Script.told_spec htold
  have hdecl : r.Declares x.owner tag.rule := ⟨m, hfind, hdeps ▸ hdep⟩
  -- from `x` on no emission is for the instance: its owner would come before `x`
  have hothers : ∀ l ∈ (x :: after).map (·.listener), l.binding.tag ≠ tag := by
    intro l hl htag
    obtain ⟨y, hy, rfl⟩ := List.mem_map.1 hl
    obtain ⟨k, hk⟩ := List.mem_iff_getElem?.1 hy
    have hyk : es[before.length + k]? = some y := by
      rw [hsplit, List.getElem?_append_right (Nat.le_add_right _ _), Nat.add_sub_cancel_left, hk]
    have howner : y.owner = tag.rule := by rw [(hdeclared y (List.mem_of_getElem? hyk)).owner, htag]
    have hlt := precedes_of_transGen h hes hyk hx (.single (howner ▸ hdecl))
    omega
  have hrun : Listener.runAll source d node ancestry (es.map (·.listener)) (w.refresh node ancestry) =
      Listener.runAll source d node ancestry ((x :: after).map (·.listener)) (session.current node ancestry) := by
    have hfold := foldlM_deliver source d node ancestry before ⟨w, false⟩
    rw [hbefore] at hfold
    rw [hsplit, List.map_append]
    exact foldlM_append_of_ok _ hfold
  refine ⟨hdecl, ?_⟩
  rw [worldAfter_eq hes (by simp [hsplit]), hrun, (Listener.runAll_frame source hothers _).1]
  exact hvalue (Ne.symm (hothers x.listener (List.mem_map_of_mem List.mem_cons_self)))

/-- For every engine that is set up: the search for the rules that its groups need goes through the graph to its end, where the
place is past all rules and more rounds change nothing; the order holds these rules, each once; at every visit the emissions of
a rule come before those of all rules that depend on it; and what a listener is told of another rule on its way through a step
is what that rule ends the step with. -/
theorem dependencies_first {e : Engine K Note} (h : (setup r groups c).outcome = .ok e) :
    (∃ start graph, r.named groups = .ok start ∧ r.closure groups = .ok graph ∧
      ∀ limit, graph.length ≤ limit → r.expand limit (0, start) = (graph.length, graph)) ∧
    (e.order.ids.Nodup ∧ ∀ id, id ∈ e.order.ids ↔ r.Needs groups id) ∧
    ∀ (d : Direction) (node : Tree) (ancestry : List Tree) (es : List (Emission (Listener K Note))),
      e.index.emissions d node ancestry = .ok es →
      (∀ (i j : Nat) (x y : Emission (Listener K Note)), es[i]? = some x → es[j]? = some y →
        Relation.TransGen r.Declares y.owner x.owner → i < j) ∧
      ∀ (source : Source) (w : World K Note) (before after : List (Emission (Listener K Note)))
        (x : Emission (Listener K Note)) (session : Session K Note), es = before ++ x :: after →
        before.foldlM (deliver source d node ancestry) ⟨w, false⟩ = .ok session →
        ∀ tag value, (tag, value) ∈ x.listener.told source d node ancestry (session.current node ancestry) →
          r.Declares x.owner tag.rule ∧
            ((e.worldAfter source d node ancestry w).states.find? tag).map (·.value) = some value := by
  refine ⟨?_, ?_, fun d node ancestry es hes => ⟨fun i j x y hx hy => precedes_of_transGen h hes hx hy, ?_⟩⟩
  · obtain ⟨order, -, -, -, -, horder, -⟩ := setupWith_eq_ok_iff.1 h
    obtain ⟨graph, hgraph, -⟩ := orderOf_eq_ok_iff.1 horder
    obtain ⟨start, hnamed, hrounds⟩ := Registry.closure_rounds hgraph
    exact ⟨start, graph, hnamed, hgraph, hrounds⟩
  · obtain ⟨order, a, registered, index, cache', horder, ha, hv, hbuild, rfl⟩ := setupWith_eq_ok_iff.1 h
    exact mem_order_iff horder
  · intro source w before after x session hsplit hbefore tag value htold
    exact told_is_final h hes hsplit hbefore htold

end Engine

/-- Asks at every node for a count and stores it. -/
def RuleModule.asking : RuleModule PlainKind Unit where
  name := "asking"
  dependencies := ["count"]
  initial := ⟨.int, (0 : Int)⟩
  visitors := [⟨"*", fun _ => .request "count" .int fun
    | .ok count => .update .int (fun _ => count.value) .finish
    | .error e => .fail e⟩]

/-- Counts the nodes of a name. -/
def RuleModule.count : RuleModule PlainKind Unit where
  name := "count"
  initial := ⟨.int, (0 : Int)⟩
  visitors := [⟨"n", fun _ => .update .int (fun (n : Int) => n + 1) .finish⟩]

/-- Counts for itself and reports what it sees. -/
def RuleModule.apart : RuleModule PlainKind Unit where
  name := "apart"
  initial := ⟨.int, (0 : Int)⟩
  visitors := [⟨"n", fun scene =>
    .update .int (fun (n : Int) => n + 1) fun _ => .report .warning scene.node "seen" .done⟩]

/-- Three rules: one asks for a count and stores it, one counts, and one has nothing to do with either. -/
def Registry.counting : Registry PlainKind Unit :=
  [.asking, .count, .apart].foldl define {}

/-- A rule that asks is listed in front of the one it asks, and under a pattern of less weight. -/
theorem Engine.dependencies_first_counting : ∃ (e : Engine PlainKind Unit) (es : List (Emission (Listener PlainKind Unit))),
    (setup Registry.counting [⟨"g", ["asking", "apart", "count"]⟩] {}).outcome = .ok e ∧ e.order.ids.Nodup ∧
    (∀ id, id ∈ e.order.ids ↔ Registry.counting.Needs [⟨"g", ["asking", "apart", "count"]⟩] id) ∧
    e.index.emissions .enter (.node { name := "n" } []) [] = .ok es ∧
    es.map (·.owner) = ["apart", "count", "asking"] ∧
    ∀ (i j : Nat) (x y : Emission (Listener PlainKind Unit)), es[i]? = some x → es[j]? = some y → x.owner = "count" →
      y.owner = "asking" → i < j := by
  have howners : ((setup Registry.counting [⟨"g", ["asking", "apart", "count"]⟩] {}).outcome.toOption.bind fun e =>
      (e.index.emissions .enter (.node { name := "n" } []) []).toOption.map (·.map (·.owner))) =
        some ["apart", "count", "asking"] := by
    cbv
  obtain ⟨e, he, hemissions⟩ := Option.bind_eq_some_iff.1 howners
  obtain ⟨es, hes, howners⟩ := Option.map_eq_some_iff.1 hemissions
  have hdecl : Registry.counting.Declares "asking" "count" := ⟨_, rfl, List.mem_singleton.2 rfl⟩
  have hsetup := eq_ok_of_toOption he
  have hfound := eq_ok_of_toOption hes
  obtain ⟨-, ⟨hnodup, hneeds⟩, hvisits⟩ := dependencies_first hsetup
  refine ⟨e, es, hsetup, hnodup, hneeds, hfound, howners, fun i j x y hx hy hcount hasking => ?_⟩
  refine (hvisits _ _ _ _ hfound).1 i j x y hx hy ?_
  rw [hcount, hasking]
  exact .single hdecl

end RuleWalk
