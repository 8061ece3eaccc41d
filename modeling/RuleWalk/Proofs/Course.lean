import RuleWalk.Proofs.Instances
import RuleWalk.Proofs.Isolation

/-!
# The course of one instance

Of a run, one instance takes part in little: the moments at which a visitor of its rule is called. What other instances do does
not concern it, and working out marks does not touch its value. So what it shows at the end of a run, its value and what was
reported for it, comes about turn by turn over the walk of the tree.
-/

namespace RuleWalk

variable {K : Type} [Kinds K] {Note : Type} {tag : StateTag} {k : K}

/-! ## What an instance shows -/

/-- What an instance shows in a world: a value of a kind, and all that has been reported for it. -/
structure World.Shows (w : World K Note) (tag : StateTag) (k : K) (shown : Carrier k × List Diagnostic) : Prop where
  value : (w.states.find? tag).map (·.value) = some ⟨k, shown.1⟩
  reports : w.diagnostics.filter (·.tag = tag) = shown.2

namespace World.Shows

variable {w w' : World K Note} {shown : Carrier k × List Diagnostic}

theorem refresh (h : w.Shows tag k shown) (node : Tree) (ancestry : List Tree) :
    (w.refresh node ancestry).Shows tag k shown := by
  refine ⟨?_, h.reports⟩
  rw [World.refresh, StateTable.find?_refresh, Option.map_map]
  exact h.value

/-- What is done for another instance does not show. -/
theorem of_changedFor (h : w.Shows tag k shown) {other : StateTag} {node : NodeId} (hchanged : ChangedFor other node w w')
    (hne : tag ≠ other) : w'.Shows tag k shown := by
  obtain ⟨hfind, hreports⟩ := hchanged.frame hne
  exact ⟨by rw [hfind, h.value], by rw [hreports, h.reports]⟩

theorem read (h : w.Shows tag k shown) : w.states.read tag k = .ok shown.1 := by
  obtain ⟨state, hfind, hvalue⟩ := Option.map_eq_some_iff.1 h.value
  simp [StateTable.read, StateTable.get, hfind, hvalue, bind, Except.bind]

theorem updated (h : w.Shows tag k shown) {f : Carrier k → Carrier k} {node : NodeId} {visit : Visit} {states : StateTable K}
    (hup : w.states.updated tag k f node visit = .ok states) :
    ({ w with states := states } : World K Note).Shows tag k (f shown.1, shown.2) := by
  obtain ⟨state, state', hfind, hstate, hall⟩ := StateTable.find?_updated hup
  have hvalue := h.value
  rw [hfind, Option.map_some, Option.some.injEq] at hvalue
  rw [RuleState.update?, hvalue, StateValue.as?_mk, Option.map_some, Option.some.injEq] at hstate
  refine ⟨?_, h.reports⟩
  rw [hall, if_pos rfl, ← hstate]
  rfl

/-- A script that reads the instance's own value goes on with what it shows. -/
theorem run_read (h : w.Shows tag k shown) {b : Binding} (hb : b.tag = tag) (scene : Scene)
    (next : Except EngineError (Carrier k) → Script K Note) :
    (Script.read k next).run b scene w = (next (.ok shown.1)).run b scene w := by
  rw [Script.run, hb, h.read]
  rfl

/-- A script that makes one report and ends has made it. -/
theorem of_report (h : w.Shows tag k shown) {b : Binding} (hb : b.tag = tag) {scene : Scene} {severity : Severity} {node : Tree}
    {message : String} (hrun : (Script.report severity node message .done).run b scene w = .ok w') :
    w'.Shows tag k (shown.1, shown.2 ++
      [⟨tag, severity, message, node.ranges.head?.map fun range => scene.source.position range.start⟩]) := by
  subst hb
  cases hrun
  exact ⟨h.value, by simp [h.reports]⟩

/-- A script that makes one write and ends has made it if it gets through. -/
theorem of_write (h : w.Shows tag k shown) {b : Binding} (hb : b.tag = tag) {scene : Scene} {f : Carrier k → Carrier k}
    (hrun : (Script.update k f .finish).run b scene w = .ok w') : w'.Shows tag k (f shown.1, shown.2) := by
  subst hb
  rw [Script.run_update] at hrun
  split at hrun
  · rename_i states hup
    cases hrun
    exact h.updated hup
  · cases hrun

end World.Shows

/-! ## The listeners of an instance -/

/-- Whether the selector of a visitor asks for this moment of a visit and holds there. -/
def Visitor.hears (v : Visitor K Note) (direction : Direction) (node : Tree) (ancestry : List Tree) : Bool :=
  match Pattern.parse v.selector with
  | .ok p => p.on direction && p.holds node ancestry
  | .error _ => false

section Registrations

variable {r : Registry K Note}

theorem Registry.registrationsFor_of_plain {b : Binding} {m : RuleModule K Note} (hm : r.find? b.tag.rule = some m)
    (hplain : m.factory = none) :
    r.registrationsFor b = m.visitors.map fun v => ⟨v.selector, b.tag.rule, ⟨b, v⟩⟩ := by
  have hbuild : m.build b.config = ⟨[], .ok m.visitors⟩ := by rw [RuleModule.build, hplain]
  rw [registrationsFor, buildFor, hm]
  dsimp only
  rw [hbuild]
  rfl

theorem Registry.tag_of_mem_registrationsFor {b : Binding} {reg : Registration (Listener K Note)}
    (h : reg ∈ r.registrationsFor b) : reg.listener.binding.tag = b.tag := by
  obtain ⟨v, -, rfl⟩ := List.mem_map.1 h
  rfl

/-- Instances have different tags, so the registrations under the tag of one are its own. -/
theorem Registry.filter_registrationsFor {bindings : List Binding} (hnodup : (bindings.map (·.tag)).Nodup) {b : Binding}
    (hb : b ∈ bindings) : (bindings.flatMap r.registrationsFor).filter (·.listener.binding.tag = b.tag) =
      r.registrationsFor b := by
  have hnone : ∀ others : List Binding, (∀ b' ∈ others, b'.tag ≠ b.tag) →
      (others.flatMap r.registrationsFor).filter (·.listener.binding.tag = b.tag) = [] := by
    intro others hothers
    refine List.filter_eq_nil_iff.2 fun reg hreg htag => ?_
    obtain ⟨b', hb', hreg⟩ := List.mem_flatMap.1 hreg
    exact hothers b' hb' ((tag_of_mem_registrationsFor hreg).symm.trans (of_decide_eq_true htag))
  have hall : (r.registrationsFor b).filter (·.listener.binding.tag = b.tag) = r.registrationsFor b :=
    List.filter_eq_self.2 fun reg hreg => decide_eq_true (tag_of_mem_registrationsFor hreg)
  obtain ⟨before, after, rfl⟩ := List.append_of_mem hb
  rw [List.map_append, List.map_cons, List.nodup_append, List.nodup_cons] at hnodup
  obtain ⟨-, ⟨hafter, -⟩, hbefore⟩ := hnodup
  rw [List.flatMap_append, List.flatMap_cons, List.filter_append, List.filter_append, hall, hnone before, hnone after,
    List.nil_append, List.append_nil]
  · exact fun b' hb' heq => hafter (heq ▸ List.mem_map_of_mem hb')
  · exact fun b' hb' => hbefore b'.tag (List.mem_map_of_mem hb') b.tag List.mem_cons_self

end Registrations

section Engines

variable {r : Registry K Note} {groups : List Group} {c : Config} {cache : PatternCache} {e : Engine K Note}
  {m : RuleModule K Note}

/-- A group that lists a rule has an instance of it. -/
theorem Engine.tag_mem_tags (h : (Engine.setupWith cache r groups c).outcome = .ok e) {g : Group} (hg : g ∈ groups)
    {rule : String} (hrule : rule ∈ g.rules) : c.tag g.id rule ∈ e.tags := by
  obtain ⟨order, a, registered, index, cache', -, ha, -, -, rfl⟩ := Engine.setupWith_eq_ok_iff.1 h
  obtain ⟨b, hb, htag⟩ := ((Assembly.ofGroups_exact ha).mem_tags _).2 (Config.mem_tags_iff.2 ⟨g, hg, rule, hrule, rfl⟩)
  exact htag ▸ List.mem_map_of_mem (List.mem_map_of_mem hb)

/-- An instance starts with the value of its rule, and at each moment those of the rule's visitors are called for it, each
once, that ask for the moment. -/
theorem Engine.own_listeners (hcache : cache.Made) (h : (Engine.setupWith cache r groups c).outcome = .ok e)
    (htag : tag ∈ e.tags) (hm : r.find? tag.rule = some m) (hplain : m.factory = none) :
    (e.states.find? tag).map (·.value) = some m.initial ∧
    ∃ b : Binding, b.tag = tag ∧ ∀ (d : Direction) (node : Tree) (ancestry : List Tree)
      (es : List (Emission (Listener K Note))), e.index.emissions d node ancestry = .ok es →
        ((es.map (·.listener)).filter (·.binding.tag = tag)).Perm
          ((m.visitors.filter (·.hears d node ancestry)).map (⟨b, ·⟩)) := by
  obtain ⟨order, a, registered, index, cache', -, ha, hv, hbuild, rfl⟩ := Engine.setupWith_eq_ok_iff.1 h
  have hexact := Assembly.ofGroups_exact ha
  have hdeclared := Assembly.ofGroups_declared ha
  obtain ⟨b, hb, rfl⟩ := List.mem_map.1 htag
  obtain ⟨bound, hbound, rfl⟩ := List.mem_map.1 hb
  cases (hdeclared bound hbound).module.symm.trans hm
  refine ⟨by rw [hexact.find?_tag hbound]; rfl, bound.binding, rfl, fun d node ancestry es hes => ?_⟩
  obtain ⟨patterns, hbuilt⟩ := SelectorIndex.built_of_build hcache.sound hbuild
  obtain ⟨hits, hhits, hscan⟩ := hbuilt.emissions (hbuilt.decided_of_emissions hes)
  cases hes.symm.trans hhits
  -- the registrations that hear the moment, and of these the ones of the instance
  have hall : ((hits.map (·.1.emission order)).map (·.listener)).Perm
      ((registered.filter (·.hears d node ancestry)).map (·.listener)) := by
    rw [SelectorIndex.filter_eq_map_zipIdx, List.map_map, List.map_map]
    exact hscan.perm.map _
  have hown : registered.filter (·.listener.binding.tag = bound.binding.tag) = r.registrationsFor bound.binding := by
    have hnodup := hexact.nodup_tags
    rw [(Assembly.visitors_eq hdeclared hv).2.2]
    exact Registry.filter_registrationsFor (by rwa [List.map_map]) hb
  refine (hall.filter _).trans ?_
  rw [List.filter_map, List.filter_filter]
  have hswap : registered.filter (fun reg => (decide (reg.listener.binding.tag = bound.binding.tag)) &&
      reg.hears d node ancestry) = (r.registrationsFor bound.binding).filter (·.hears d node ancestry) := by
    rw [← hown, List.filter_filter]
    exact List.filter_congr fun _ _ => Bool.and_comm _ _
  change (List.map _ (registered.filter (fun reg => (decide (reg.listener.binding.tag = bound.binding.tag)) &&
      reg.hears d node ancestry))).Perm _
  rw [hswap, Registry.registrationsFor_of_plain hm hplain, List.filter_map, List.map_map]
  exact .refl _

/-! ## Turns -/

/-- Running listeners, an instance shows what its own make of it one after the other. -/
theorem Listener.runAll_shows {source : Source} {d : Direction} {node : Tree} {ancestry : List Tree}
    (act : Carrier k × List Diagnostic → Listener K Note → Carrier k × List Diagnostic) {ls : List (Listener K Note)}
    (hact : ∀ l ∈ ls, l.binding.tag = tag → ∀ (w w' : World K Note) shown, w.Shows tag k shown →
      l.run source d node ancestry w = .ok w' → w'.Shows tag k (act shown l))
    {w w' : World K Note} {shown : Carrier k × List Diagnostic} (h : w.Shows tag k shown)
    (hrun : Listener.runAll source d node ancestry ls w = .ok w') :
    w'.Shows tag k ((ls.filter (·.binding.tag = tag)).foldl act shown) := by
  induction ls generalizing w shown with
  | nil =>
    cases hrun
    exact h
  | cons l rest ih =>
    obtain ⟨w₁, hl, hrest⟩ := foldlM_cons_eq_ok hrun
    have hmore := fun l' hl' => hact l' (List.mem_cons_of_mem _ hl')
    by_cases htag : l.binding.tag = tag
    · rw [List.filter_cons_of_pos (by simpa using htag), List.foldl_cons]
      exact ih hmore (hact l List.mem_cons_self htag w w₁ shown h hl) hrest
    · rw [List.filter_cons_of_neg (by simpa using htag)]
      have hchanged := l.run_changedFor source d node ancestry w
      rw [hl] at hchanged
      exact ih hmore (h.of_changedFor hchanged (Ne.symm htag)) hrest

/-- A rule goes by turns: at every moment at most one of its visitors is called, and what that does to what the instance shows
is the turn of the moment; if none is called, the turn does nothing. -/
def RuleModule.Turns (m : RuleModule K Note) (tag : StateTag) (k : K) (source : Source)
    (turn : Carrier k × List Diagnostic → Moment → Carrier k × List Diagnostic) : Prop :=
  ∀ x : Moment, (m.visitors.filter (·.hears x.direction x.node x.ancestry) = [] ∧ ∀ shown, turn shown x = shown) ∨
    ∃ v, m.visitors.filter (·.hears x.direction x.node x.ancestry) = [v] ∧
      ∀ (b : Binding) (w w' : World K Note) shown, b.tag = tag → w.Shows tag k shown →
        (⟨b, v⟩ : Listener K Note).run source x.direction x.node x.ancestry w = .ok w' → w'.Shows tag k (turn shown x)

/-- Whatever else is called at a moment, an instance takes its turn. -/
theorem Moment.take_shows {source : Source} {turn : Carrier k × List Diagnostic → Moment → Carrier k × List Diagnostic}
    (hturns : m.Turns tag k source turn) {x : Moment} {b : Binding} (hb : b.tag = tag)
    {index : SelectorIndex (Listener K Note)}
    (hown : ∀ es, index.emissions x.direction x.node x.ancestry = .ok es →
      ((es.map (·.listener)).filter (·.binding.tag = tag)).Perm
        ((m.visitors.filter (·.hears x.direction x.node x.ancestry)).map (⟨b, ·⟩)))
    {state state' : World K Note × Nat} {shown : Carrier k × List Diagnostic} (h : state.1.Shows tag k shown)
    (htake : Moment.take index source state x = .ok state') : state'.1.Shows tag k (turn shown x) := by
  obtain ⟨es, w, hes, hrun, rfl⟩ := Moment.take_eq_ok_iff.1 htake
  have hperm := hown es hes
  have hrefreshed := h.refresh x.node x.ancestry
  rcases hturns x with ⟨hnone, hstays⟩ | ⟨v, hone, hv⟩
  · -- none of the listeners is one of the instance
    rw [hnone] at hperm
    have hnil := hperm.eq_nil
    have hothers : ∀ l ∈ es.map (·.listener), l.binding.tag ≠ tag := by
      simpa using List.filter_eq_nil_iff.1 hnil
    have hshows := Listener.runAll_shows (fun shown _ => shown) (fun l hl htag => absurd htag (hothers l hl)) hrefreshed hrun
    rw [hnil] at hshows
    rw [hstays]
    cases hempty : es.isEmpty with
    | true => exact h
    | false => exact hshows
  · rw [hone, List.map_singleton] at hperm
    have hsingle := List.perm_singleton.1 hperm
    have hact : ∀ l ∈ es.map (·.listener), l.binding.tag = tag → ∀ (w w' : World K Note) shown, w.Shows tag k shown →
        l.run source x.direction x.node x.ancestry w = .ok w' → w'.Shows tag k (turn shown x) := by
      intro l hl htag w w' shown
      have hmem : l ∈ (es.map (·.listener)).filter (·.binding.tag = tag) := List.mem_filter.2 ⟨hl, by simpa using htag⟩
      rw [hsingle, List.mem_singleton] at hmem
      subst hmem
      exact hv b w w' shown hb
    have hshows := Listener.runAll_shows (fun shown _ => turn shown x) hact hrefreshed hrun
    rw [hsingle] at hshows
    have hempty : es.isEmpty = false := by
      cases es with
      | nil => cases hsingle
      | cons => rfl
    rw [hempty]
    exact hshows

/-- At the end of a run an instance shows what its turns have made over the walk of the tree. -/
theorem Engine.run_shows (hcache : cache.Made) (hsetup : (Engine.setupWith cache r groups c).outcome = .ok e)
    (htag : tag ∈ e.tags) (hm : r.find? tag.rule = some m) (hplain : m.factory = none) {initial : Carrier k}
    (hinitial : m.initial = ⟨k, initial⟩) {source : Source}
    {turn : Carrier k × List Diagnostic → Moment → Carrier k × List Diagnostic} (hturns : m.Turns tag k source turn)
    {root : Tree} {report : Report K} (hrun : (e.run root source).outcome = .ok report) :
    report.state tag k = .ok ((root.moments []).foldl turn (initial, [])).1 ∧
      report.diagnostics.filter (·.tag = tag) = ((root.moments []).foldl turn (initial, [])).2 := by
  obtain ⟨hvalue, b, hb, hown⟩ := Engine.own_listeners hcache hsetup htag hm hplain
  rw [Engine.run_eq] at hrun
  cases hfold : (root.moments []).foldlM (Moment.take e.index source) ({ states := e.states }, 0) with
  | error halt =>
    rw [hfold] at hrun
    cases hrun
  | ok state =>
    rw [hfold] at hrun
    cases hrun
    have hstart : ({ states := e.states } : World K Note).Shows tag k (([] : List Moment).foldl turn (initial, [])) :=
      ⟨by rw [hvalue, hinitial]; rfl, rfl⟩
    have hend : state.1.Shows tag k (([] ++ root.moments []).foldl turn (initial, [])) := by
      refine foldlM_carries (fun past (state : World K Note × Nat) => state.1.Shows tag k (past.foldl turn (initial, [])))
        (fun past x state state' hstate htake => ?_) hstart hfold
      rw [List.foldl_concat]
      exact Moment.take_shows hturns hb (hown x.direction x.node x.ancestry) hstate htake
    exact ⟨hend.read, hend.reports⟩

end Engines

/-! ## Entering nodes -/

mutual

/-- The nodes are entered in document order. -/
theorem Tree.enters_moments (t : Tree) (ancestry : List Tree) :
    ((t.moments ancestry).filter (·.direction = .enter)).map (fun m => (m.node, m.ancestry)) = t.places ancestry := by
  cases t with
  | node label children => simp [Tree.moments, Tree.places, Tree.enters_momentsAll children]

theorem Tree.enters_momentsAll (ts : List Tree) (ancestry : List Tree) :
    ((Tree.momentsAll ancestry ts).filter (·.direction = .enter)).map (fun m => (m.node, m.ancestry)) =
      Tree.placesAll ancestry ts := by
  cases ts with
  | nil => rfl
  | cons t rest =>
    rw [Tree.momentsAll, Tree.placesAll, List.filter_append, List.map_append, t.enters_moments, Tree.enters_momentsAll rest]

end

/-- What changes only when nodes are entered comes about over the nodes in document order. -/
theorem Tree.foldl_enters {σ τ : Type} {turn : σ → Moment → σ} (view : σ → τ) (step : τ → Tree × List Tree → τ)
    (henter : ∀ state node ancestry, view (turn state ⟨.enter, node, ancestry⟩) = step (view state) (node, ancestry))
    (hleave : ∀ state node ancestry, view (turn state ⟨.leave, node, ancestry⟩) = view state) (t : Tree)
    (ancestry : List Tree) (state : σ) :
    view ((t.moments ancestry).foldl turn state) = (t.places ancestry).foldl step (view state) := by
  rw [← t.enters_moments]
  induction t.moments ancestry generalizing state with
  | nil => rfl
  | cons m rest ih =>
    obtain ⟨direction, node, above⟩ := m
    cases direction with
    | enter =>
      rw [List.foldl_cons, ih, henter]
      rfl
    | leave =>
      rw [List.foldl_cons, ih, hleave]
      rfl

end RuleWalk
