import RuleWalk.Rule.Bundle
import RuleWalk.Proofs.Instances
import RuleWalk.Proofs.Isolation

/-!
# Runs that get through

A run stops where a selector cannot be evaluated or a script fails. The kinds of the instances never change in a run. So if the
visitors of all rules have selectors that can be evaluated everywhere and scripts that do not fail for an instance of their
rule's kind, every run gets through. The bundled rules are of this sort.
-/

namespace RuleWalk

variable {K : Type} [Kinds K] {Note : Type}

/-! ## Kinds -/

/-- The kind of the value that an instance has. -/
def World.kind? (w : World K Note) (tag : StateTag) : Option K :=
  (w.states.find? tag).map (·.value.kind)

/-- Working out the marks changes no kind. -/
theorem World.kind?_refresh (w : World K Note) (node : Tree) (ancestry : List Tree) (tag : StateTag) :
    (w.refresh node ancestry).kind? tag = w.kind? tag := by
  rw [kind?, World.refresh, StateTable.find?_refresh, Option.map_map]
  rfl

/-- A write of the right kind is made. -/
theorem World.updated_of_kind? {w : World K Note} {tag : StateTag} {k : K} (h : w.kind? tag = some k)
    (f : Carrier k → Carrier k) (node : NodeId) (visit : Visit) :
    ∃ states, w.states.updated tag k f node visit = .ok states := by
  obtain ⟨state, hfind, hkind⟩ := Option.map_eq_some_iff.1 h
  subst hkind
  simp [StateTable.updated, hfind, RuleState.update?, StateValue.as?]

/-- A value can be read as what it is. -/
theorem World.read_of_kind? {w : World K Note} {tag : StateTag} {k : K} (h : w.kind? tag = some k) :
    ∃ value, w.states.read tag k = .ok value := by
  obtain ⟨state, hfind, hkind⟩ := Option.map_eq_some_iff.1 h
  subst hkind
  exact ⟨state.value.value, by simp [StateTable.read, StateTable.get, hfind, bind, Except.bind, StateValue.as?]⟩

/-- A write keeps the kinds, that of the value written included. -/
theorem World.kind?_updated {w : World K Note} {tag other : StateTag} {k : K} {f : Carrier k → Carrier k} {node : NodeId}
    {visit : Visit} {states : StateTable K} (h : w.states.updated tag k f node visit = .ok states) :
    ({ w with states := states } : World K Note).kind? other = w.kind? other := by
  obtain ⟨state, state', hfind, hup, hall⟩ := StateTable.find?_updated h
  rw [kind?, hall]
  split
  · rename_i heq
    subst heq
    obtain ⟨old, hold, rfl⟩ := Option.map_eq_some_iff.1 hup
    rw [kind?, hfind]
    unfold StateValue.as? at hold
    split at hold
    · rename_i hkind
      exact congrArg some hkind.symm
    · cases hold
  · rfl

/-- No script changes the kind of an instance. -/
theorem Script.kind?_run (b : Binding) (scene : Scene) (script : Script K Note) (w : World K Note) (tag : StateTag) :
    (Halt.last (script.run b scene w)).kind? tag = w.kind? tag := by
  induction script generalizing w with
  | done => rfl
  | fail e => rfl
  | read k next ih => exact ih _ w
  | update k f next ih =>
    rw [run_update]
    cases hup : w.states.updated b.tag k f scene.node.id scene.visit with
    | ok states => exact (ih (.ok ()) { w with states := states }).trans (World.kind?_updated hup)
    | error e => exact ih (.error (.state e)) w
  | request rule k next ih => exact ih _ w
  | report severity node message next ih => exact ih _
  | note n next ih => exact ih _

/-- Running a visitor changes no kind, whether it gets through or not. -/
theorem Listener.kind?_run (l : Listener K Note) (source : Source) (d : Direction) (node : Tree) (ancestry : List Tree)
    (w : World K Note) (tag : StateTag) : (Halt.last (l.run source d node ancestry w)).kind? tag = w.kind? tag :=
  Script.kind?_run l.binding (l.binding.scene source d node ancestry) _ w tag

/-! ## Rules that do not fail -/

/-- A rule whose visitors can be called at every node and get through for every instance of the rule's kind. -/
structure RuleModule.Sure (m : RuleModule K Note) : Prop where
  plain : m.factory = none
  decided : ∀ v ∈ m.visitors, ∀ p, Pattern.parse v.selector = .ok p → ∀ node ancestry, p.Decided node ancestry
  runs : ∀ v ∈ m.visitors, ∀ (b : Binding) (scene : Scene) (w : World K Note), w.kind? b.tag = some m.initial.kind →
    ∃ w', (v.script scene).run b scene w = .ok w'

/-- A single write of the right kind gets through. -/
theorem Script.run_write {b : Binding} {scene : Scene} {w : World K Note} {k : K} (h : w.kind? b.tag = some k)
    (f : Carrier k → Carrier k) : ∃ w', (Script.update k f .finish).run b scene w = .ok w' := by
  obtain ⟨states, hup⟩ := World.updated_of_kind? h f scene.node.id scene.visit
  exact ⟨{ w with states := states }, by rw [run_update, hup]; rfl⟩

namespace MeasureCount

theorem parse_measure : Pattern.parse "Measure" = .ok (.ofSelector "Measure" .enter (.type "Measure")) := by
  cbv

theorem sure_rule : (rule : RuleModule (BundledKind K) Note).Sure := by
  refine ⟨rfl, fun v hv p hp node ancestry => ?_, fun v hv b scene w hkind => ?_⟩
  · obtain rfl := List.mem_singleton.1 hv
    cases parse_measure.symm.trans hp
    exact ⟨_, rfl⟩
  · obtain rfl := List.mem_singleton.1 hv
    exact Script.run_write hkind next

end MeasureCount

namespace LineNaming

theorem parse_block : Pattern.parse "LineNaming" = .ok (.ofSelector "LineNaming" .enter (.type "LineNaming")) := by
  cbv

theorem parse_name : Pattern.parse "LineNaming > MeasureLineName" = .ok (.ofSelector "LineNaming > MeasureLineName" .enter
    (.complex (.type "LineNaming") .child (.type "MeasureLineName"))) := by
  cbv

theorem parse_exit : Pattern.parse "LineNaming:exit" = .ok (.ofSelector "LineNaming:exit" .leave (.type "LineNaming")) := by
  cbv

/-- Recording a name gets through where the instance holds a line naming. -/
theorem run_recordName {b : Binding} {scene : Scene} {w : World (BundledKind K) Note} (h : w.kind? b.tag = some .lineNaming) :
    ∃ w', (recordName scene).run b scene w = .ok w' := by
  unfold recordName
  split
  · exact ⟨_, rfl⟩
  · obtain ⟨state, hread⟩ := World.read_of_kind? h
    rw [Script.run, hread]
    dsimp only [EngineError.liftState]
    split
    · exact ⟨_, rfl⟩
    · exact Script.run_write h _

theorem sure_rule : (rule : RuleModule (BundledKind K) Note).Sure := by
  refine ⟨rfl, fun v hv p hp node ancestry => ?_, fun v hv b scene w hkind => ?_⟩
  · simp only [rule, List.mem_cons, List.not_mem_nil, or_false] at hv
    rcases hv with rfl | rfl | rfl
    · cases parse_block.symm.trans hp
      exact ⟨_, rfl⟩
    · cases parse_name.symm.trans hp
      cases hname : Text.sameName "MeasureLineName" node.name <;> cases ancestry <;>
        simp [Pattern.Decided, Pattern.ofSelector, Selector.matchesAt, hname]
    · cases parse_exit.symm.trans hp
      exact ⟨_, rfl⟩
  · simp only [rule, List.mem_cons, List.not_mem_nil, or_false] at hv
    rcases hv with rfl | rfl | rfl
    · exact Script.run_write hkind _
    · exact run_recordName hkind
    · exact Script.run_write hkind enumerate

end LineNaming

/-- Every rule of the bundle gets through at any node. -/
theorem Registry.sure_standard {rule : String} {m : RuleModule (BundledKind K) Note}
    (h : Registry.standard.find? rule = some m) : m.Sure := by
  obtain ⟨b, hb, rfl⟩ := Option.map_eq_some_iff.1 h
  have hmem := List.mem_of_find?_eq_some hb
  change b ∈ [⟨MeasureCount.ruleId, MeasureCount.rule, [], false⟩, ⟨LineNaming.ruleId, LineNaming.rule, [], false⟩] at hmem
  simp only [List.mem_cons, List.not_mem_nil, or_false] at hmem
  rcases hmem with rfl | rfl
  · exact MeasureCount.sure_rule
  · exact LineNaming.sure_rule

/-! ## Getting through -/

/-- A fold gets through if every step does and keeps what the steps need. -/
theorem foldlM_succeeds {α σ ε : Type} {step : σ → α → Except ε σ} (keeps : σ → Prop) {l : List α}
    (hstep : ∀ x ∈ l, ∀ s, keeps s → ∃ t, step s x = .ok t ∧ keeps t) {s : σ} (hs : keeps s) :
    ∃ t, l.foldlM step s = .ok t ∧ keeps t := by
  induction l generalizing s with
  | nil => exact ⟨s, rfl, hs⟩
  | cons x rest ih =>
    obtain ⟨t, hx, ht⟩ := hstep x List.mem_cons_self s hs
    obtain ⟨u, hrest, hu⟩ := ih (fun y hy => hstep y (List.mem_cons_of_mem _ hy)) ht
    exact ⟨u, by rw [foldlM_cons_of_ok rest hx, hrest], hu⟩

section Engines

variable {r : Registry K Note} {groups : List Group} {c : Config} {cache : PatternCache} {e : Engine K Note}

/-- The instances have the kinds of their rules. -/
def Engine.Typed (r : Registry K Note) (e : Engine K Note) (w : World K Note) : Prop :=
  ∀ tag ∈ e.tags, ∃ m, r.find? tag.rule = some m ∧ w.kind? tag = some m.initial.kind

/-- A run starts with instances of the kinds that their rules declare. -/
theorem Engine.typed_start (h : (Engine.setupWith cache r groups c).outcome = .ok e) :
    e.Typed r { states := e.states } := by
  obtain ⟨order, a, registered, index, cache', -, ha, -, -, rfl⟩ := Engine.setupWith_eq_ok_iff.1 h
  intro tag htag
  obtain ⟨b, hb, rfl⟩ := List.mem_map.1 htag
  obtain ⟨bound, hbound, rfl⟩ := List.mem_map.1 hb
  refine ⟨bound.module, (Assembly.ofGroups_declared ha bound hbound).module, ?_⟩
  rw [World.kind?, (Assembly.ofGroups_exact ha).find?_tag hbound]
  rfl

variable (hsure : ∀ tag ∈ e.tags, ∀ m, r.find? tag.rule = some m → m.Sure)

include hsure in
/-- The emissions of every visit can be worked out, and the visitors are those of the rules. -/
theorem Engine.emissions_of_sure (hcache : cache.Made) (h : (Engine.setupWith cache r groups c).outcome = .ok e)
    (d : Direction) (node : Tree) (ancestry : List Tree) : ∃ es, e.index.emissions d node ancestry = .ok es ∧
      ∀ l ∈ es.map (·.listener), l.binding.tag ∈ e.tags ∧
        ∃ m, r.find? l.binding.tag.rule = some m ∧ l.visitor ∈ m.visitors := by
  obtain ⟨order, a, registered, index, cache', -, ha, hv, hbuild, rfl⟩ := Engine.setupWith_eq_ok_iff.1 h
  obtain ⟨patterns, hbuilt⟩ := SelectorIndex.built_of_build hcache.sound hbuild
  have hregistered : ∀ reg ∈ registered, reg.selector = reg.listener.visitor.selector ∧
      reg.listener.binding.tag ∈ (a.bound.map (·.binding)).map (·.tag) ∧
      ∃ m, r.find? reg.listener.binding.tag.rule = some m ∧ reg.listener.visitor ∈ m.visitors := by
    intro reg hreg
    rw [(Assembly.visitors_eq (Assembly.ofGroups_declared ha) hv).2.2] at hreg
    obtain ⟨b, hb, hreg⟩ := List.mem_flatMap.1 hreg
    obtain ⟨bound, hbound, rfl⟩ := List.mem_map.1 hb
    have hmodule := (Assembly.ofGroups_declared ha bound hbound).module
    have htag := List.mem_map_of_mem (f := Binding.tag) hb
    obtain ⟨v, hv, rfl⟩ := List.mem_map.1 hreg
    rw [Registry.buildFor, hmodule] at hv
    dsimp only at hv
    rw [RuleModule.build, (hsure _ htag _ hmodule).plain] at hv
    exact ⟨rfl, htag, bound.module, hmodule, hv⟩
  have hdecided : ∀ p ∈ patterns, p.on d → p.concerns node → p.Decided node ancestry := by
    intro p hp _ _
    obtain ⟨reg, hreg, hparse⟩ := hbuilt.registered_of_mem hp
    obtain ⟨hselector, htag, m, hm, hvisitor⟩ := hregistered reg hreg
    exact (hsure _ htag m hm).decided _ hvisitor p (hselector ▸ hparse) node ancestry
  obtain ⟨hits, hhits, hscan⟩ := hbuilt.emissions hdecided
  refine ⟨_, hhits, fun l hl => ?_⟩
  obtain ⟨x, hx, rfl⟩ := List.mem_map.1 hl
  obtain ⟨hit, hhit, rfl⟩ := List.mem_map.1 hx
  have hmem := (List.mem_filter.1 (hscan.perm.mem_iff.1 hhit)).1
  exact (hregistered hit.1 (List.fst_mem_of_mem_zipIdx hmem)).2

include hsure in
/-- A visitor of one of the rules gets through, and the kinds stay. -/
theorem Engine.Typed.run_listener {w : World K Note} (hw : e.Typed r w) {l : Listener K Note} (htag : l.binding.tag ∈ e.tags)
    {m : RuleModule K Note} (hm : r.find? l.binding.tag.rule = some m) (hvisitor : l.visitor ∈ m.visitors) (source : Source)
    (d : Direction) (node : Tree) (ancestry : List Tree) :
    ∃ w', l.run source d node ancestry w = .ok w' ∧ e.Typed r w' := by
  obtain ⟨m', hm', hkind⟩ := hw _ htag
  cases hm.symm.trans hm'
  obtain ⟨w', hrun⟩ : ∃ w', l.run source d node ancestry w = .ok w' := (hsure _ htag m hm).runs _ hvisitor l.binding _ w hkind
  refine ⟨w', hrun, fun tag htag => ?_⟩
  have hkinds := l.kind?_run source d node ancestry w tag
  rw [hrun] at hkinds
  exact hkinds ▸ hw tag htag

include hsure in
/-- A moment gets through, and the kinds stay. -/
theorem Engine.Typed.take (hcache : cache.Made) (h : (Engine.setupWith cache r groups c).outcome = .ok e)
    {state : World K Note × Nat} (hstate : e.Typed r state.1) (source : Source) (x : Moment) :
    ∃ state', Moment.take e.index source state x = .ok state' ∧ e.Typed r state'.1 := by
  obtain ⟨es, hes, hall⟩ := Engine.emissions_of_sure hsure hcache h x.direction x.node x.ancestry
  have hrefreshed : e.Typed r (state.1.refresh x.node x.ancestry) := by
    intro tag htag
    rw [World.kind?_refresh]
    exact hstate tag htag
  have hlistener : ∀ l ∈ es.map (·.listener), ∀ w, e.Typed r w →
      ∃ w', l.run source x.direction x.node x.ancestry w = .ok w' ∧ e.Typed r w' := by
    intro l hl w hw
    obtain ⟨htag, m, hm, hvisitor⟩ := hall l hl
    exact hw.run_listener hsure htag hm hvisitor source x.direction x.node x.ancestry
  obtain ⟨w, hrun, hw⟩ := foldlM_succeeds (e.Typed r) hlistener hrefreshed
  refine ⟨_, Moment.take_eq_ok_iff.2 ⟨es, w, hes, hrun, rfl⟩, ?_⟩
  dsimp only
  split
  · exact hstate
  · exact hw

include hsure in
/-- Every run of an engine gets through if its rules do not fail. -/
theorem Engine.run_completes (hcache : cache.Made) (h : (Engine.setupWith cache r groups c).outcome = .ok e) (root : Tree)
    (source : Source) : ∃ report, (e.run root source).outcome = .ok report := by
  have hstart : e.Typed r ({ states := e.states }, 0).1 := Engine.typed_start h
  obtain ⟨state, hfold, -⟩ := foldlM_succeeds (fun state : World K Note × Nat => e.Typed r state.1)
    (fun x _ state hstate => hstate.take hsure hcache h source x) hstart
  exact ⟨_, by rw [Engine.run_eq, hfold]⟩

end Engines

end RuleWalk
