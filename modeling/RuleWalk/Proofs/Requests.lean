import RuleWalk.Proofs.Freshness
import RuleWalk.Proofs.Instances

/-!
# Requests for the state of other rules

A visitor may read another rule that a group of its instance lists. A binding has one group for each id, the first that came
up, so an entry that repeats an id does not count, whatever it lists. Apart from such entries, whether a request is refused
depends on which groups run the instance and not on their order. No run adds an instance to the table or takes one away, so a
request that is not refused finds the instance it is for at any time.
-/

namespace RuleWalk

variable {K : Type} [Kinds K] {Note : Type} {r : Registry K Note} {groups : List Group} {c : Config}

/-! ## The tags of a run -/

/-- Two tables have instances of the same tags. -/
def StateTable.SameTags (t t' : StateTable K) : Prop :=
  ∀ tag, t'.contains tag = t.contains tag

namespace StateTable.SameTags

theorem trans {t t' t'' : StateTable K} (h : t.SameTags t') (h' : t'.SameTags t'') : t.SameTags t'' :=
  fun tag => (h' tag).trans (h tag)

theorem refresh (t : StateTable K) (node : NodeId) (ancestors : List NodeId) : t.SameTags (t.refresh node ancestors) := by
  intro tag
  rw [contains, contains, find?_refresh, Option.isSome_map]

theorem of_updated {t t' : StateTable K} {tag : StateTag} {k : K} {f : Carrier k → Carrier k} {node : NodeId} {visit : Visit}
    (h : t.updated tag k f node visit = .ok t') : t.SameTags t' := by
  obtain ⟨state, state', hfind, -, hall⟩ := find?_updated h
  intro other
  rw [contains, contains, hall]
  by_cases hother : other = tag
  · rw [if_pos hother, hother, hfind]
    rfl
  · rw [if_neg hother]

end StateTable.SameTags

/-- A script has instances of the same tags at all its points. -/
theorem Script.points_sameTags {b : Binding} {scene : Scene} {x : Write} {t : StateTable K} {script : Script K Note}
    {earlier : List Write} {w : World K Note} (h : t.SameTags w.states) {point : List Write × World K Note}
    (hpoint : point ∈ script.points b scene x earlier w) : t.SameTags point.2.states :=
  points_keep (P := fun _ t' => t.SameTags t') (fun _ _ _ _ _ hsame hup => hsame.trans (.of_updated hup)) h hpoint

theorem Listener.run_sameTags {t : StateTable K} {w : World K Note} (h : t.SameTags w.states) (l : Listener K Note)
    (source : Source) (m : Moment) :
    t.SameTags (Halt.last (l.run source m.direction m.node m.ancestry w)).states :=
  Script.points_sameTags h (Script.end_mem_points _ _ ⟨l.binding.tag, m⟩ _ [] w)

/-- A world and a log in which all tables have instances of the same tags. -/
structure SteadyTags (t : StateTable K) (state : World K Note × List (Call K Note)) : Prop where
  world : t.SameTags state.1.states
  calls : ∀ call ∈ state.2, t.SameTags call.world.states

namespace SteadyTags

variable {t : StateTable K} (source : Source) (m : Moment)

/-- The world of a session and its log. -/
def view (logged : Session K Note × List (Call K Note)) : World K Note × List (Call K Note) :=
  (logged.1.world, logged.2)

theorem deliver {logged : Session K Note × List (Call K Note)} (h : SteadyTags t (view logged))
    (x : Emission (Listener K Note)) :
    SteadyTags t (view (Halt.last (Engine.deliverLogged source m.direction m.node m.ancestry logged x))) := by
  have hcurrent : t.SameTags (logged.1.current m.node m.ancestry).states := by
    unfold Session.current
    split
    · exact h.world
    · exact h.world.trans (StateTable.SameTags.refresh _ _ _)
  have heq : Halt.last (Engine.deliverLogged source m.direction m.node m.ancestry logged x) =
      (⟨Halt.last (x.listener.run source m.direction m.node m.ancestry (logged.1.current m.node m.ancestry)), true⟩,
        logged.2 ++ [⟨m, x, logged.1.current m.node m.ancestry⟩]) := by
    unfold Engine.deliverLogged Engine.deliver
    dsimp only
    rw [← Session.current]
    cases x.listener.run source m.direction m.node m.ancestry (logged.1.current m.node m.ancestry) <;> rfl
  rw [heq]
  refine ⟨Listener.run_sameTags hcurrent x.listener source m, fun call hcall => ?_⟩
  rcases List.mem_append.1 hcall with hcall | hcall
  · exact h.calls call hcall
  · rw [List.mem_singleton.1 hcall]
    exact hcurrent

theorem attend (index : SelectorIndex (Listener K Note)) {state : World K Note × List (Call K Note)} (h : SteadyTags t state) :
    SteadyTags t (Halt.last (m.attend index source state)) := by
  unfold Moment.attend Moment.deliverAll
  cases index.emissions m.direction m.node m.ancestry with
  | error e => exact h
  | ok es =>
    have hstart : SteadyTags t (view (⟨state.1, false⟩, state.2)) := h
    have hlast := Halt.last_foldlM (P := fun logged => SteadyTags t (view logged))
      (fun _ x h => deliver source m h x) es hstart
    dsimp only
    cases hfold : es.foldlM (Engine.deliverLogged source m.direction m.node m.ancestry) (⟨state.1, false⟩, state.2) <;>
      rw [hfold] at hlast <;> exact hlast

end SteadyTags

/-- All points of a run have instances of the tags that the engine was set up with. -/
theorem Engine.points_sameTags {e : Engine K Note} {root : Tree} {source : Source} {call : Call K Note}
    (hcall : call ∈ (e.record root source).calls) {earlier : List Write} {point : List Write × World K Note}
    (hpoint : point ∈ call.points source earlier) : e.states.SameTags point.2.states := by
  have hsteady : SteadyTags e.states (Halt.last (e.walk root source)) := by
    rw [e.walk_eq]
    exact Halt.last_foldlM (fun _ m h => h.attend source m e.index) _ ⟨fun _ => rfl, nofun⟩
  have hcalls : (e.record root source).calls = (Halt.last (e.walk root source)).2 := by
    rw [e.record_eq]
    cases e.walk root source <;> rfl
  rw [hcalls] at hcall
  exact Script.points_sameTags (hsteady.calls call hcall) hpoint

/-! ## Requests of a binding -/

/-- What an instance answers to one who asks for a kind. -/
def RuleState.answer (state : RuleState K) (tag : StateTag) (k : K) : Except EngineError (External k) :=
  match state.value.as? k with
  | none => .error (.state (.otherKind tag (Kinds.typeName k)))
  | some value => .ok ⟨value, tag.isShared, state.current, state.ancestor⟩

namespace Binding

/-- A request for a rule is refused since no recorded group lists the rule. -/
def Refuses (b : Binding) (states : StateTable K) (rule : String) (k : K) : Prop :=
  b.request states rule k = .error (.config (.notInGroup rule b.group))

variable {b : Binding} {entries : List Group} {rule : String}

theorem find?_groups (hgroups : b.groups = entries.map Group.membership) (rule : String) :
    b.groups.find? (·.members.contains rule) = (entries.find? (·.lists rule)).map Group.membership := by
  rw [hgroups, List.find?_map]
  rfl

/-- A request is made for the first recorded group that lists the rule. -/
theorem external_eq (hgroups : b.groups = entries.map Group.membership) (hrule : rule ∈ b.dependencies)
    (states : StateTable K) : b.external states rule =
      match entries.find? (·.lists rule) with
      | none => .error (.config (.notInGroup rule b.group))
      | some g =>
        match states.tagFor? rule g.id with
        | some tag => .ok tag
        | none => .error (.config (.missingDependencyState rule g.id)) := by
  unfold external
  rw [find?_groups hgroups]
  cases entries.find? (·.lists rule) with
  | none => rfl
  | some g => exact if_pos (by simpa using hrule)

/-- A request for a dependency is refused just if none of the recorded groups lists it. -/
theorem refuses_iff (hgroups : b.groups = entries.map Group.membership) (hrule : rule ∈ b.dependencies)
    (states : StateTable K) (k : K) : b.Refuses states rule k ↔ ∀ g ∈ entries, rule ∉ g.rules := by
  have hnone : entries.find? (·.lists rule) = none ↔ ∀ g ∈ entries, rule ∉ g.rules := by
    simp [Group.lists]
  rw [← hnone, Refuses, request, external_eq hgroups hrule]
  cases entries.find? (·.lists rule) with
  | none => exact iff_of_true rfl rfl
  | some g =>
    refine iff_of_false (fun hrefused => ?_) (by simp)
    dsimp only at hrefused
    cases htag : states.tagFor? rule g.id with
    | none =>
      rw [htag] at hrefused
      cases hrefused
    | some tag =>
      rw [htag] at hrefused
      dsimp only at hrefused
      split at hrefused
      · cases hrefused
      · split at hrefused <;> cases hrefused

/-- A request that is not refused is answered by the instance that the group finds. -/
theorem request_eq_answer (hgroups : b.groups = entries.map Group.membership) (hrule : rule ∈ b.dependencies) {g : Group}
    (hentry : entries.find? (·.lists rule) = some g) {states : StateTable K} {tag : StateTag}
    (htag : states.tagFor? rule g.id = some tag) {state : RuleState K} (hstate : states.find? tag = some state) (k : K) :
    b.request states rule k = state.answer tag k := by
  rw [request, external_eq hgroups hrule, hentry]
  dsimp only
  rw [htag]
  dsimp only
  rw [StateTable.get, hstate]
  rfl

end Binding

/-! ## Requests of an engine -/

/-- At all points of all runs, a request for a rule is answered by the instance of a tag. -/
def Engine.Answers (e : Engine K Note) (b : Binding) (rule : String) (tag : StateTag) : Prop :=
  ∀ root source, ∀ call ∈ (e.record root source).calls, ∀ earlier, ∀ point ∈ call.points source earlier, ∀ k,
    ∃ state, point.2.states.find? tag = some state ∧ b.request point.2.states rule k = state.answer tag k

/-- Entries of one id that run an instance list a rule all or none. -/
def Config.Agree (c : Config) (groups : List Group) (tag : StateTag) (rule : String) : Prop :=
  ∀ g ∈ groups, ∀ g' ∈ groups, c.runs tag g → c.runs tag g' → g.id = g'.id → rule ∈ g.rules → rule ∈ g'.rules

theorem Config.Agree.find?_firsts {tag : StateTag} {rule : String} (h : c.Agree groups tag rule) :
    (firsts Group.id (groups.filter (c.runs tag))).find? (·.lists rule) =
      groups.find? fun g => c.runs tag g && g.lists rule := by
  rw [RuleWalk.find?_firsts, List.find?_filter]
  · simp only [Bool.decide_and, Bool.decide_eq_true]
  · intro g hg g' hg' hid hlists
    obtain ⟨hg, hruns⟩ := List.mem_filter.1 hg
    obtain ⟨hg', hruns'⟩ := List.mem_filter.1 hg'
    have hrule := h g hg g' hg' hruns hruns' hid (by simpa [Group.lists] using hlists)
    simpa [Group.lists] using hrule

theorem Config.Agree.forall_firsts_iff {tag : StateTag} {rule : String} (h : c.Agree groups tag rule) :
    (∀ g ∈ firsts Group.id (groups.filter (c.runs tag)), rule ∉ g.rules) ↔ ∀ g ∈ groups, c.runs tag g → rule ∉ g.rules := by
  have hleft : (firsts Group.id (groups.filter (c.runs tag))).find? (·.lists rule) = none ↔
      ∀ g ∈ firsts Group.id (groups.filter (c.runs tag)), rule ∉ g.rules := by
    simp [Group.lists]
  have hright : (groups.find? fun g => c.runs tag g && g.lists rule) = none ↔
      ∀ g ∈ groups, c.runs tag g → rule ∉ g.rules := by
    simp [Group.lists]
  rw [← hleft, h.find?_firsts, hright]

/-- At any point of a run, the instance of a rule that a group lists is there for the group to find. -/
theorem Engine.tagFor?_of_sameTags {cache : PatternCache} {e : Engine K Note}
    (h : (setupWith cache r groups c).outcome = .ok e) {states : StateTable K} (hstates : e.states.SameTags states) {g : Group}
    (hg : g ∈ groups) {rule : String} (hrule : rule ∈ g.rules) :
    states.tagFor? rule g.id = some (c.tag g.id rule) ∧ ∃ state, states.find? (c.tag g.id rule) = some state := by
  have hcontains : ∀ tag, states.contains tag ↔ tag ∈ c.tags (Group.pairs groups) := by
    intro tag
    rw [hstates tag, contains_iff h]
  refine ⟨StateTable.tagFor?_of_contains hcontains hg hrule, Option.isSome_iff_exists.1 ?_⟩
  exact (hcontains _).2 (Config.mem_tags_iff.2 ⟨g, hg, rule, hrule, rfl⟩)

theorem Engine.answers_of_listed {cache : PatternCache} {e : Engine K Note}
    (h : (setupWith cache r groups c).outcome = .ok e) {b : Binding} (hb : b ∈ e.bindings) {rule : String}
    (hrule : rule ∈ b.dependencies) {g : Group}
    (hg : (firsts Group.id (groups.filter (c.runs b.tag))).find? (·.lists rule) = some g) :
    e.Answers b rule (c.tag g.id rule) := by
  intro root source call hcall earlier point hpoint k
  have hlisted : rule ∈ g.rules := by simpa [Group.lists] using List.find?_some hg
  have hentry := List.mem_filter.1 (mem_of_mem_firsts Group.id (List.mem_of_find?_eq_some hg))
  obtain ⟨htag, state, hstate⟩ := tagFor?_of_sameTags h (points_sameTags hcall hpoint) hentry.1 hlisted
  exact ⟨state, hstate, Binding.request_eq_answer (binding_spec h hb).2.2 hrule hg htag hstate k⟩

/-- Access to other rules follows the recorded groups. Of the entries of the group list that run an instance, the first of
each id count. A request for a dependency is refused just if none of these lists it, whatever has happened in the run; else
the first of them that lists it decides which instance answers. Where entries of one id list the rule all or none, this is so
for all entries that run the instance, and whether a request is refused does not depend on the order of the groups. -/
theorem Engine.requests_by_groups {cache : PatternCache} {e : Engine K Note}
    (h : (setupWith cache r groups c).outcome = .ok e) {b : Binding} (hb : b ∈ e.bindings) {m : RuleModule K Note}
    (hm : r.find? b.tag.rule = some m) {rule : String} (hrule : rule ∈ m.dependencies) :
    (∀ (states : StateTable K) k, b.Refuses states rule k ↔
      ∀ g ∈ firsts Group.id (groups.filter (c.runs b.tag)), rule ∉ g.rules) ∧
    (∀ g, (firsts Group.id (groups.filter (c.runs b.tag))).find? (·.lists rule) = some g →
      e.Answers b rule (c.tag g.id rule)) ∧
    (c.Agree groups b.tag rule →
      (∀ (states : StateTable K) k, b.Refuses states rule k ↔ ∀ g ∈ groups, c.runs b.tag g → rule ∉ g.rules) ∧
      (∀ g, (groups.find? fun g => c.runs b.tag g && g.lists rule) = some g → e.Answers b rule (c.tag g.id rule)) ∧
      ∀ groups' cache' e' b', groups.Perm groups' → (setupWith cache' r groups' c).outcome = .ok e' → b' ∈ e'.bindings →
        b'.tag = b.tag → ∀ (states : StateTable K) k (states' : StateTable K) k',
          b.Refuses states rule k ↔ b'.Refuses states' rule k') := by
  have hdependency : ∀ {groups : List Group} {cache : PatternCache} {e : Engine K Note} {b : Binding},
      (setupWith cache r groups c).outcome = .ok e → b ∈ e.bindings → r.find? b.tag.rule = some m →
        rule ∈ b.dependencies := by
    intro groups cache e b h hb hm
    obtain ⟨-, ⟨m', hm', hdependencies⟩, -⟩ := binding_spec h hb
    cases hm.symm.trans hm'
    rwa [hdependencies]
  have hdep := hdependency h hb hm
  have hrefuses : ∀ (states : StateTable K) k, b.Refuses states rule k ↔
      ∀ g ∈ firsts Group.id (groups.filter (c.runs b.tag)), rule ∉ g.rules :=
    Binding.refuses_iff (binding_spec h hb).2.2 hdep
  refine ⟨hrefuses, fun g hg => answers_of_listed h hb hdep hg, fun hagree => ⟨fun states k => ?_, fun g hg => ?_, ?_⟩⟩
  · rw [hrefuses, hagree.forall_firsts_iff]
  · rw [← hagree.find?_firsts] at hg
    exact answers_of_listed h hb hdep hg
  · intro groups' cache' e' b' hperm h' hb' htag states k states' k'
    have hagree' : c.Agree groups' b'.tag rule := by
      intro g hg g' hg'
      rw [htag]
      exact hagree g (hperm.mem_iff.2 hg) g' (hperm.mem_iff.2 hg')
    rw [hrefuses, hagree.forall_firsts_iff, Binding.refuses_iff (binding_spec h' hb').2.2 (hdependency h' hb' (htag ▸ hm)),
      hagree'.forall_firsts_iff, htag]
    exact forall_congr' fun g => imp_congr_left hperm.mem_iff

/-- An entry that repeats an id runs an instance and lists what the instance asks for, but the first entry of the id counts:
in one order of the two entries the request is refused, and in the other it is answered. -/
theorem Engine.requests_by_groups_repeated : ∃ (e e' : Engine PlainKind Unit) (b b' : Binding),
    (setupWith .empty Registry.counting [⟨"g", ["asking"]⟩, ⟨"g", ["asking", "count"]⟩] {}).outcome = .ok e ∧
    (setupWith .empty Registry.counting [⟨"g", ["asking", "count"]⟩, ⟨"g", ["asking"]⟩] {}).outcome = .ok e' ∧
    b ∈ e.bindings ∧ b' ∈ e'.bindings ∧ b.tag = .shared "asking" ∧ b'.tag = .shared "asking" ∧
    Config.runs {} (.shared "asking") ⟨"g", ["asking", "count"]⟩ ∧
    (∀ (states : StateTable PlainKind) k, b.Refuses states "count" k) ∧
    (∀ (states : StateTable PlainKind) k, ¬b'.Refuses states "count" k) ∧
    e'.Answers b' "count" (.shared "count") := by
  have hset : ((setupWith .empty Registry.counting [⟨"g", ["asking"]⟩, ⟨"g", ["asking", "count"]⟩] {}).outcome.toOption.map
      (·.tags)) = some [.shared "asking", .shared "count"] := by
    cbv
  have hset' : ((setupWith .empty Registry.counting [⟨"g", ["asking", "count"]⟩, ⟨"g", ["asking"]⟩] {}).outcome.toOption.map
      (·.tags)) = some [.shared "asking", .shared "count"] := by
    cbv
  obtain ⟨e, he, htags⟩ := Option.map_eq_some_iff.1 hset
  obtain ⟨e', he', htags'⟩ := Option.map_eq_some_iff.1 hset'
  obtain ⟨b, hb, htag⟩ : ∃ b ∈ e.bindings, b.tag = .shared "asking" :=
    List.mem_map.1 (htags ▸ List.mem_cons_self : StateTag.shared "asking" ∈ e.tags)
  obtain ⟨b', hb', htag'⟩ : ∃ b ∈ e'.bindings, b.tag = .shared "asking" :=
    List.mem_map.1 (htags' ▸ List.mem_cons_self : StateTag.shared "asking" ∈ e'.tags)
  have hfind : ∀ b : Binding, b.tag = .shared "asking" → ∃ m, Registry.counting.find? b.tag.rule = some m ∧
      "count" ∈ m.dependencies := by
    intro b htag
    rw [htag]
    exact ⟨_, rfl, List.mem_singleton.2 rfl⟩
  obtain ⟨m, hm, hcount⟩ := hfind b htag
  obtain ⟨m', hm', hcount'⟩ := hfind b' htag'
  obtain ⟨hrefuses, -, -⟩ := requests_by_groups (eq_ok_of_toOption he) hb hm hcount
  obtain ⟨hrefuses', hanswers, -⟩ := requests_by_groups (eq_ok_of_toOption he') hb' hm' hcount'
  rw [htag] at hrefuses
  rw [htag'] at hrefuses' hanswers
  refine ⟨e, e', b, b', eq_ok_of_toOption he, eq_ok_of_toOption he', hb, hb', htag, htag', by cbv, ?_, ?_, ?_⟩
  · intro states k
    exact (hrefuses states k).2 (by decide)
  · intro states k hrefused
    exact absurd ((hrefuses' states k).1 hrefused) (by decide)
  · exact hanswers ⟨"g", ["asking", "count"]⟩ (by decide)

end RuleWalk
