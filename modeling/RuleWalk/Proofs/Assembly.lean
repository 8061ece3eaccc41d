import RuleWalk.Engine.Setup
import RuleWalk.Proofs.Index
import RuleWalk.Proofs.Closure
import RuleWalk.Proofs.Lookups

/-!
# What setup puts together

An engine that is set up has a delivery order, the instances bound for its groups, the registrations of their visitors and
an index of those. Binding a rule that is known never fails, so an assembly is a plain fold over the rules of the groups.
-/

namespace RuleWalk

variable {K : Type} [Kinds K] {Note : Type} {r : Registry K Note} {groups : List Group} {c : Config}

theorem Config.tag_rule (c : Config) (group rule : String) : (c.tag group rule).rule = rule := by
  unfold Config.tag
  split <;> rfl

/-! ## Binding -/

/-- A bound instance that a group joins if it is the one of a tag. -/
def Bound.joined (tag : StateTag) (m : Membership) (b : Bound K Note) : Bound K Note :=
  if b.binding.tag = tag then { b with binding := b.binding.join m } else b

@[simp] theorem Binding.tag_join (b : Binding) (m : Membership) : (b.join m).tag = b.tag := by
  unfold join
  split <;> rfl

@[simp] theorem Binding.dependencies_join (b : Binding) (m : Membership) : (b.join m).dependencies = b.dependencies := by
  unfold join
  split <;> rfl

@[simp] theorem Bound.tag_joined (tag : StateTag) (m : Membership) (b : Bound K Note) :
    (b.joined tag m).binding.tag = b.binding.tag := by
  unfold joined
  split <;> simp

namespace Assembly

/-- The instances after binding a rule of a group to its module. -/
def withRule (c : Config) (a : Assembly K Note) (g : Group) (rule : String) (m : RuleModule K Note) : Assembly K Note where
  states :=
    if a.states.contains (c.tag g.id rule) then a.states
    else a.states.withNew (c.tag g.id rule) (.fresh m.initial (c.resolve g.id rule m.config))
  bound :=
    if a.bound.any (·.binding.tag = c.tag g.id rule) then a.bound.map (Bound.joined (c.tag g.id rule) ⟨g.id, g.rules⟩)
    else a.bound ++ [⟨⟨c.tag g.id rule, [⟨g.id, g.rules⟩], m.dependencies, c.resolve g.id rule m.config⟩, m⟩]

theorem bind_of_found {rule : String} {m : RuleModule K Note} (h : r.find? rule = some m) (a : Assembly K Note) (g : Group) :
    bind r c a (g, rule) = .ok (a.withRule c g rule m) := by
  -- a second initialisation is no fault here, so the answer is the tag in any case
  have hinit : ∀ tag config, a.states.init tag config m.initial true =
      (.ok tag, if a.states.contains tag then a.states else a.states.withNew tag (.fresh m.initial config)) := by
    intro tag config
    rw [StateTable.init_eq]
    split <;> rfl
  unfold Assembly.bind withRule
  dsimp only
  rw [h]
  dsimp only
  rw [hinit]
  dsimp only [EngineError.liftState, Bind.bind, Except.bind]
  cases a.bound.any (·.binding.tag = c.tag g.id rule) <;> rfl

/-- Binding a rule makes the instance of its tag where there is none, and touches no other. -/
theorem find?_withRule (a : Assembly K Note) (g : Group) (rule : String) (m : RuleModule K Note) (tag : StateTag) :
    (a.withRule c g rule m).states.find? tag = (a.states.find? tag).or
      (if tag = c.tag g.id rule then some (.fresh m.initial (c.resolve g.id rule m.config)) else none) := by
  unfold withRule
  dsimp only
  split
  · rename_i hold
    by_cases htag : tag = c.tag g.id rule
    · obtain ⟨state, hstate⟩ := Option.isSome_iff_exists.1 hold
      rw [htag, hstate, Option.some_or]
    · rw [if_neg htag, Option.or_none]
  · rename_i hnew
    rw [StateTable.find?_withNew]
    by_cases htag : tag = c.tag g.id rule
    · have hnone : a.states.find? (c.tag g.id rule) = none := Option.not_isSome_iff_eq_none.1 hnew
      rw [if_pos htag, if_pos htag, htag, hnone, Option.none_or]
    · rw [if_neg htag, if_neg htag, Option.or_none]

/-- Binding succeeds for rules that are known, and only for them. -/
theorem bind_eq_ok_iff {a a' : Assembly K Note} {g : Group} {rule : String} :
    bind r c a (g, rule) = .ok a' ↔ ∃ m, r.find? rule = some m ∧ a' = a.withRule c g rule m := by
  constructor
  · intro h
    cases hfind : r.find? rule with
    | none => simp [Assembly.bind, hfind] at h
    | some m =>
      rw [bind_of_found hfind] at h
      cases h
      exact ⟨m, rfl, rfl⟩
  · rintro ⟨m, hfind, rfl⟩
    exact bind_of_found hfind a g

end Assembly

/-- A bound instance is one of a rule that a group names, as the registry declares it. -/
structure Bound.Declared (r : Registry K Note) (groups : List Group) (b : Bound K Note) : Prop where
  module : r.find? b.binding.tag.rule = some b.module
  dependencies : b.binding.dependencies = b.module.dependencies
  named : ∃ g ∈ groups, b.binding.tag.rule ∈ g.rules

theorem Bound.Declared.joined {b : Bound K Note} (h : b.Declared r groups) (tag : StateTag) (m : Membership) :
    (b.joined tag m).Declared r groups := by
  unfold Bound.joined
  split
  · exact ⟨by simpa using h.module, by simpa using h.dependencies, by simpa using h.named⟩
  · exact h

/-- All bound instances are declared. -/
theorem Assembly.ofGroups_declared {a : Assembly K Note} (h : ofGroups r c groups = .ok a) :
    ∀ b ∈ a.bound, b.Declared r groups := by
  refine foldlM_keeps (fun a : Assembly K Note => ∀ b ∈ a.bound, b.Declared r groups) ?_ ?_ h
  case refine_2 => exact fun b hb => absurd hb List.not_mem_nil
  rintro ⟨g, rule⟩ hpair a a' ha hbind b hb
  obtain ⟨m, hfind, rfl⟩ := bind_eq_ok_iff.1 hbind
  unfold withRule at hb
  dsimp only at hb
  split at hb
  · obtain ⟨old, hold, rfl⟩ := List.mem_map.1 hb
    exact (ha old hold).joined _ _
  · rcases List.mem_append.1 hb with hb | hb
    · exact ha b hb
    · cases List.mem_singleton.1 hb
      have hrule := c.tag_rule g.id rule
      refine ⟨by rw [hrule, hfind], rfl, ?_⟩
      rw [hrule]
      exact Group.exists_mem_pairs.1 ⟨g, hpair⟩

/-! ## Visitors -/

theorem Assembly.visitors_cons_eq_ok_iff {b : Bound K Note} {rest : List (Bound K Note)}
    {registered : List (Registration (Listener K Note))} : (visitors (b :: rest)).2 = .ok registered ↔
      ∃ made more, (b.module.build b.binding.config).visitors = .ok made ∧ (visitors rest).2 = .ok more ∧
        registered = registrations b made ++ more := by
  rw [visitors]
  cases hmade : (b.module.build b.binding.config).visitors with
  | error reason =>
    dsimp only
    constructor
    · exact nofun
    · rintro ⟨made, more, h, -, -⟩
      cases h
  | ok made =>
    dsimp only
    cases hrest : (visitors rest).2 with
    | error e =>
      constructor
      · exact nofun
      · rintro ⟨made, more, -, h, -⟩
        cases h
    | ok more =>
      simp only [Except.map, Except.ok.injEq]
      constructor
      · rintro rfl
        exact ⟨made, more, rfl, rfl, rfl⟩
      · rintro ⟨_, _, rfl, rfl, rfl⟩
        rfl

/-- A registration is for a bound instance and runs a visitor that the module of its rule has made. -/
theorem Assembly.mem_visitors {bound : List (Bound K Note)} {registered : List (Registration (Listener K Note))}
    (h : (visitors bound).2 = .ok registered) {reg : Registration (Listener K Note)} (hreg : reg ∈ registered) :
    ∃ b ∈ bound, reg.owner = b.binding.tag.rule ∧ reg.listener.binding = b.binding ∧
      ∃ made, (b.module.build b.binding.config).visitors = .ok made ∧ reg.listener.visitor ∈ made := by
  induction bound generalizing registered with
  | nil =>
    cases h
    exact absurd hreg List.not_mem_nil
  | cons b rest ih =>
    obtain ⟨made, more, hmade, hmore, rfl⟩ := visitors_cons_eq_ok_iff.1 h
    rcases List.mem_append.1 hreg with hreg | hreg
    · obtain ⟨v, hv, rfl⟩ := List.mem_map.1 hreg
      exact ⟨b, List.mem_cons_self, rfl, rfl, made, hmade, hv⟩
    · obtain ⟨b', hb', hspec⟩ := ih hmore hreg
      exact ⟨b', List.mem_cons_of_mem _ hb', hspec⟩

/-! ## Setup -/

/-- With an order and the instances at hand, the visitors are made and their registrations indexed. -/
theorem Engine.outcome_of_prepared {order : DeliveryOrder} {a : Assembly K Note} (horder : Engine.orderOf r groups = .ok order)
    (ha : Assembly.ofGroups r c groups = .ok a) (cache : PatternCache) : (Engine.setupWith cache r groups c).outcome =
      (Assembly.visitors a.bound).2.bind (Engine.finish cache order a) := by
  have hok : Engine.prepare r groups c = .ok (order, a) := by
    rw [Engine.prepare, horder, ha]
    rfl
  rw [Engine.setupWith, hok]

/-- Setup succeeds exactly if all its parts do. -/
theorem Engine.setupWith_eq_ok_iff {cache : PatternCache} {e : Engine K Note} :
    (Engine.setupWith cache r groups c).outcome = .ok e ↔
      ∃ order a registered index cache', Engine.orderOf r groups = .ok order ∧ Assembly.ofGroups r c groups = .ok a ∧
        (Assembly.visitors a.bound).2 = .ok registered ∧
        SelectorIndex.build order cache registered = .ok (index, cache') ∧
        e = ⟨a.states, a.bound.map (·.binding), index, order, cache'⟩ := by
  constructor
  · intro h
    obtain ⟨order, horder⟩ : ∃ order, Engine.orderOf r groups = .ok order := by
      cases horder : Engine.orderOf r groups with
      | ok order => exact ⟨order, rfl⟩
      | error e =>
        rw [Engine.setupWith, Engine.prepare, horder] at h
        cases h
    obtain ⟨a, ha⟩ : ∃ a, Assembly.ofGroups r c groups = .ok a := by
      cases ha : Assembly.ofGroups r c groups with
      | ok a => exact ⟨a, rfl⟩
      | error e =>
        rw [Engine.setupWith, Engine.prepare, horder, ha] at h
        cases h
    rw [outcome_of_prepared horder ha] at h
    cases hv : (Assembly.visitors a.bound).2 with
    | error e =>
      rw [hv] at h
      cases h
    | ok registered =>
      rw [hv] at h
      change Engine.finish cache order a registered = .ok e at h
      unfold Engine.finish at h
      split at h
      · rename_i index cache' hbuild
        cases h
        exact ⟨order, a, registered, index, cache', horder, ha, hv, hbuild, rfl⟩
      · cases h
  · rintro ⟨order, a, registered, index, cache', horder, ha, hv, hbuild, rfl⟩
    rw [outcome_of_prepared horder ha, hv]
    change Engine.finish cache order a registered = _
    rw [Engine.finish, hbuild]

/-- No instance of an engine has been written before its run. -/
theorem Engine.never_written {cache : PatternCache} {e : Engine K Note}
    (h : (Engine.setupWith cache r groups c).outcome = .ok e) {tag : StateTag} {state : RuleState K}
    (hfind : e.states.find? tag = some state) : state.history = [] := by
  obtain ⟨order, a, registered, index, cache', -, ha, -, -, rfl⟩ := setupWith_eq_ok_iff.1 h
  refine foldlM_keeps (fun a : Assembly K Note => ∀ tag state, a.states.find? tag = some state → state.history = [])
    ?_ ?_ ha tag state hfind
  case refine_2 =>
    intro tag state hfind
    cases (StateTable.find?_empty tag).symm.trans hfind
  rintro ⟨g, rule⟩ - a a' hold hbind tag state hfind
  obtain ⟨m, -, rfl⟩ := Assembly.bind_eq_ok_iff.1 hbind
  rw [Assembly.find?_withRule, Option.or_eq_some_iff] at hfind
  rcases hfind with hfind | ⟨-, hnew⟩
  · exact hold tag state hfind
  · obtain ⟨-, hfresh⟩ := Option.ite_none_right_eq_some.1 hnew
    cases hfresh
    rfl

end RuleWalk
