import RuleWalk.Proofs.Delivery

/-!
# The instances of an engine

Setup goes through the rules of all groups and binds each to the instance of its tag. After any number of them there is one
instance for each tag that has come up, in the order in which the tags first came up; it has recorded the groups that run it,
one for each id; and its configuration is the one that the rule has in any of these groups. A group with an entry of its own
for a rule has an instance of its own, so groups that share an instance resolve its rule alike.
-/

namespace RuleWalk

variable {K : Type} [Kinds K] {Note : Type} {r : Registry K Note} {groups : List Group} {c : Config}

/-! ## Groups that run an instance -/

/-- What a binding records of a group. -/
def Group.membership (g : Group) : Membership :=
  ⟨g.id, g.rules⟩

namespace Config

/-- A group runs an instance if it lists the rule and the tag is the one of the rule in the group. -/
def runs (c : Config) (tag : StateTag) (g : Group) : Bool :=
  g.lists tag.rule && c.tag g.id tag.rule = tag

/-- The group of each rule that runs under a tag, in listing order. -/
def runners (c : Config) (tag : StateTag) (pairs : List (Group × String)) : List Group :=
  (pairs.filter fun (g, rule) => c.tag g.id rule = tag).map Prod.fst

/-- The tag of each rule, in listing order. -/
def tags (c : Config) (pairs : List (Group × String)) : List StateTag :=
  pairs.map fun (g, rule) => c.tag g.id rule

/-- A tag comes up exactly if some group lists a rule under it. -/
theorem mem_tags_iff {tag : StateTag} :
    tag ∈ c.tags (Group.pairs groups) ↔ ∃ g ∈ groups, ∃ rule ∈ g.rules, c.tag g.id rule = tag := by
  simp only [tags, Group.pairs, List.mem_map, List.mem_flatMap]
  constructor
  · rintro ⟨_, ⟨g, hg, rule, hrule, rfl⟩, htag⟩
    exact ⟨g, hg, rule, hrule, htag⟩
  · rintro ⟨g, hg, rule, hrule, htag⟩
    exact ⟨(g, rule), ⟨g, hg, rule, hrule, rfl⟩, htag⟩

/-- A tag of a group is that of the group itself and of a rule that it overrides. -/
theorem eq_of_tag_eq_group {group rule rule' id : String} (h : c.tag group rule = .group rule' id) :
    group = id ∧ rule = rule' ∧ c.overrides group rule := by
  unfold tag at h
  split at h
  · rename_i hown
    injection h with hrule hscope
    injection hscope with hgroup
    exact ⟨hgroup, hrule, hown⟩
  · injection h with _ hscope
    cases hscope

/-- A group runs an instance if it lists the rule and the rule has this tag there. -/
theorem runs_iff {tag : StateTag} {g : Group} : c.runs tag g ↔ tag.rule ∈ g.rules ∧ c.tag g.id tag.rule = tag := by
  simp [runs, Group.lists]

theorem runs_of_tag_eq {tag : StateTag} {g : Group} {rule : String} (hrule : rule ∈ g.rules) (htag : c.tag g.id rule = tag) :
    c.runs tag g := by
  subst htag
  rw [runs_iff, tag_rule]
  exact ⟨hrule, rfl⟩

/-- One more pair adds its group to the runners of its own tag only. -/
theorem runners_concat (tag : StateTag) (pairs : List (Group × String)) (g : Group) (rule : String) :
    c.runners tag (pairs ++ [(g, rule)]) =
      if c.tag g.id rule = tag then c.runners tag pairs ++ [g] else c.runners tag pairs := by
  unfold runners
  rw [List.filter_append, List.map_append]
  by_cases h : c.tag g.id rule = tag
  · simp [h]
  · simp [h]

/-- A tag that has not come up is run by no group. -/
theorem runners_of_not_mem {tag : StateTag} {pairs : List (Group × String)} (h : tag ∉ c.tags pairs) :
    c.runners tag pairs = [] := by
  rw [runners, List.map_eq_nil_iff, List.filter_eq_nil_iff]
  intro pair hpair htag
  exact h (List.mem_map.2 ⟨pair, hpair, of_decide_eq_true htag⟩)

/-- One more pair adds its tag at the end, if the tag has not come up yet. -/
theorem eraseDups_tags_concat (pairs : List (Group × String)) (g : Group) (rule : String) :
    (c.tags (pairs ++ [(g, rule)])).eraseDups = if c.tag g.id rule ∈ c.tags pairs then (c.tags pairs).eraseDups
      else (c.tags pairs).eraseDups ++ [c.tag g.id rule] := by
  rw [tags, List.map_append, List.map_singleton, eraseDups_concat]
  rfl

/-- A rule that a group lists several times runs in it once. -/
theorem firsts_runners (tag : StateTag) (groups : List Group) :
    firsts Group.id (c.runners tag (Group.pairs groups)) = firsts Group.id (groups.filter (c.runs tag)) := by
  have htimes : c.runners tag (Group.pairs groups) =
      groups.flatMap fun g => List.replicate (g.rules.countP fun rule => c.tag g.id rule = tag) g := by
    induction groups with
    | nil => rfl
    | cons g rest ih =>
      rw [List.flatMap_cons, ← ih]
      unfold runners Group.pairs
      rw [List.flatMap_cons, List.filter_append, List.map_append, List.filter_map, List.map_map,
        List.countP_eq_length_filter, List.eq_replicate_of_mem (a := g) (l := List.map _ _)]
      · simp [Function.comp_def]
      · simp
  rw [htimes, firsts_flatMap_replicate]
  congr 1
  refine List.filter_congr fun g _ => ?_
  rw [Bool.eq_iff_iff, decide_eq_true_iff, ← Nat.pos_iff_ne_zero, List.countP_pos_iff]
  constructor
  · rintro ⟨rule, hrule, htag⟩
    exact runs_of_tag_eq hrule (of_decide_eq_true htag)
  · intro hruns
    obtain ⟨hrule, htag⟩ := runs_iff.1 hruns
    exact ⟨tag.rule, hrule, decide_eq_true htag⟩

/-- Groups for which a rule runs under one tag resolve it alike. -/
theorem resolve_eq_of_tag_eq {group group' rule : String} (h : c.tag group rule = c.tag group' rule) (declared : Json) :
    c.resolve group rule declared = c.resolve group' rule declared := by
  unfold tag at h
  by_cases hg : c.overrides group rule
  · by_cases hg' : c.overrides group' rule
    · rw [if_pos hg, if_pos hg'] at h
      injection h with _ hscope
      injection hscope with hgroup
      rw [hgroup]
    · rw [if_pos hg, if_neg hg'] at h
      injection h with _ hscope
      cases hscope
  · by_cases hg' : c.overrides group' rule
    · rw [if_neg hg, if_pos hg'] at h
      injection h with _ hscope
      cases hscope
    · simp only [overrides, Option.not_isSome_iff_eq_none] at hg hg'
      rw [resolve, resolve, hg, hg']

end Config

/-! ## Binding keeps instances exact -/

@[simp] theorem Binding.config_join (b : Binding) (m : Membership) : (b.join m).config = b.config := by
  unfold join
  split <;> rfl

@[simp] theorem Bound.config_joined (tag : StateTag) (m : Membership) (b : Bound K Note) :
    (b.joined tag m).binding.config = b.binding.config := by
  unfold joined
  split <;> simp

@[simp] theorem Bound.module_joined (tag : StateTag) (m : Membership) (b : Bound K Note) :
    (b.joined tag m).module = b.module := by
  unfold joined
  split <;> rfl

/-- A bound instance serves the rules that have its tag: it has recorded their groups, the first of each id, and its
configuration is the one that its rule has in every group that can run it. -/
structure Bound.Serves (c : Config) (pairs : List (Group × String)) (b : Bound K Note) : Prop where
  groups : b.binding.groups = (firsts Group.id (c.runners b.binding.tag pairs)).map Group.membership
  config : ∀ group, c.tag group b.binding.tag.rule = b.binding.tag →
    b.binding.config = c.resolve group b.binding.tag.rule b.module.config

/-- The instances are exact for some rules of groups: one for each tag, fresh and with the configuration it is bound with. -/
structure Assembly.Exact (c : Config) (pairs : List (Group × String)) (a : Assembly K Note) : Prop where
  tags : a.bound.map (·.binding.tag) = (c.tags pairs).eraseDups
  instances : ∀ tag state, a.states.find? tag = some state ↔
    ∃ b ∈ a.bound, b.binding.tag = tag ∧ RuleState.fresh b.module.initial b.binding.config = state
  serves : ∀ b ∈ a.bound, b.Serves c pairs

/-- A group joins the instance of one of its rules, if it has not done so under its id. -/
theorem Binding.groups_join {b : Binding} {entries : List Group}
    (h : b.groups = (firsts Group.id entries).map Group.membership) (g : Group) :
    (b.join g.membership).groups = (firsts Group.id (entries ++ [g])).map Group.membership := by
  rw [firsts_concat_eq]
  unfold join
  by_cases hg : g.id ∈ (firsts Group.id entries).map Group.id
  · rw [if_pos hg, if_neg, h]
    obtain ⟨first, hfirst, hid⟩ := List.mem_map.1 hg
    rw [h, List.all_eq_true]
    intro hall
    have hne := hall first.membership (List.mem_map_of_mem hfirst)
    simp [Group.membership, hid] at hne
  · rw [if_neg hg, if_pos]
    · simp [h]
    · rw [h, List.all_eq_true]
      intro m hm
      obtain ⟨first, hfirst, rfl⟩ := List.mem_map.1 hm
      rw [bne_iff_ne]
      intro hid
      exact hg (List.mem_map.2 ⟨first, hfirst, hid⟩)

/-- An instance that serves its runners does so after one more pair, which joins it if the tag is its own. -/
theorem Bound.Serves.joined {pairs : List (Group × String)} {b : Bound K Note} (h : b.Serves c pairs) (g : Group)
    (rule : String) : (b.joined (c.tag g.id rule) g.membership).Serves c (pairs ++ [(g, rule)]) := by
  refine ⟨?_, by simpa using h.config⟩
  rw [tag_joined, Config.runners_concat]
  unfold Bound.joined
  by_cases htag : b.binding.tag = c.tag g.id rule
  · rw [if_pos htag, if_pos htag.symm]
    exact Binding.groups_join h.groups g
  · rw [if_neg htag, if_neg (Ne.symm htag)]
    exact h.groups

/-- A pair of another tag concerns no other instance. -/
theorem Bound.Serves.concat {pairs : List (Group × String)} {b : Bound K Note} (h : b.Serves c pairs) {g : Group}
    {rule : String} (hne : c.tag g.id rule ≠ b.binding.tag) : b.Serves c (pairs ++ [(g, rule)]) := by
  refine ⟨?_, h.config⟩
  rw [Config.runners_concat, if_neg hne]
  exact h.groups

/-- The instance that is bound for the first pair of a tag serves it. -/
theorem Bound.serves_first {pairs : List (Group × String)} {g : Group} {rule : String}
    (hnew : c.tag g.id rule ∉ c.tags pairs) (m : RuleModule K Note) :
    (⟨⟨c.tag g.id rule, [g.membership], m.dependencies, c.resolve g.id rule m.config⟩, m⟩ : Bound K Note).Serves c
      (pairs ++ [(g, rule)]) := by
  constructor
  · rw [Config.runners_concat, if_pos rfl, Config.runners_of_not_mem hnew]
    rfl
  · intro group htag
    dsimp only at htag ⊢
    rw [Config.tag_rule] at htag ⊢
    exact Config.resolve_eq_of_tag_eq htag.symm m.config

namespace Assembly

variable {pairs : List (Group × String)} {a : Assembly K Note}

theorem Exact.mem_tags (h : a.Exact c pairs) (tag : StateTag) :
    (∃ b ∈ a.bound, b.binding.tag = tag) ↔ tag ∈ c.tags pairs := by
  rw [← List.mem_eraseDups, ← h.tags, List.mem_map]

theorem Exact.nodup_tags (h : a.Exact c pairs) : (a.bound.map (·.binding.tag)).Nodup := by
  rw [h.tags]
  exact nodup_eraseDups (c.tags pairs)

/-- The table holds an instance for each binding and no other. -/
theorem Exact.contains_iff (h : a.Exact c pairs) (tag : StateTag) :
    a.states.contains tag ↔ ∃ b ∈ a.bound, b.binding.tag = tag := by
  rw [StateTable.contains, Option.isSome_iff_exists]
  constructor
  · rintro ⟨state, hfind⟩
    obtain ⟨b, hb, htag, -⟩ := (h.instances tag state).1 hfind
    exact ⟨b, hb, htag⟩
  · rintro ⟨b, hb, htag⟩
    exact ⟨_, (h.instances tag _).2 ⟨b, hb, htag, rfl⟩⟩

theorem Exact.any_eq (h : a.Exact c pairs) (tag : StateTag) :
    a.bound.any (·.binding.tag = tag) = a.states.contains tag := by
  rw [Bool.eq_iff_iff, h.contains_iff, List.any_eq_true]
  simp

/-- A pair whose tag has come up joins the instance of its tag. -/
theorem Exact.withJoined (h : a.Exact c pairs) {g : Group} {rule : String} (hold : c.tag g.id rule ∈ c.tags pairs) :
    (⟨a.states, a.bound.map (Bound.joined (c.tag g.id rule) g.membership)⟩ : Assembly K Note).Exact c
      (pairs ++ [(g, rule)]) := by
  refine ⟨?_, ?_, ?_⟩
  · rw [Config.eraseDups_tags_concat, if_pos hold, ← h.tags]
    simp
  · intro tag state
    rw [h.instances]
    simp
  · intro b hb
    obtain ⟨old, hmem, rfl⟩ := List.mem_map.1 hb
    exact (h.serves old hmem).joined g rule

/-- A pair whose tag is new has an instance made for it. -/
theorem Exact.withFirst (h : a.Exact c pairs) {g : Group} {rule : String} (hnew : c.tag g.id rule ∉ c.tags pairs)
    (m : RuleModule K Note) :
    (⟨a.states.withNew (c.tag g.id rule) (.fresh m.initial (c.resolve g.id rule m.config)),
      a.bound ++ [⟨⟨c.tag g.id rule, [g.membership], m.dependencies, c.resolve g.id rule m.config⟩, m⟩]⟩ :
      Assembly K Note).Exact c (pairs ++ [(g, rule)]) := by
  refine ⟨?_, ?_, ?_⟩
  · rw [Config.eraseDups_tags_concat, if_neg hnew, ← h.tags]
    simp
  · intro tag state
    simp only [List.mem_append, List.mem_singleton, or_and_right, exists_or, exists_eq_left]
    rw [StateTable.find?_withNew, ← h.instances]
    by_cases htag : tag = c.tag g.id rule
    · have hnone : a.states.find? (c.tag g.id rule) = none := by
        rw [← Option.not_isSome_iff_eq_none]
        exact fun hsome => hnew ((h.mem_tags _).1 ((h.contains_iff _).1 hsome))
      simp [htag, hnone]
    · simp [htag, Ne.symm htag]
  · intro b hb
    rcases List.mem_append.1 hb with hb | hb
    · exact (h.serves b hb).concat fun htag => hnew ((h.mem_tags _).1 ⟨b, hb, htag.symm⟩)
    · cases List.mem_singleton.1 hb
      exact Bound.serves_first hnew m

/-- One more pair keeps an assembly exact: it joins the instance of its tag or has one made. -/
theorem Exact.withRule (h : a.Exact c pairs) (g : Group) (rule : String) (m : RuleModule K Note) :
    (a.withRule c g rule m).Exact c (pairs ++ [(g, rule)]) := by
  have hmem := h.mem_tags (c.tag g.id rule)
  unfold Assembly.withRule
  rw [← h.any_eq]
  by_cases hany : a.bound.any (·.binding.tag = c.tag g.id rule)
  · rw [if_pos hany, if_pos hany]
    exact h.withJoined (hmem.1 (by simpa using hany))
  · rw [if_neg hany, if_neg hany]
    exact h.withFirst (fun htag => hany (by simpa using hmem.2 htag)) m

/-- The instances that are bound for groups are exact for all their rules. -/
theorem ofGroups_exact (h : ofGroups r c groups = .ok a) : a.Exact c (Group.pairs groups) := by
  have hstart : (({} : Assembly K Note)).Exact c [] := by
    refine ⟨rfl, fun tag state => ?_, by simp⟩
    rw [show (({} : Assembly K Note)).states.find? tag = none from StateTable.find?_empty tag]
    simp
  refine foldlM_carries (fun pairs a => a.Exact c pairs) ?_ hstart h
  rintro pairs ⟨g, rule⟩ a a' ha hbind
  obtain ⟨m, -, rfl⟩ := bind_eq_ok_iff.1 hbind
  exact ha.withRule g rule m

end Assembly

/-- Groups that list a rule find the instance that the rule is bound to for them. -/
theorem StateTable.tagFor?_of_contains {t : StateTable K}
    (ht : ∀ tag, t.contains tag ↔ tag ∈ c.tags (Group.pairs groups)) {g : Group}
    (hg : g ∈ groups) {rule : String} (hrule : rule ∈ g.rules) : t.tagFor? rule g.id = some (c.tag g.id rule) := by
  have hbound : t.contains (c.tag g.id rule) := (ht _).2 (Config.mem_tags_iff.2 ⟨g, hg, rule, hrule, rfl⟩)
  rw [tagFor?_eq]
  by_cases hown : c.overrides g.id rule
  · rw [Config.tag, if_pos hown] at hbound
    rw [if_pos hbound, Config.tag, if_pos hown]
  · -- a private instance of the rule for this id would come of an entry in the configuration
    have hprivate : ¬t.contains (.group rule g.id) := by
      intro hcontains
      obtain ⟨g', -, rule', -, htag⟩ := Config.mem_tags_iff.1 ((ht _).1 hcontains)
      obtain ⟨hid, hrule, hoverrides⟩ := Config.eq_of_tag_eq_group htag
      rw [hid, hrule] at hoverrides
      exact hown hoverrides
    rw [Config.tag, if_neg hown] at hbound
    rw [if_neg hprivate, if_pos hbound, Config.tag, if_neg hown]

/-! ## Visitors are made once -/

/-- The visitors that were made; none if they could not be. -/
def Build.made (work : Build K Note) : List (Visitor K Note) :=
  work.visitors.toOption.getD []

/-- What is made for a binding by the module of its rule. -/
def Registry.buildFor (r : Registry K Note) (b : Binding) : Build K Note :=
  match r.find? b.tag.rule with
  | some m => m.build b.config
  | none => ⟨[], .ok []⟩

/-- The registrations of a binding: all its visitors under the name of its rule. -/
def Registry.registrationsFor (r : Registry K Note) (b : Binding) : List (Registration (Listener K Note)) :=
  (r.buildFor b).made.map fun v => ⟨v.selector, b.tag.rule, ⟨b, v⟩⟩

/-- The visitors of an instance are made from the module and the configuration that it is bound with. -/
theorem Registry.buildFor_of_declared {b : Bound K Note} (h : b.Declared r groups) :
    r.buildFor b.binding = b.module.build b.binding.config := by
  rw [buildFor, h.module]

/-- The visitors of each bound instance are made once and registered once. -/
theorem Assembly.visitors_eq {bound : List (Bound K Note)} (hdeclared : ∀ b ∈ bound, b.Declared r groups)
    {registered : List (Registration (Listener K Note))} (h : (visitors bound).2 = .ok registered) :
    (∀ b ∈ bound, (r.buildFor b.binding).visitors = .ok (r.buildFor b.binding).made) ∧
      (visitors bound).1 = (bound.map (·.binding)).flatMap (fun b => (r.buildFor b).notes) ∧
      registered = (bound.map (·.binding)).flatMap r.registrationsFor := by
  induction bound generalizing registered with
  | nil =>
    cases h
    exact ⟨nofun, rfl, rfl⟩
  | cons b rest ih =>
    obtain ⟨hb, hrest⟩ := List.forall_mem_cons.1 hdeclared
    obtain ⟨made, more, hmade, hmore, rfl⟩ := visitors_cons_eq_ok_iff.1 h
    obtain ⟨hvisitors, hnotes, rfl⟩ := ih hrest hmore
    have hbuild := Registry.buildFor_of_declared hb
    have heq : (r.buildFor b.binding).made = made := by
      rw [hbuild, Build.made, hmade]
      rfl
    refine ⟨List.forall_mem_cons.2 ⟨by rw [heq, hbuild, hmade], hvisitors⟩, ?_, ?_⟩
    · rw [visitors, hmade, List.map_cons, List.flatMap_cons, ← hnotes, hbuild]
    · rw [List.map_cons, List.flatMap_cons, Registry.registrationsFor, heq]
      rfl

/-! ## The instances of an engine -/

/-- A binding keeps to its groups: it has recorded the ids of the groups that run its instance, each once, and in each of
them the configuration of its rule is its own and the one that the instance has stored. -/
structure Binding.Kept (r : Registry K Note) (groups : List Group) (c : Config) (states : StateTable K) (b : Binding) :
    Prop where
  distinct : (b.groups.map (·.group)).Nodup
  recorded : ∀ id, id ∈ b.groups.map (·.group) ↔
    ∃ g ∈ groups, g.id = id ∧ b.tag.rule ∈ g.rules ∧ c.tag g.id b.tag.rule = b.tag
  config : ∃ m state, r.find? b.tag.rule = some m ∧ states.find? b.tag = some state ∧
    ∀ id ∈ b.groups.map (·.group), b.config = c.resolve id b.tag.rule m.config ∧
      state.config = c.resolve id b.tag.rule m.config

/-- The groups of an instance are those that run it, one for each id. -/
theorem Bound.Serves.groups_eq {b : Bound K Note} (h : b.Serves c (Group.pairs groups)) :
    b.binding.groups = (firsts Group.id (groups.filter (c.runs b.binding.tag))).map Group.membership := by
  rw [h.groups, Config.firsts_runners]

theorem Assembly.Exact.find?_tag {pairs : List (Group × String)} {a : Assembly K Note} (h : a.Exact c pairs) {b : Bound K Note}
    (hb : b ∈ a.bound) : a.states.find? b.binding.tag = some (RuleState.fresh b.module.initial b.binding.config) :=
  (h.instances _ _).2 ⟨b, hb, rfl, rfl⟩

/-- Every binding of an assembly is kept by the table as it was made. -/
theorem Assembly.Exact.kept {a : Assembly K Note} (ha : a.Exact c (Group.pairs groups)) {b : Bound K Note} (hb : b ∈ a.bound)
    (hdeclared : b.Declared r groups) : b.binding.Kept r groups c a.states := by
  have hgroups : b.binding.groups.map (·.group) =
      (firsts Group.id (groups.filter (c.runs b.binding.tag))).map Group.id := by
    rw [(ha.serves b hb).groups_eq, List.map_map]
    rfl
  have hrecorded : ∀ id, id ∈ b.binding.groups.map (·.group) ↔
      ∃ g ∈ groups, g.id = id ∧ b.binding.tag.rule ∈ g.rules ∧ c.tag g.id b.binding.tag.rule = b.binding.tag := by
    intro id
    rw [hgroups, mem_keys_firsts, List.mem_map]
    simp only [List.mem_filter, Config.runs_iff]
    constructor
    · rintro ⟨g, ⟨hg, hrule, htag⟩, hid⟩
      exact ⟨g, hg, hid, hrule, htag⟩
    · rintro ⟨g, hg, hid, hrule, htag⟩
      exact ⟨g, ⟨hg, hrule, htag⟩, hid⟩
  refine ⟨?_, hrecorded, b.module, _, hdeclared.module, ha.find?_tag hb, fun id hid => ?_⟩
  · rw [hgroups]
    exact nodup_firsts Group.id _
  · obtain ⟨g, -, rfl, -, htag⟩ := (hrecorded id).1 hid
    exact ⟨(ha.serves b hb).config g.id htag, (ha.serves b hb).config g.id htag⟩

/-- The engine holds an instance for each tag that comes up and no other. -/
theorem Engine.contains_iff {cache : PatternCache} {e : Engine K Note} (h : (setupWith cache r groups c).outcome = .ok e)
    (tag : StateTag) : e.states.contains tag ↔ tag ∈ c.tags (Group.pairs groups) := by
  obtain ⟨order, a, registered, index, cache', -, ha, -, -, rfl⟩ := setupWith_eq_ok_iff.1 h
  have hexact := Assembly.ofGroups_exact ha
  rw [← hexact.mem_tags]
  exact hexact.contains_iff tag

/-- A binding is for a rule that the registry has, and has recorded the entries that run it, the first of each id. -/
theorem Engine.binding_spec {cache : PatternCache} {e : Engine K Note} (h : (setupWith cache r groups c).outcome = .ok e)
    {b : Binding} (hb : b ∈ e.bindings) :
    b.tag ∈ c.tags (Group.pairs groups) ∧ (∃ m, r.find? b.tag.rule = some m ∧ b.dependencies = m.dependencies) ∧
      b.groups = (firsts Group.id (groups.filter (c.runs b.tag))).map Group.membership := by
  obtain ⟨order, a, registered, index, cache', -, ha, -, -, rfl⟩ := setupWith_eq_ok_iff.1 h
  obtain ⟨bound, hbound, rfl⟩ := List.mem_map.1 hb
  have hexact := Assembly.ofGroups_exact ha
  have hdeclared := Assembly.ofGroups_declared ha bound hbound
  exact ⟨(hexact.mem_tags _).1 ⟨bound, hbound, rfl⟩, ⟨bound.module, hdeclared.module, hdeclared.dependencies⟩,
    (hexact.serves bound hbound).groups_eq⟩

/-- The notes of a setup are those of loading the rules and then those of making the visitors of each instance once. -/
theorem Engine.notes_of_setup {cache : PatternCache} {e : Engine K Note} {a : Assembly K Note}
    (h : (setupWith cache r groups c).outcome = .ok e) (ha : Assembly.ofGroups r c groups = .ok a) :
    (setupWith cache r groups c).notes = (r.loadAll (r.consulted groups)).2 ++ (Assembly.visitors a.bound).1 := by
  obtain ⟨order, a', -, -, -, horder, ha', -, -, -⟩ := setupWith_eq_ok_iff.1 h
  cases ha.symm.trans ha'
  have hprepare : prepare r groups c = .ok (order, a) := by
    rw [prepare, horder, ha]
    rfl
  rw [setupWith, hprepare]

/-- The instances of an engine are exact. There is one for each tag that a rule of a group has, private where the group has
an entry of its own for the rule and shared elsewhere, in the order in which the tags first come up, and the table has no
other entry. Every group finds the instance of each of its rules. Every binding has recorded the groups that run its
instance, and the configuration of the rule in each of them is the binding's and the instance's. However many groups share an
instance, its visitors are made once, which leaves the notes of making them once, and they are registered once. -/
theorem Engine.instances_exact {cache : PatternCache} {e : Engine K Note} (h : (setupWith cache r groups c).outcome = .ok e) :
    e.tags.Nodup ∧
    e.tags = ((Group.pairs groups).map fun (g, rule) =>
      if c.overrides g.id rule then StateTag.group rule g.id else StateTag.shared rule).eraseDups ∧
    e.states.tags.Perm e.tags ∧
    (∀ g ∈ groups, ∀ rule ∈ g.rules, e.states.tagFor? rule g.id = some (c.tag g.id rule) ∧
      ∃ b ∈ e.bindings, b.tag = c.tag g.id rule) ∧
    (∀ b ∈ e.bindings, b.Kept r groups c e.states) ∧
    (∀ b ∈ e.bindings, (r.buildFor b).visitors = .ok (r.buildFor b).made) ∧
    (setupWith cache r groups c).notes =
      (r.loadAll (r.consulted groups)).2 ++ e.bindings.flatMap (fun b => (r.buildFor b).notes) ∧
    SelectorIndex.build e.order cache (e.bindings.flatMap r.registrationsFor) = .ok (e.index, e.cache) := by
  obtain ⟨order, a, registered, index, cache', -, ha, hv, hbuild, rfl⟩ := setupWith_eq_ok_iff.1 h
  have hexact := Assembly.ofGroups_exact ha
  have hdeclared := Assembly.ofGroups_declared ha
  obtain ⟨hvisitors, hnotes, rfl⟩ := Assembly.visitors_eq hdeclared hv
  have htags : (a.bound.map (·.binding)).map (·.tag) = (c.tags (Group.pairs groups)).eraseDups := by
    rw [List.map_map]
    exact hexact.tags
  have hnodup : ((a.bound.map (·.binding)).map (·.tag)).Nodup := by
    rw [List.map_map]
    exact hexact.nodup_tags
  refine ⟨hnodup, htags, ?_, ?_, ?_, ?_, ?_, hbuild⟩
  · refine (List.perm_ext_iff_of_nodup a.states.nodup_tags hnodup).2 fun tag => ?_
    rw [StateTable.mem_tags_iff, hexact.contains_iff, List.map_map, List.mem_map]
    rfl
  · intro g hg rule hrule
    refine ⟨StateTable.tagFor?_of_contains (contains_iff h) hg hrule, ?_⟩
    obtain ⟨b, hb, htag⟩ := (hexact.mem_tags _).2 (Config.mem_tags_iff.2 ⟨g, hg, rule, hrule, rfl⟩)
    exact ⟨b.binding, List.mem_map_of_mem hb, htag⟩
  · exact List.forall_mem_map.2 fun b hb => hexact.kept hb (hdeclared b hb)
  · exact List.forall_mem_map.2 hvisitors
  · rw [notes_of_setup h ha, hnotes]

/-- Two groups share one instance of a rule, one of them has a private one of another, and an id and a rule come twice. -/
theorem Engine.instances_exact_counting : ∃ e : Engine PlainKind Unit,
    (setupWith .empty Registry.counting [⟨"g", ["asking", "count"]⟩, ⟨"h", ["count", "asking", "count"]⟩, ⟨"g", ["apart"]⟩]
      { groups := [("h", [("count", .bool true)])] }).outcome = .ok e ∧
    e.tags = [.shared "asking", .shared "count", .group "count" "h", .shared "apart"] ∧
    e.bindings.map (·.groups.map (·.group)) = [["g", "h"], ["g"], ["h"], ["g"]] ∧ e.tags.Nodup ∧
    e.states.tags.Perm e.tags := by
  have hbindings : ((setupWith .empty Registry.counting
      [⟨"g", ["asking", "count"]⟩, ⟨"h", ["count", "asking", "count"]⟩, ⟨"g", ["apart"]⟩]
      { groups := [("h", [("count", .bool true)])] }).outcome.toOption.map fun e =>
        (e.tags, e.bindings.map (·.groups.map (·.group)))) =
      some ([.shared "asking", .shared "count", .group "count" "h", .shared "apart"],
        [["g", "h"], ["g"], ["h"], ["g"]]) := by
    cbv
  obtain ⟨e, hsetup, hbindings⟩ := Option.map_eq_some_iff.1 hbindings
  obtain ⟨htags, hgroups⟩ := Prod.mk.inj hbindings
  obtain ⟨hnodup, -, hperm, -⟩ := Engine.instances_exact (eq_ok_of_toOption hsetup)
  exact ⟨e, eq_ok_of_toOption hsetup, htags, hgroups, hnodup, hperm⟩

end RuleWalk
