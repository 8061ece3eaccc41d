import RuleWalk.Proofs.Delivery

/-!
# Engines for fewer rules

If rules are struck from the rule lists of the groups, what remains of an engine is what was made for the other rules: their
instances with the same states, their registrations in the same order, and at every visit the same listeners of each rule.
Only their ranks and the members of groups that a binding remembers may change.
-/

namespace RuleWalk

variable {K : Type} [Kinds K] {Note : Type} {r : Registry K Note} {groups : List Group} {c : Config} (keep : String → Bool)

/-! ## What remains -/

/-- The group without the rules that are not kept. -/
def Group.only (g : Group) : Group :=
  { g with rules := g.rules.filter keep }

/-- The membership without the members that are not kept. -/
def Membership.only (m : Membership) : Membership :=
  { m with members := m.members.filter keep }

/-- The binding with memberships that know the kept rules only. -/
def Binding.only (b : Binding) : Binding :=
  { b with groups := b.groups.map (Membership.only keep) }

/-- The bound instance with the binding for the kept rules. -/
def Bound.only (b : Bound K Note) : Bound K Note :=
  { b with binding := b.binding.only keep }

/-- The listener with the binding for the kept rules. -/
def Listener.only (l : Listener K Note) : Listener K Note :=
  { l with binding := l.binding.only keep }

/-- The registration with the listener for the kept rules. -/
def Registration.only (reg : Registration (Listener K Note)) : Registration (Listener K Note) :=
  { reg with listener := reg.listener.only keep }

/-- What has been bound for the kept rules is what remains of all that has been bound. -/
structure Assembly.Remains (a a' : Assembly K Note) : Prop where
  states : ∀ tag : StateTag, keep tag.rule → a'.states.find? tag = a.states.find? tag
  bound : a'.bound = (a.bound.filter (keep ·.binding.tag.rule)).map (Bound.only keep)

variable {keep}

theorem Group.pairs_only (groups : List Group) : Group.pairs (groups.map (Group.only keep)) =
    ((Group.pairs groups).filter (keep ·.2)).map fun pair => (pair.1.only keep, pair.2) := by
  induction groups with
  | nil => rfl
  | cons g rest ih =>
    have hfirst : (g.only keep).rules.map (fun rule => (g.only keep, rule)) =
        ((g.rules.map fun rule => (g, rule)).filter (keep ·.2)).map fun pair => (pair.1.only keep, pair.2) := by
      rw [List.filter_map, List.map_map]
      rfl
    simp only [Group.pairs, List.map_cons, List.flatMap_cons, List.filter_append, List.map_append] at ih ⊢
    rw [hfirst, ih]

theorem Binding.join_only (b : Binding) (m : Membership) :
    (b.join m).only keep = (b.only keep).join (m.only keep) := by
  have hall : (b.only keep).groups.all (·.group != (m.only keep).group) = b.groups.all (·.group != m.group) := by
    simp only [Binding.only, List.all_map]
    rfl
  unfold Binding.join
  rw [hall]
  split
  · simp [Binding.only]
  · rfl

/-! ## Binding -/

theorem Bound.joined_only (tag : StateTag) (m : Membership) (b : Bound K Note) :
    (b.joined tag m).only keep = (b.only keep).joined tag (m.only keep) := by
  unfold Bound.joined
  by_cases htag : b.binding.tag = tag
  · rw [if_pos htag, if_pos (show (b.only keep).binding.tag = tag from htag)]
    exact congrArg (fun binding => (⟨binding, b.module⟩ : Bound K Note)) (b.binding.join_only m)
  · rw [if_neg htag, if_neg (show ¬(b.only keep).binding.tag = tag from htag)]

namespace Assembly

theorem filter_map_joined (bound : List (Bound K Note)) (tag : StateTag) (m : Membership) :
    (bound.map (Bound.joined tag m)).filter (keep ·.binding.tag.rule) =
      (bound.filter (keep ·.binding.tag.rule)).map (Bound.joined tag m) := by
  rw [List.filter_map]
  congr 2
  funext b
  exact congrArg (fun tag : StateTag => keep tag.rule) (b.tag_joined tag m)

/-- Binding a kept rule does the same to what remains. -/
theorem Remains.withRule {a a' : Assembly K Note} (h : a.Remains keep a') (g : Group) {rule : String} (m : RuleModule K Note)
    (hkeep : keep rule) : (a.withRule c g rule m).Remains keep (a'.withRule c (g.only keep) rule m) := by
  constructor
  · intro tag htag
    rw [find?_withRule, find?_withRule, h.states tag htag]
    rfl
  · have hrule : keep (c.tag g.id rule).rule := by rw [c.tag_rule]; exact hkeep
    have hany : a'.bound.any (·.binding.tag = c.tag g.id rule) = a.bound.any (·.binding.tag = c.tag g.id rule) := by
      rw [h.bound, List.any_map, List.any_filter]
      congr 1
      funext b
      by_cases htag : b.binding.tag = c.tag g.id rule
      · simp [Bound.only, Binding.only, htag, hrule]
      · simp [Bound.only, Binding.only, htag]
    change (if a'.bound.any (·.binding.tag = c.tag g.id rule) then _ else _) =
      ((if a.bound.any (·.binding.tag = c.tag g.id rule) then _ else _ : List (Bound K Note)).filter _).map _
    rw [hany, h.bound]
    split
    · rw [filter_map_joined, List.map_map, List.map_map]
      congr 1
      funext b
      exact (b.joined_only (c.tag g.id rule) ⟨g.id, g.rules⟩).symm
    · simp [Bound.only, Binding.only, Membership.only, List.filter_append, hrule, Group.only]

/-- Binding another rule does nothing to what remains. -/
theorem Remains.withOther {a a' : Assembly K Note} (h : a.Remains keep a') (g : Group) {rule : String} (m : RuleModule K Note)
    (hnot : ¬keep rule) : (a.withRule c g rule m).Remains keep a' := by
  have hrule : ¬keep (c.tag g.id rule).rule := by rw [c.tag_rule]; exact hnot
  constructor
  · intro tag htag
    have hne : tag ≠ c.tag g.id rule := fun heq => hrule (heq ▸ htag)
    rw [find?_withRule, if_neg hne, Option.or_none]
    exact h.states tag htag
  · change a'.bound =
      ((if a.bound.any (·.binding.tag = c.tag g.id rule) then _ else _ : List (Bound K Note)).filter _).map _
    rw [h.bound]
    split
    · rw [filter_map_joined, List.map_map]
      refine List.map_congr_left fun b hb => ?_
      have hne : b.binding.tag ≠ c.tag g.id rule := fun heq => hrule (heq ▸ (List.mem_filter.1 hb).2)
      simp [Bound.joined, hne]
    · simp [List.filter_append, hrule]

/-- What remains of the bound instances is what is bound for the kept rules. -/
theorem ofGroups_only {a : Assembly K Note} (h : ofGroups r c groups = .ok a) (keep : String → Bool) :
    ∃ a', ofGroups r c (groups.map (Group.only keep)) = .ok a' ∧ a.Remains keep a' := by
  have hfold : ∀ (pairs : List (Group × String)) (start start' : Assembly K Note), start.Remains keep start' →
      pairs.foldlM (Assembly.bind r c) start = .ok a →
      ∃ a', ((pairs.filter (keep ·.2)).map fun pair => (pair.1.only keep, pair.2)).foldlM (Assembly.bind r c) start' =
        .ok a' ∧ a.Remains keep a' := by
    intro pairs
    induction pairs with
    | nil =>
      intro start start' hremains hstart
      cases hstart
      exact ⟨start', rfl, hremains⟩
    | cons pair rest ih =>
      intro start start' hremains hstart
      obtain ⟨g, rule⟩ := pair
      obtain ⟨next, hbind, hrest⟩ := foldlM_cons_eq_ok hstart
      obtain ⟨m, hfind, rfl⟩ := bind_eq_ok_iff.1 hbind
      by_cases hkeep : keep rule
      · rw [List.filter_cons_of_pos (by simpa using hkeep), List.map_cons, foldlM_cons_of_ok _ (bind_of_found hfind _ _)]
        exact ih _ _ (hremains.withRule g m hkeep) hrest
      · rw [List.filter_cons_of_neg (by simpa using hkeep)]
        exact ih _ _ (hremains.withOther g m hkeep) hrest
  rw [ofGroups, Group.pairs_only]
  exact hfold _ {} {} ⟨fun _ _ => rfl, rfl⟩ h

/-- What remains of the registrations is what is registered for the kept rules. -/
theorem visitors_only {bound : List (Bound K Note)} {registered : List (Registration (Listener K Note))}
    (h : (visitors bound).2 = .ok registered) :
    (visitors ((bound.filter (keep ·.binding.tag.rule)).map (Bound.only keep))).2 =
      .ok ((registered.filter (keep ·.owner)).map (Registration.only keep)) := by
  induction bound generalizing registered with
  | nil =>
    cases h
    rfl
  | cons b rest ih =>
    obtain ⟨made, more, hmade, hmore, rfl⟩ := visitors_cons_eq_ok_iff.1 h
    have howner : ∀ reg ∈ registrations b made, reg.owner = b.binding.tag.rule := by
      intro reg hreg
      obtain ⟨v, -, rfl⟩ := List.mem_map.1 hreg
      rfl
    rw [List.filter_append, List.map_append]
    by_cases hkeep : keep b.binding.tag.rule
    · have hall : (registrations b made).filter (keep ·.owner) = registrations b made :=
        List.filter_eq_self.2 fun reg hreg => by rw [howner reg hreg, hkeep]
      rw [List.filter_cons_of_pos (by simpa using hkeep), List.map_cons, hall]
      refine visitors_cons_eq_ok_iff.2 ⟨made, _, hmade, ih hmore, ?_⟩
      rw [registrations, registrations, List.map_map]
      rfl
    · have hnone : (registrations b made).filter (keep ·.owner) = [] :=
        List.filter_eq_nil_iff.2 fun reg hreg hk => hkeep (howner reg hreg ▸ hk)
      rw [List.filter_cons_of_neg (by simpa using hkeep), hnone, List.map_nil, List.nil_append]
      exact ih hmore

end Assembly

/-! ## Setup -/

/-- Groups that name no other rules have a delivery order if the groups have one. -/
theorem Engine.orderOf_of_named {groups' : List Group} {order : DeliveryOrder} (h : Engine.orderOf r groups = .ok order)
    (hnamed : ∀ g' ∈ groups', ∀ rule ∈ g'.rules, ∃ g ∈ groups, rule ∈ g.rules) :
    ∃ order', Engine.orderOf r groups' = .ok order' := by
  obtain ⟨graph, hgraph, hresolve⟩ := Engine.orderOf_eq_ok_iff.1 h
  have hcomplete := Graph.complete_of_resolve hresolve
  obtain ⟨hfaithful, -, hlisted, -⟩ := Registry.closure_spec hgraph
  have hknown : ∀ id ∈ graph.ids, (r.find? id).isSome := by
    intro id hid
    obtain ⟨m, hm, -⟩ := hfaithful.known hid
    simp [hm]
  obtain ⟨graph', hgraph'⟩ : ∃ graph', r.closure groups' = .ok graph' := by
    refine ⟨_, Registry.closure_eq_ok_iff.2 ⟨_, Registry.named_eq_ok_iff.2 ⟨fun g' hg' rule hrule => ?_, rfl⟩, rfl⟩⟩
    obtain ⟨g, hg, hin⟩ := hnamed g' hg' rule hrule
    exact hknown rule (hlisted g hg rule hin)
  obtain ⟨hfaithful', hclosed', -, hneeds'⟩ := Registry.closure_spec hgraph'
  have hsub : ∀ id ∈ graph'.ids, id ∈ graph.ids := by
    intro id hid
    obtain ⟨g', hg', rule, hrule, hpath⟩ := hneeds' id hid
    obtain ⟨g, hg, hin⟩ := hnamed g' hg' rule hrule
    exact (Registry.mem_closure_iff hgraph hcomplete).2 ⟨g, hg, rule, hin, hpath⟩
  have hdeclares : ∀ rule dependency, graph'.Declares rule dependency → graph.Declares rule dependency := by
    intro rule dependency hdecl
    obtain ⟨hrule, hdecl⟩ := hfaithful'.declares_iff.1 hdecl
    exact hfaithful.declares_iff.2 ⟨hsub rule hrule, hdecl⟩
  have hcomplete' : graph'.Complete := by
    intro rule dependency hdecl
    obtain ⟨hrule, hdecl'⟩ := hfaithful'.declares_iff.1 hdecl
    exact hclosed' rule hrule dependency hdecl' (hknown dependency (hcomplete rule dependency (hdeclares _ _ hdecl)))
  have hacyclic' : ¬graph'.Cyclic := by
    rintro ⟨id, hcycle⟩
    exact Graph.not_cyclic_of_resolve hresolve ⟨id, Relation.TransGen.mono hdeclares id id hcycle⟩
  obtain ⟨order', hresolve', -⟩ := Graph.resolve_of_not_cyclic hcomplete' hacyclic'
  exact ⟨order', Engine.orderOf_eq_ok_iff.2 ⟨graph', hgraph', hresolve'⟩⟩

/-- An engine has been made for the kept rules as another was made for all: of its registrations and states it has what is
theirs. -/
structure Engine.Remains (keep : String → Bool) (e e' : Engine K Note) : Prop where
  states : ∀ tag : StateTag, keep tag.rule → e'.states.find? tag = e.states.find? tag
  built : ∃ registered patterns patterns', SelectorIndex.Built e.order registered patterns e.index ∧
    SelectorIndex.Built e'.order ((registered.filter (keep ·.owner)).map (Registration.only keep)) patterns' e'.index

/-- Setup succeeds for the kept rules if it succeeds for all. -/
theorem Engine.setup_only {e : Engine K Note} (h : (Engine.setup r groups c).outcome = .ok e) (keep : String → Bool) :
    ∃ e', (Engine.setup r (groups.map (Group.only keep)) c).outcome = .ok e' ∧ e.Remains keep e' := by
  obtain ⟨order, a, registered, index, cache', horder, ha, hv, hbuild, rfl⟩ := setupWith_eq_ok_iff.1 h
  obtain ⟨patterns, hbuilt⟩ := SelectorIndex.built_of_build PatternCache.Made.empty.sound hbuild
  obtain ⟨order', horder'⟩ : ∃ order', orderOf r (groups.map (Group.only keep)) = .ok order' := by
    refine orderOf_of_named horder fun g' hg' rule hrule => ?_
    obtain ⟨g, hg, rfl⟩ := List.mem_map.1 hg'
    exact ⟨g, hg, (List.mem_filter.1 hrule).1⟩
  obtain ⟨index', cache'', hbuild'⟩ := SelectorIndex.build_of_parsed order' .empty
    fun reg (hreg : reg ∈ (registered.filter (keep ·.owner)).map (Registration.only keep)) => by
      obtain ⟨full, hfull, rfl⟩ := List.mem_map.1 hreg
      obtain ⟨p, -, -, hp⟩ := hbuilt.parsed_of_mem (List.mem_filter.1 hfull).1
      exact ⟨p, hp⟩
  obtain ⟨patterns', hbuilt'⟩ := SelectorIndex.built_of_build PatternCache.Made.empty.sound hbuild'
  obtain ⟨a', ha', hremains⟩ := Assembly.ofGroups_only ha keep
  have hv' : (Assembly.visitors a'.bound).2 =
      .ok ((registered.filter (keep ·.owner)).map (Registration.only keep)) := by
    rw [hremains.bound]
    exact Assembly.visitors_only hv
  exact ⟨_, setupWith_eq_ok_iff.2 ⟨order', a', _, index', cache'', horder', ha', hv', hbuild', rfl⟩, hremains.states,
    registered, patterns, patterns', hbuilt, hbuilt'⟩

/-! ## Emissions -/

/-- Of the registrations that a scan finds for a kept rule, a scan of what remains finds the same in the same order. -/
theorem SelectorIndex.IsScan.filter_only {order order' : DeliveryOrder} {registered : List (Registration (Listener K Note))}
    {d : Direction} {node : Tree} {ancestry : List Tree} {hits hits' : List (Registration (Listener K Note) × ℕ)}
    (h : IsScan order registered d node ancestry hits)
    (h' : IsScan order' ((registered.filter (keep ·.owner)).map (Registration.only keep)) d node ancestry hits')
    {rule : String} (hkeep : keep rule) :
    (hits'.map Prod.fst).filter (·.owner = rule) =
      ((hits.map Prod.fst).filter (·.owner = rule)).map (Registration.only keep) := by
  have hsorted : (((hits.map Prod.fst).filter (·.owner = rule)).map (Registration.only keep)).Pairwise
      fun a b => a.weight ≤ b.weight := List.pairwise_map.2 (h.weights_sorted rule)
  refine eq_of_sorted_of_filter_eq Registration.weight (h'.weights_sorted rule) hsorted fun p hp => ?_
  have hturn : ∀ (order : DeliveryOrder) (q : Registration (Listener K Note) → Bool),
      (∀ a b, q a → q b → a.weight = b.weight) →
        ∀ a b, (q a && a.owner = rule) → (q b && b.owner = rule) → a.turn order = b.turn order := by
    intro order q hq a b ha hb
    simp only [Bool.and_eq_true, decide_eq_true_eq] at ha hb
    rw [Registration.turn, Registration.turn, ha.2, hb.2, hq a b ha.1 hb.1]
  have hright : (((hits.map Prod.fst).filter (·.owner = rule)).map (Registration.only keep)).filter p =
      ((registered.filter (·.hears d node ancestry)).filter fun reg =>
        (p ∘ Registration.only keep) reg && reg.owner = rule).map (Registration.only keep) := by
    rw [List.filter_map, List.filter_filter, h.filter_eq _ (hturn order (p ∘ Registration.only keep) fun a b => hp _ _)]
  rw [hright, List.filter_filter, h'.filter_eq _ (hturn order' p hp), List.filter_map, List.filter_map]
  congr 1
  simp only [List.filter_filter]
  refine List.filter_congr fun reg _ => ?_
  by_cases howner : reg.owner = rule
  · have hreg : keep reg.owner := howner ▸ hkeep
    simp only [hreg, Bool.and_true]
    rfl
  · have hnot : decide ((Registration.only keep reg).owner = rule) = false := decide_eq_false howner
    simp [howner, hnot]

/-- At every visit the listeners of a kept rule are the same, and there are no others. -/
theorem Engine.Remains.emissions {e e' : Engine K Note} (h : e.Remains keep e') {d : Direction} {node : Tree}
    {ancestry : List Tree} {es : List (Emission (Listener K Note))} (hes : e.index.emissions d node ancestry = .ok es) :
    ∃ es', e'.index.emissions d node ancestry = .ok es' ∧ (∀ x ∈ es', keep x.owner) ∧
      ∀ rule, keep rule → (es'.filter (·.owner = rule)).map (·.listener) =
        ((es.filter (·.owner = rule)).map (·.listener)).map (Listener.only keep) := by
  obtain ⟨registered, patterns, patterns', hbuilt, hbuilt'⟩ := h.built
  have hdecided := hbuilt.decided_of_emissions hes
  obtain ⟨hits, hhits, hscan⟩ := hbuilt.emissions hdecided
  cases hhits.symm.trans hes
  have hdecided' : ∀ p ∈ patterns', p.on d → p.concerns node → p.Decided node ancestry := by
    intro p hp
    obtain ⟨reg', hreg', hparse⟩ := hbuilt'.registered_of_mem hp
    obtain ⟨reg, hreg, rfl⟩ := List.mem_map.1 hreg'
    obtain ⟨q, hq, -, hparse'⟩ := hbuilt.parsed_of_mem (List.mem_filter.1 hreg).1
    cases hparse.symm.trans hparse'
    exact hdecided p hq
  obtain ⟨hits', hes', hscan'⟩ := hbuilt'.emissions hdecided'
  refine ⟨_, hes', fun x hx => ?_, fun rule hkeep => ?_⟩
  · obtain ⟨⟨reg', place⟩, hhit, rfl⟩ := List.mem_map.1 hx
    have hreg' := List.fst_mem_of_mem_zipIdx (List.mem_filter.1 (hscan'.perm.mem_iff.1 hhit)).1
    obtain ⟨reg, hreg, heq⟩ := List.mem_map.1 hreg'
    have hkept : keep reg.owner := (List.mem_filter.1 hreg).2
    cases heq
    exact hkept
  · have hlisteners : ∀ (order : DeliveryOrder) (hits : List (Registration (Listener K Note) × ℕ)),
        ((hits.map (·.1.emission order)).filter (·.owner = rule)).map (·.listener) =
          ((hits.map Prod.fst).filter (·.owner = rule)).map (·.listener) := by
      intro order hits
      rw [List.filter_map, List.filter_map, List.map_map, List.map_map]
      rfl
    rw [hlisteners, hlisteners, hscan.filter_only hscan' hkeep, List.map_map, List.map_map]
    rfl

end RuleWalk
