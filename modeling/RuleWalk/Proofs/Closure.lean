import RuleWalk.Engine.Setup
import RuleWalk.Proofs.Order

/-!
# The rules that an engine needs

The groups name rules, and rules declare dependencies. The work list that collects them holds each rule once and only rules
of the registry, so it has come to its end after as many rounds as the registry has rules; then nothing that a listed rule
depends on is left out, unless the registry does not know it.
-/

namespace RuleWalk

/-- The rules of the pairs of some groups are the rules that the groups list. -/
theorem Group.exists_mem_pairs {groups : List Group} {rule : String} :
    (∃ g, (g, rule) ∈ Group.pairs groups) ↔ ∃ g ∈ groups, rule ∈ g.rules := by
  simp only [Group.pairs, List.mem_flatMap, List.mem_map, Prod.mk.injEq]
  constructor
  · rintro ⟨g, g', hg, rule', hrule, rfl, rfl⟩
    exact ⟨g', hg, hrule⟩
  · rintro ⟨g, hg, hrule⟩
    exact ⟨g, g, hg, rule, hrule, rfl, rfl⟩

namespace Registry

variable {K : Type} [Kinds K] {Note : Type} {r : Registry K Note}

/-- The rule of an id declares a dependency. -/
def Declares (r : Registry K Note) (rule dependency : String) : Prop :=
  ∃ m, r.find? rule = some m ∧ dependency ∈ m.dependencies

/-- A group names the rule, or a rule that depends on it, at once or through others. -/
def Needs (r : Registry K Note) (groups : List Group) (id : String) : Prop :=
  ∃ g ∈ groups, ∃ rule ∈ g.rules, Relation.ReflTransGen r.Declares rule id

/-- A graph that lists rules of the registry as they are declared, each once. -/
structure Faithful (r : Registry K Note) (graph : Graph) : Prop where
  nodup : graph.ids.Nodup
  entries : ∀ rule dependencies, (rule, dependencies) ∈ graph →
    ∃ m, r.find? rule = some m ∧ m.dependencies = dependencies

/-- A rule that is found is bundled or defined by the user. -/
theorem mem_of_find? {id : String} {m : RuleModule K Note} (h : r.find? id = some m) :
    id ∈ r.bundled.map (·.id) ++ r.user.keys := by
  rw [List.mem_append]
  unfold find? bundledRule? at h
  split at h
  · rename_i m' huser
    exact Or.inr (Dict.contains_iff.1 (by rw [Dict.contains, huser]; rfl))
  · obtain ⟨b, hb, -⟩ := Option.map_eq_some_iff.1 h
    have hid : b.id = id := by simpa using List.find?_some hb
    exact Or.inl (List.mem_map.2 ⟨b, List.mem_of_find?_eq_some hb, hid⟩)

theorem Faithful.known {graph : Graph} (h : r.Faithful graph) {id : String} (hid : id ∈ graph.ids) :
    ∃ m, r.find? id = some m ∧ (id, m.dependencies) ∈ graph := by
  obtain ⟨⟨rule, dependencies⟩, hmem, rfl⟩ := List.mem_map.1 hid
  obtain ⟨m, hm, rfl⟩ := h.entries rule dependencies hmem
  exact ⟨m, hm, hmem⟩

/-- The work list never outgrows the registry. -/
theorem Faithful.length_le {graph : Graph} (h : r.Faithful graph) : graph.length ≤ r.size := by
  have hsub : graph.ids ⊆ r.bundled.map (·.id) ++ r.user.keys := by
    intro id hid
    obtain ⟨m, hm, -⟩ := h.known hid
    exact mem_of_find? hm
  simpa [Graph.ids, size, Dict.keys, Dict.size] using (h.nodup.subperm hsub).length_le

/-- A faithful graph declares for its rules what the registry declares. -/
theorem Faithful.declares_iff {graph : Graph} (h : r.Faithful graph) {rule dependency : String} :
    graph.Declares rule dependency ↔ rule ∈ graph.ids ∧ r.Declares rule dependency := by
  constructor
  · rintro ⟨dependencies, hmem, hd⟩
    obtain ⟨m, hm, rfl⟩ := h.entries rule dependencies hmem
    exact ⟨List.mem_map.2 ⟨_, hmem, rfl⟩, m, hm, hd⟩
  · rintro ⟨hrule, m, hm, hd⟩
    obtain ⟨m', hm', hmem⟩ := h.known hrule
    cases hm.symm.trans hm'
    exact ⟨m.dependencies, hmem, hd⟩

/-! ## One discovery -/

/-- A discovery adds a rule of the registry that is new, with its dependencies, and nothing else. -/
theorem discover_cases (r : Registry K Note) (graph : Graph) (rule : String) :
    (r.discover graph rule = graph ∧ (rule ∈ graph.ids ∨ r.find? rule = none)) ∨
      ∃ m, r.find? rule = some m ∧ rule ∉ graph.ids ∧ r.discover graph rule = graph ++ [(rule, m.dependencies)] := by
  unfold discover
  cases hm : r.find? rule with
  | none => exact Or.inl ⟨rfl, Or.inr rfl⟩
  | some m =>
    by_cases hin : rule ∈ graph.ids
    · exact Or.inl ⟨by simp [hin], Or.inl hin⟩
    · exact Or.inr ⟨m, rfl, hin, by simp [hin]⟩

theorem prefix_discover (r : Registry K Note) (graph : Graph) (rule : String) : graph <+: r.discover graph rule := by
  rcases r.discover_cases graph rule with ⟨heq, -⟩ | ⟨m, -, -, heq⟩
  · exact ⟨[], by rw [List.append_nil, heq]⟩
  · exact ⟨_, heq.symm⟩

theorem mem_ids_discover {graph : Graph} {rule id : String} :
    id ∈ (r.discover graph rule).ids ↔ id ∈ graph.ids ∨ id = rule ∧ (r.find? rule).isSome := by
  rcases r.discover_cases graph rule with ⟨heq, hor⟩ | ⟨m, hm, -, heq⟩
  · rw [heq]
    constructor
    · exact Or.inl
    · rintro (hid | ⟨rfl, hsome⟩)
      · exact hid
      · rcases hor with hin | hnone
        · exact hin
        · rw [hnone] at hsome
          cases hsome
  · rw [heq, hm]
    simp [Graph.ids]

theorem Faithful.discover {graph : Graph} (h : r.Faithful graph) (rule : String) :
    r.Faithful (r.discover graph rule) := by
  rcases r.discover_cases graph rule with ⟨heq, -⟩ | ⟨m, hm, hnew, heq⟩
  · rw [heq]
    exact h
  · rw [heq]
    refine ⟨?_, ?_⟩
    · rw [Graph.ids, List.map_append, List.nodup_append]
      refine ⟨h.nodup, List.pairwise_singleton _ _, ?_⟩
      rintro id hid _ hrule rfl
      obtain rfl : id = rule := by simpa using hrule
      exact hnew hid
    · intro rule' deps hmem
      rcases List.mem_append.1 hmem with hmem | hmem
      · exact h.entries rule' deps hmem
      · obtain ⟨rfl, rfl⟩ := Prod.mk.inj (List.mem_singleton.1 hmem)
        exact ⟨m, hm, rfl⟩

/-! ## One round: all dependencies of a rule -/

theorem prefix_foldl_discover (r : Registry K Note) (rules : List String) (graph : Graph) :
    graph <+: rules.foldl r.discover graph := by
  induction rules generalizing graph with
  | nil => exact List.prefix_refl _
  | cons rule rest ih => exact (r.prefix_discover graph rule).trans (ih _)

theorem mem_ids_foldl_discover {rules : List String} {graph : Graph} {id : String} :
    id ∈ (rules.foldl r.discover graph).ids ↔ id ∈ graph.ids ∨ id ∈ rules ∧ (r.find? id).isSome := by
  induction rules generalizing graph with
  | nil => simp
  | cons rule rest ih =>
    rw [List.foldl_cons, ih, mem_ids_discover, List.mem_cons]
    constructor
    · rintro ((hid | ⟨rfl, hsome⟩) | ⟨hid, hsome⟩)
      · exact Or.inl hid
      · exact Or.inr ⟨Or.inl rfl, hsome⟩
      · exact Or.inr ⟨Or.inr hid, hsome⟩
    · rintro (hid | ⟨rfl | hid, hsome⟩)
      · exact Or.inl (Or.inl hid)
      · exact Or.inl (Or.inr ⟨rfl, hsome⟩)
      · exact Or.inr ⟨hid, hsome⟩

theorem Faithful.foldl_discover {graph : Graph} (h : r.Faithful graph) (rules : List String) :
    r.Faithful (rules.foldl r.discover graph) := by
  induction rules generalizing graph with
  | nil => exact h
  | cons rule rest ih => exact ih (h.discover rule)

/-! ## All rounds -/

/-- The rules in front of a place have all their dependencies listed, so far as the registry knows them. -/
def ClosedUpTo (r : Registry K Note) (next : Nat) (graph : Graph) : Prop :=
  ∀ i < next, ∀ rule dependencies, graph[i]? = some (rule, dependencies) →
    ∀ d ∈ dependencies, (r.find? d).isSome → d ∈ graph.ids

/-- A round closes one more place. -/
theorem ClosedUpTo.round {next : Nat} {graph : Graph} {rule : String} {dependencies : List String}
    (h : r.ClosedUpTo next graph) (hnext : graph[next]? = some (rule, dependencies)) :
    r.ClosedUpTo (next + 1) (dependencies.foldl r.discover graph) := by
  intro i hi rule' deps hentry d hd hknown
  obtain ⟨more, hmore⟩ := r.prefix_foldl_discover dependencies graph
  have hlen : next < graph.length := (List.getElem?_eq_some_iff.1 hnext).1
  have hold : graph[i]? = some (rule', deps) := by
    rw [← hmore, List.getElem?_append_left (by omega)] at hentry
    exact hentry
  rw [mem_ids_foldl_discover]
  rcases Nat.lt_succ_iff_lt_or_eq.1 hi with hi | rfl
  · exact Or.inl (h i hi rule' deps hold d hd hknown)
  · cases hold.symm.trans hnext
    exact Or.inr ⟨hd, hknown⟩

/-- A graph that lists what its rules depend on, so far as the registry knows it. -/
def Closed (r : Registry K Note) (graph : Graph) : Prop :=
  ∀ id ∈ graph.ids, ∀ d, r.Declares id d → (r.find? d).isSome → d ∈ graph.ids

theorem ClosedUpTo.closed {next : Nat} {graph : Graph} (h : r.ClosedUpTo next graph) (hf : r.Faithful graph)
    (hnext : graph.length ≤ next) : r.Closed graph := by
  rintro id hid d ⟨m, hm, hd⟩ hknown
  obtain ⟨m', hm', hmem⟩ := hf.known hid
  cases hm.symm.trans hm'
  obtain ⟨i, hi⟩ := List.mem_iff_getElem?.1 hmem
  have hlt : i < graph.length := (List.getElem?_eq_some_iff.1 hi).1
  exact h i (by omega) id m.dependencies hi d hd hknown

/-- What the rounds give, if there are enough of them to pass all places: a closed graph that holds the rules it started
with and only what these depend on. -/
theorem expand_spec (r : Registry K Note) (limit : Nat) : ∀ (next : Nat) (graph : Graph), r.Faithful graph →
    r.ClosedUpTo next graph → r.size ≤ limit + next →
    r.Faithful (r.expand limit (next, graph)).2 ∧ r.Closed (r.expand limit (next, graph)).2 ∧
      graph.ids ⊆ (r.expand limit (next, graph)).2.ids ∧
      ∀ id ∈ (r.expand limit (next, graph)).2.ids, ∃ start ∈ graph.ids, Relation.ReflTransGen r.Declares start id := by
  induction limit with
  | zero =>
    intro next graph hf hc hlimit
    have hlen := hf.length_le
    exact ⟨hf, hc.closed hf (by omega), List.Subset.refl _, fun id hid => ⟨id, hid, .refl⟩⟩
  | succ limit ih =>
    intro next graph hf hc hlimit
    rw [expand]
    split
    · rename_i hend
      exact ⟨hf, hc.closed hf (List.getElem?_eq_none_iff.1 hend), List.Subset.refl _, fun id hid => ⟨id, hid, .refl⟩⟩
    · rename_i rule dependencies hnext
      obtain ⟨hf', hc', hsub, hreach⟩ := ih (next + 1) _ (hf.foldl_discover dependencies) (hc.round hnext) (by omega)
      refine ⟨hf', hc', fun id hid => hsub (mem_ids_foldl_discover.2 (Or.inl hid)), ?_⟩
      intro id hid
      obtain ⟨start, hstart, hpath⟩ := hreach id hid
      rcases mem_ids_foldl_discover.1 hstart with hstart | ⟨hstart, -⟩
      · exact ⟨start, hstart, hpath⟩
      · have hmem := List.mem_of_getElem? hnext
        obtain ⟨m, hm, rfl⟩ := hf.entries rule dependencies hmem
        exact ⟨rule, List.mem_map.2 ⟨_, hmem, rfl⟩, hpath.head ⟨m, hm, hstart⟩⟩

/-- After as many rounds as the registry has rules the work list is at its end: its place has passed all it lists. -/
theorem expand_ends (r : Registry K Note) (limit : Nat) : ∀ (next : Nat) (graph : Graph), r.Faithful graph →
    next ≤ graph.length → r.size ≤ limit + next →
    (r.expand limit (next, graph)).1 = (r.expand limit (next, graph)).2.length := by
  induction limit with
  | zero =>
    intro next graph hf hnext hlimit
    have hlen : graph.length ≤ next := by have := hf.length_le; omega
    exact Nat.le_antisymm hnext hlen
  | succ limit ih =>
    intro next graph hf hnext hlimit
    rw [expand]
    split
    · rename_i hend
      have hlen := List.getElem?_eq_none_iff.1 hend
      exact Nat.le_antisymm hnext hlen
    · rename_i rule dependencies hentry
      have hlt : next < graph.length := (List.getElem?_eq_some_iff.1 hentry).1
      have hgrows := (r.prefix_foldl_discover dependencies graph).length_le
      exact ih (next + 1) _ (hf.foldl_discover dependencies) (by omega) (by omega)

/-- Every round moves the place on by one, so there are as many rounds as the place has moved. -/
theorem expand_rounds (r : Registry K Note) (limit : Nat) : ∀ (next : Nat) (graph : Graph),
    next ≤ (r.expand limit (next, graph)).1 ∧
      r.expand ((r.expand limit (next, graph)).1 - next) (next, graph) = r.expand limit (next, graph) := by
  induction limit with
  | zero =>
    intro next graph
    exact ⟨Nat.le_refl _, by rw [expand, Nat.sub_self]; rfl⟩
  | succ limit ih =>
    intro next graph
    rw [expand]
    split
    · exact ⟨Nat.le_refl _, by rw [Nat.sub_self]; rfl⟩
    · rename_i rule dependencies hentry
      obtain ⟨hle, hrounds⟩ := ih (next + 1) (dependencies.foldl r.discover graph)
      obtain ⟨moved, hmoved⟩ := Nat.exists_eq_add_of_le hle
      rw [hmoved, Nat.add_sub_cancel_left] at hrounds
      refine ⟨Nat.le_of_succ_le hle, ?_⟩
      rw [hmoved, Nat.add_assoc, Nat.add_sub_cancel_left, Nat.add_comm, expand, hentry]
      exact hrounds

/-- At the end of the work list more rounds change nothing. -/
theorem expand_add (r : Registry K Note) (limit more : Nat) (work : Nat × Graph)
    (h : (r.expand limit work).1 = (r.expand limit work).2.length) : r.expand (limit + more) work = r.expand limit work := by
  induction limit generalizing work with
  | zero =>
    obtain ⟨next, graph⟩ := work
    have hend : graph[next]? = none := List.getElem?_eq_none_iff.2 (Nat.le_of_eq h.symm)
    cases more with
    | zero => rfl
    | succ more => simp [expand, hend]
  | succ limit ih =>
    obtain ⟨next, graph⟩ := work
    rw [Nat.succ_add, expand, expand]
    rw [expand] at h
    split
    · rfl
    · rename_i dependencies hentry
      rw [hentry] at h
      exact ih _ h

/-! ## The named rules and the closure -/

/-- Collecting the named rules succeeds exactly if all are known, and discovers one after the other. -/
theorem named_eq_ok_iff {groups : List Group} {graph : Graph} : r.named groups = .ok graph ↔
    (∀ g ∈ groups, ∀ rule ∈ g.rules, (r.find? rule).isSome) ∧
      graph = ((Group.pairs groups).map Prod.snd).foldl r.discover [] := by
  have hfold : ∀ (pairs : List (Group × String)) (start : Graph),
      pairs.foldlM (fun graph p => if (r.find? p.2).isSome then Except.ok (r.discover graph p.2)
        else Except.error (ConfigError.unknownRule p.2 p.1.id)) start = Except.ok graph ↔
      (∀ p ∈ pairs, (r.find? p.2).isSome) ∧ graph = (pairs.map Prod.snd).foldl r.discover start := by
    intro pairs
    induction pairs with
    | nil =>
      intro start
      simp only [List.foldlM_nil, List.map_nil, List.foldl_nil, List.not_mem_nil, false_implies, implies_true, true_and]
      exact ⟨fun h => (Except.ok.inj h).symm, fun h => congrArg Except.ok h.symm⟩
    | cons p rest ih =>
      intro start
      obtain ⟨g, rule⟩ := p
      by_cases hknown : (r.find? rule).isSome
      · rw [foldlM_cons_of_ok rest (if_pos hknown), ih]
        simp [hknown]
      · rw [foldlM_cons_of_error rest (if_neg hknown)]
        simp [hknown]
  refine (hfold (Group.pairs groups) []).trans ?_
  constructor
  · rintro ⟨hall, heq⟩
    refine ⟨fun g hg rule hrule => ?_, heq⟩
    obtain ⟨g', hp⟩ := Group.exists_mem_pairs.2 ⟨g, hg, hrule⟩
    exact hall (g', rule) hp
  · rintro ⟨hall, heq⟩
    refine ⟨fun p hp => ?_, heq⟩
    obtain ⟨g, hg, hrule⟩ := Group.exists_mem_pairs.1 ⟨p.1, hp⟩
    exact hall g hg p.2 hrule

/-- The rules named by groups are listed once each. -/
theorem named_spec {groups : List Group} {graph : Graph} (h : r.named groups = .ok graph) :
    r.Faithful graph ∧ ∀ id, id ∈ graph.ids ↔ ∃ g ∈ groups, id ∈ g.rules := by
  obtain ⟨hknown, rfl⟩ := named_eq_ok_iff.1 h
  have hempty : r.Faithful [] := ⟨List.nodup_nil, nofun⟩
  refine ⟨hempty.foldl_discover _, fun id => ?_⟩
  rw [mem_ids_foldl_discover]
  constructor
  · rintro (hid | ⟨hid, -⟩)
    · exact absurd hid List.not_mem_nil
    · obtain ⟨p, hp, rfl⟩ := List.mem_map.1 hid
      exact Group.exists_mem_pairs.1 ⟨p.1, hp⟩
  · rintro ⟨g, hg, hid⟩
    obtain ⟨g', hp⟩ := Group.exists_mem_pairs.2 ⟨g, hg, hid⟩
    exact Or.inr ⟨List.mem_map.2 ⟨_, hp, rfl⟩, hknown g hg id hid⟩

theorem closure_eq_ok_iff {groups : List Group} {graph : Graph} :
    r.closure groups = .ok graph ↔ ∃ start, r.named groups = .ok start ∧ graph = (r.expand r.size (0, start)).2 := by
  unfold closure
  cases r.named groups with
  | error e =>
    constructor
    · exact nofun
    · rintro ⟨start, h, -⟩
      cases h
  | ok start =>
    constructor
    · intro h
      cases h
      exact ⟨start, rfl, rfl⟩
    · rintro ⟨start', h, rfl⟩
      cases h
      rfl

/-- The closure lists rules of the registry that are needed, the named ones among them, and what they depend on. -/
theorem closure_spec {groups : List Group} {graph : Graph} (h : r.closure groups = .ok graph) :
    r.Faithful graph ∧ r.Closed graph ∧ (∀ g ∈ groups, ∀ rule ∈ g.rules, rule ∈ graph.ids) ∧
      ∀ id ∈ graph.ids, r.Needs groups id := by
  obtain ⟨start, hnamed, rfl⟩ := closure_eq_ok_iff.1 h
  obtain ⟨hf, hids⟩ := named_spec hnamed
  obtain ⟨hf', hc', hsub, hreach⟩ := r.expand_spec r.size 0 start hf (fun i hi => absurd hi (Nat.not_lt_zero i))
    (Nat.le_refl _)
  refine ⟨hf', hc', fun g hg rule hrule => hsub ((hids rule).2 ⟨g, hg, hrule⟩), ?_⟩
  intro id hid
  obtain ⟨first, hfirst, hpath⟩ := hreach id hid
  obtain ⟨g, hg, hrule⟩ := (hids first).1 hfirst
  exact ⟨g, hg, first, hrule, hpath⟩

/-- The closure is what the work list comes to at its end, however many rounds it is allowed: one for each of its rules is
enough. -/
theorem closure_rounds {groups : List Group} {graph : Graph} (h : r.closure groups = .ok graph) :
    ∃ start, r.named groups = .ok start ∧
      ∀ limit, graph.length ≤ limit → r.expand limit (0, start) = (graph.length, graph) := by
  obtain ⟨start, hnamed, rfl⟩ := closure_eq_ok_iff.1 h
  have hend := r.expand_ends r.size 0 start (named_spec hnamed).1 (Nat.zero_le _) (Nat.le_refl _)
  have hrounds := (r.expand_rounds r.size 0 start).2
  rw [hend, Nat.sub_zero] at hrounds
  refine ⟨start, hnamed, ?_⟩
  intro limit hlimit
  obtain ⟨more, rfl⟩ := Nat.exists_eq_add_of_le hlimit
  rw [r.expand_add _ more (0, start) (by rw [hrounds, hend]), hrounds]
  exact Prod.ext hend rfl

/-- A complete closure lists exactly what is needed. -/
theorem mem_closure_iff {groups : List Group} {graph : Graph} (h : r.closure groups = .ok graph)
    (hcomplete : graph.Complete) {id : String} : id ∈ graph.ids ↔ r.Needs groups id := by
  obtain ⟨hf, -, hnamed, hneeds⟩ := closure_spec h
  refine ⟨hneeds id, ?_⟩
  rintro ⟨g, hg, rule, hrule, hpath⟩
  induction hpath with
  | refl => exact hnamed g hg rule hrule
  | tail _ hdecl ih => exact hcomplete _ _ (hf.declares_iff.2 ⟨ih, hdecl⟩)

/-- Along dependencies of the registry a complete graph is never left. -/
theorem Faithful.transGen {graph : Graph} (hf : r.Faithful graph) (hcomplete : graph.Complete) {rule id : String}
    (hrule : rule ∈ graph.ids) (h : Relation.TransGen r.Declares rule id) :
    id ∈ graph.ids ∧ Relation.TransGen graph.Declares rule id := by
  induction h with
  | single hdecl =>
    have hdecl' := hf.declares_iff.2 ⟨hrule, hdecl⟩
    exact ⟨hcomplete _ _ hdecl', .single hdecl'⟩
  | tail _ hdecl ih =>
    have hdecl' := hf.declares_iff.2 ⟨ih.1, hdecl⟩
    exact ⟨hcomplete _ _ hdecl', .tail ih.2 hdecl'⟩

end Registry

/-- The delivery order of an engine is that of the closure. -/
theorem Engine.orderOf_eq_ok_iff {K : Type} [Kinds K] {Note : Type} {r : Registry K Note} {groups : List Group}
    {order : DeliveryOrder} :
    Engine.orderOf r groups = .ok order ↔ ∃ graph, r.closure groups = .ok graph ∧ graph.resolve = .ok order := by
  unfold orderOf
  cases r.closure groups with
  | error e =>
    constructor
    · exact nofun
    · rintro ⟨graph, h, -⟩
      cases h
  | ok graph =>
    dsimp only
    constructor
    · intro h
      cases hresolve : graph.resolve with
      | error e =>
        rw [hresolve] at h
        cases h
      | ok order' =>
        rw [hresolve] at h
        cases h
        exact ⟨graph, rfl, hresolve⟩
    · rintro ⟨graph', h, hresolve⟩
      cases h
      rw [hresolve]

end RuleWalk
