import RuleWalk.Proofs.Closure

/-!
# The closure is listed breadth first

The work list of the closure is walked by a place in it while it grows. Seen as a whole it is the list of the named rules and
of what the listed rules depend on, each where it first comes up. Such a list is found round by round from nothing: what a
round gives is the beginning of the list, and a round that finds nothing new has found all of it. As many rounds as the
registry has rules are enough.
-/

namespace RuleWalk

theorem eraseDups_prefix {κ : Type} [DecidableEq κ] {l l' : List κ} (h : l <+: l') : l.eraseDups <+: l'.eraseDups := by
  obtain ⟨more, rfl⟩ := h
  rw [List.eraseDups_append]
  exact List.prefix_append _ _

namespace Registry

variable {K : Type} [Kinds K] {Note : Type} {r : Registry K Note} {groups : List Group}

/-- What the rule of an id depends on. -/
def dependenciesOf (r : Registry K Note) (id : String) : List String :=
  ((r.find? id).map (·.dependencies)).getD []

/-- What the rule of an id depends on, so far as the registry knows it. -/
def knownDependencies (r : Registry K Note) (id : String) : List String :=
  (r.dependenciesOf id).filter fun d => (r.find? d).isSome

/-- A round of a breadth-first listing: the rules that the groups name, and then what the rules of the round before depend
on, each where it first comes up. -/
def round (r : Registry K Note) (groups : List Group) (ids : List String) : List String :=
  ((Group.pairs groups).map Prod.snd ++ ids.flatMap r.knownDependencies).eraseDups

/-- The rules that the groups name and all they depend on, breadth first. -/
def breadthFirst (r : Registry K Note) (groups : List Group) : List String :=
  (r.round groups)^[r.size] []

theorem mem_dependenciesOf {rule d : String} : d ∈ r.dependenciesOf rule ↔ r.Declares rule d := by
  unfold dependenciesOf Declares
  cases r.find? rule <;> simp

theorem mem_round {ids : List String} {id : String} : id ∈ r.round groups ids ↔
    (∃ g ∈ groups, id ∈ g.rules) ∨ ∃ rule ∈ ids, r.Declares rule id ∧ (r.find? id).isSome := by
  rw [round, List.mem_eraseDups, List.mem_append, List.mem_flatMap, ← Group.exists_mem_pairs]
  simp [knownDependencies, mem_dependenciesOf]

theorem Faithful.dependenciesOf_eq {graph : Graph} (h : r.Faithful graph) {rule : String} {dependencies : List String}
    (hmem : (rule, dependencies) ∈ graph) : r.dependenciesOf rule = dependencies := by
  obtain ⟨m, hm, rfl⟩ := h.entries rule dependencies hmem
  rw [dependenciesOf, hm]
  rfl

/-! ## The work list as a whole -/

theorem ids_discover {graph : Graph} {found : List String} (h : graph.ids = found.eraseDups) (rule : String) :
    (r.discover graph rule).ids = (found ++ [rule].filter fun id => (r.find? id).isSome).eraseDups := by
  have hmem : rule ∈ graph.ids ↔ rule ∈ found := by rw [h, List.mem_eraseDups]
  rcases r.discover_cases graph rule with ⟨heq, hold⟩ | ⟨m, hm, hnew, heq⟩
  · rw [heq, h]
    cases hknown : r.find? rule with
    | none => simp [hknown]
    | some m =>
      have hin : rule ∈ found := hmem.1 (hold.resolve_right (by simp [hknown]))
      simp [hknown, eraseDups_concat, hin]
  · have hout : rule ∉ found := mt hmem.2 hnew
    rw [heq, Graph.ids, List.map_append, ← Graph.ids, h]
    simp [hm, eraseDups_concat, hout]

/-- Discoveries add the known rules where they first come up. -/
theorem ids_foldl_discover {graph : Graph} {found : List String} (h : graph.ids = found.eraseDups) (rules : List String) :
    (rules.foldl r.discover graph).ids = (found ++ rules.filter fun id => (r.find? id).isSome).eraseDups := by
  induction rules generalizing graph found with
  | nil => simpa using h
  | cons rule rest ih =>
    rw [List.foldl_cons, ih (ids_discover h rule), List.append_assoc, ← List.filter_append, List.singleton_append]

/-- When its walk has come to an end, the work list is what a round makes of it. -/
theorem round_expand (limit : Nat) : ∀ (next : Nat) (graph : Graph), r.Faithful graph →
    graph.ids = r.round groups (graph.ids.take next) → r.size ≤ limit + next →
    (r.expand limit (next, graph)).2.ids = r.round groups (r.expand limit (next, graph)).2.ids := by
  have hend : ∀ (next : Nat) (graph : Graph), graph.ids = r.round groups (graph.ids.take next) → graph.length ≤ next →
      graph.ids = r.round groups graph.ids := by
    intro next graph hround hlen
    rwa [List.take_of_length_le (by rwa [Graph.ids, List.length_map])] at hround
  induction limit with
  | zero =>
    intro next graph hf hround hlimit
    have hlen := hf.length_le
    exact hend next graph hround (by omega)
  | succ limit ih =>
    intro next graph hf hround hlimit
    rw [expand]
    split
    · rename_i hnone
      exact hend next graph hround (List.getElem?_eq_none_iff.1 hnone)
    · rename_i rule dependencies hnext
      refine ih (next + 1) _ (hf.foldl_discover dependencies) ?_ (by omega)
      -- the walk goes on past one rule, and its dependencies have just been put to the end
      have htake : (dependencies.foldl r.discover graph).ids.take (next + 1) = graph.ids.take next ++ [rule] := by
        obtain ⟨more, hmore⟩ := r.prefix_foldl_discover dependencies graph
        have hlen : next + 1 ≤ graph.ids.length := by
          rw [Graph.ids, List.length_map]
          exact (List.getElem?_eq_some_iff.1 hnext).1
        rw [← hmore, Graph.ids, List.map_append, ← Graph.ids, List.take_append_of_le_length hlen, List.take_add_one,
          Graph.ids, List.getElem?_map, hnext]
        rfl
      rw [htake, ids_foldl_discover hround, round, List.flatMap_append, List.flatMap_singleton, knownDependencies,
        hf.dependenciesOf_eq (List.mem_of_getElem? hnext), List.append_assoc]

/-! ## Round by round -/

theorem prefix_round {ids ids' : List String} (h : ids <+: ids') : r.round groups ids <+: r.round groups ids' := by
  obtain ⟨more, rfl⟩ := h
  refine eraseDups_prefix ?_
  rw [List.flatMap_append, ← List.append_assoc]
  exact List.prefix_append _ _

/-- A list that a round leaves as it is has every rule that is needed. -/
theorem mem_of_needs {ids : List String} (hfix : r.round groups ids = ids) {id : String} (hneeds : r.Needs groups id)
    (hknown : (r.find? id).isSome) : id ∈ ids := by
  obtain ⟨g, hg, rule, hrule, hpath⟩ := hneeds
  induction hpath with
  | refl =>
    rw [← hfix, mem_round]
    exact Or.inl ⟨g, hg, hrule⟩
  | @tail mid id _ hdecl ih =>
    have hmid : (r.find? mid).isSome := by
      obtain ⟨m, hm, -⟩ := hdecl
      rw [hm]
      rfl
    rw [← hfix, mem_round]
    exact Or.inr ⟨mid, ih hmid, hdecl, hknown⟩

/-- A list of known and needed rules that a round leaves as it is comes about in as many rounds as it is long. -/
theorem iterate_round {ids : List String} (hfix : r.round groups ids = ids)
    (hneeds : ∀ id ∈ ids, r.Needs groups id ∧ (r.find? id).isSome) {n : Nat} (hn : ids.length ≤ n) :
    (r.round groups)^[n] [] = ids := by
  have hnodup : ids.Nodup := by
    rw [← hfix]
    exact nodup_eraseDups _
  have hbegins : ∀ k, (r.round groups)^[k] [] <+: ids := by
    intro k
    induction k with
    | zero => exact List.nil_prefix
    | succ k ih =>
      rw [Function.iterate_succ_apply', ← hfix]
      exact prefix_round ih
  have hgrows : ∀ k, (r.round groups)^[k] [] <+: (r.round groups)^[k + 1] [] := by
    intro k
    induction k with
    | zero => exact List.nil_prefix
    | succ k ih =>
      rw [Function.iterate_succ_apply', Function.iterate_succ_apply' _ (k + 1)]
      exact prefix_round ih
  -- a round either adds a rule, or there is none left to add
  have hlength : ∀ k, k ≤ ((r.round groups)^[k] []).length ∨ (r.round groups)^[k] [] = ids := by
    intro k
    induction k with
    | zero => exact Or.inl (Nat.zero_le _)
    | succ k ih =>
      rcases ih with ih | ih
      · rcases (hgrows k).length_le.eq_or_lt with hlen | hlen
        · have hstop := (hgrows k).eq_of_length hlen
          have hall : (r.round groups)^[k] [] = ids := by
            refine (hbegins k).eq_of_length_le (hnodup.subperm fun id hid => ?_).length_le
            rw [Function.iterate_succ_apply'] at hstop
            exact mem_of_needs hstop.symm (hneeds id hid).1 (hneeds id hid).2
          exact Or.inr (hstop.symm.trans hall)
        · exact Or.inl (by omega)
      · rw [Function.iterate_succ_apply', ih]
        exact Or.inr hfix
  rcases hlength n with hlen | hall
  · exact (hbegins n).eq_of_length_le (by omega)
  · exact hall

/-- The closure lists its rules breadth first, and there is nothing left to discover. -/
theorem ids_closure {graph : Graph} (h : r.closure groups = .ok graph) :
    graph.ids = r.breadthFirst groups ∧ r.round groups graph.ids = graph.ids := by
  obtain ⟨hf, -, -, hneeds⟩ := closure_spec h
  obtain ⟨start, hnamed, rfl⟩ := closure_eq_ok_iff.1 h
  obtain ⟨hknown, rfl⟩ := named_eq_ok_iff.1 hnamed
  have hstart := (named_spec hnamed).1
  have hfirst : (((Group.pairs groups).map Prod.snd).foldl r.discover []).ids = r.round groups [] := by
    have hempty : Graph.ids [] = [].eraseDups := rfl
    rw [ids_foldl_discover hempty, List.nil_append, List.filter_eq_self.2, round, List.flatMap_nil, List.append_nil]
    intro rule hrule
    obtain ⟨p, hp, rfl⟩ := List.mem_map.1 hrule
    obtain ⟨g, hg, hrule⟩ := Group.exists_mem_pairs.1 ⟨p.1, hp⟩
    exact hknown g hg p.2 hrule
  have hfix := round_expand r.size 0 _ hstart hfirst (Nat.le_refl _)
  refine ⟨(iterate_round hfix.symm (fun id hid => ⟨hneeds id hid, ?_⟩) ?_).symm, hfix.symm⟩
  · obtain ⟨m, hm, -⟩ := hf.known hid
    rw [hm]
    rfl
  · simpa [Graph.ids] using hf.length_le

end Registry

end RuleWalk
