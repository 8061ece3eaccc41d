import RuleWalk.Proofs.Numbering
import RuleWalk.Proofs.Requests

/-!
# No internal failure

The tables of an engine are made by separate loops and then rely on each other unchecked: the index names listeners,
listeners name bindings, bindings name instances, and the order ranks the owners of listeners. They fit together from the
start, and since a run neither adds an instance nor takes one away, they do so at every point of every run.
-/

namespace RuleWalk

variable {K : Type} [Kinds K] {Note : Type} {r : Registry K Note} {groups : List Group} {c : Config}

/-! ## Emissions of an engine -/

namespace SelectorIndex

variable {L : Type}

theorem mem_listenersOf_of_collect {index : SelectorIndex L} {node : Tree} {ancestry : List Tree} {patterns : List Pattern}
    {found : List (Emission L)} (h : index.collect node ancestry patterns = .ok found) {x : Emission L} (hx : x ∈ found) :
    ∃ raw, x ∈ index.listenersOf raw := by
  rw [collect_of_decided (decided_of_collect h)] at h
  cases h
  obtain ⟨p, -, hx⟩ := List.mem_flatMap.1 hx
  exact ⟨p.raw, hx⟩

theorem listenersOf_of_register {order : DeliveryOrder} {state next : SelectorIndex L × PatternCache} {reg : Registration L}
    (h : register order state reg = .ok next) (raw : String) :
    next.1.listenersOf raw = (state.1.listen reg.selector (reg.emission order)).listenersOf raw := by
  unfold register at h
  dsimp only at h
  split at h
  · generalize state.2.parse reg.selector = result at h
    obtain ⟨_ | cached, cache⟩ := result
    · cases h
    · cases h
      exact listenersOf_file _ _ raw
  · cases h
    rfl

/-- What an index emits has been registered and has the rank of its owner. -/
theorem exists_registered_of_emissions {order : DeliveryOrder} {cache cache' : PatternCache} {regs : List (Registration L)}
    {index : SelectorIndex L} (hbuild : build order cache regs = .ok (index, cache')) {d : Direction} {node : Tree}
    {ancestry : List Tree} {es : List (Emission L)} (hes : index.emissions d node ancestry = .ok es) {x : Emission L}
    (hx : x ∈ es) : ∃ reg ∈ regs, x = reg.emission order := by
  unfold build at hbuild
  cases hfold : regs.foldlM (register order) ({}, cache) with
  | error e =>
    rw [hfold] at hbuild
    cases hbuild
  | ok filed =>
    rw [hfold] at hbuild
    cases hbuild
    -- this needs nothing of the patterns, so the cache may hold anything
    have hfiled : ∀ raw, ∀ x ∈ filed.1.listenersOf raw, ∃ reg ∈ [] ++ regs, x = reg.emission order := by
      refine foldlM_carries (fun done (state : SelectorIndex L × PatternCache) => ∀ raw, ∀ x ∈ state.1.listenersOf raw,
        ∃ reg ∈ done, x = reg.emission order) ?_ (fun _ _ hx => absurd hx List.not_mem_nil) hfold
      rintro done reg state next hdone hstep raw x hx
      rw [listenersOf_of_register hstep, listenersOf_listen] at hx
      by_cases hraw : raw = reg.selector
      · rw [if_pos hraw, List.mem_append, List.mem_singleton] at hx
        rcases hx with hx | rfl
        · obtain ⟨reg', hreg', heq⟩ := hdone _ x hx
          exact ⟨reg', List.mem_append_left _ hreg', heq⟩
        · exact ⟨reg, List.mem_append_right _ List.mem_cons_self, rfl⟩
      · rw [if_neg hraw] at hx
        obtain ⟨reg', hreg', heq⟩ := hdone _ x hx
        exact ⟨reg', List.mem_append_left _ hreg', heq⟩
    unfold emissions at hes
    cases hcollect : collect { filed.1 with enter := filed.1.enter.sort, leave := filed.1.leave.sort } node ancestry
      ((buckets { filed.1 with enter := filed.1.enter.sort, leave := filed.1.leave.sort } d).candidates node) with
    | error e =>
      rw [hcollect] at hes
      cases hes
    | ok found =>
      rw [hcollect] at hes
      cases hes
      obtain ⟨raw, hx⟩ := mem_listenersOf_of_collect hcollect ((List.mergeSort_perm found Emission.le).mem_iff.1 hx)
      exact hfiled raw x hx

end SelectorIndex

namespace Engine

variable {cache : PatternCache} {e : Engine K Note}

/-- An emission is for a binding of the engine, and its owner has a place in the order. -/
theorem binding_of_emissions (h : (setupWith cache r groups c).outcome = .ok e) {d : Direction} {node : Tree}
    {ancestry : List Tree} {es : List (Emission (Listener K Note))} (hes : e.index.emissions d node ancestry = .ok es)
    {x : Emission (Listener K Note)} (hx : x ∈ es) :
    x.listener.binding ∈ e.bindings ∧ ∃ rank, x.rank = some rank ∧ e.order.ids[rank]? = some x.owner := by
  obtain ⟨order, a, registered, index, cache', horder, ha, hv, hbuild, rfl⟩ := setupWith_eq_ok_iff.1 h
  obtain ⟨reg, hreg, rfl⟩ := SelectorIndex.exists_registered_of_emissions hbuild hes hx
  obtain ⟨b, hb, howner, hbinding, -⟩ := Assembly.mem_visitors hv hreg
  obtain ⟨g, hg, hrule⟩ := (Assembly.ofGroups_declared ha b hb).named
  have hneeds : r.Needs groups reg.owner := ⟨g, hg, reg.owner, howner ▸ hrule, .refl⟩
  obtain ⟨hnodup, hmem⟩ := mem_order_iff horder
  have hplace := List.getElem?_idxOf ((hmem _).2 hneeds)
  refine ⟨List.mem_map.2 ⟨b, hb, hbinding.symm⟩, order.ids.idxOf reg.owner, ?_, hplace⟩
  exact (Graph.rank?_eq_some_iff hnodup _ _).2 hplace

/-- A call delivers an emission of the moment it is made at. -/
theorem emission_of_call {root : Tree} {source : Source} {call : Call K Note} (h : call ∈ (e.record root source).calls) :
    ∃ es, e.index.emissions call.moment.direction call.moment.node call.moment.ancestry = .ok es ∧ call.emission ∈ es := by
  have hscheduled : ∀ {m : Moment} {key : Moment × Emission (Listener K Note)}, key ∈ m.scheduled e.index →
      ∃ es, e.index.emissions key.1.direction key.1.node key.1.ancestry = .ok es ∧ key.2 ∈ es := by
    intro m key hkey
    unfold Moment.scheduled at hkey
    split at hkey
    · rename_i es hes
      obtain ⟨x, hx, rfl⟩ := List.mem_map.1 hkey
      exact ⟨es, hes, hx⟩
    · exact absurd hkey List.not_mem_nil
  have hkey : call.key ∈ (e.record root source).calls.map Call.key := List.mem_map_of_mem h
  cases hrun : (e.run root source).outcome with
  | ok report =>
    rw [(calls_of_ok hrun).2.1, List.mem_flatMap] at hkey
    obtain ⟨m, -, hkey⟩ := hkey
    exact hscheduled hkey
  | error error =>
    obtain ⟨before, m, after, w, calls, delivered, -, -, hfails, hcalls⟩ := calls_of_error hrun
    rw [hcalls, List.mem_append, List.mem_flatMap] at hkey
    rcases hkey with ⟨m', -, hkey⟩ | hkey
    · exact hscheduled hkey
    · exact hscheduled (hfails.isPrefix.subset hkey)

/-- The engine's index is the index of numbers with every number looked up. -/
theorem exists_numbered (h : (setupWith cache r groups c).outcome = .ok e) :
    ∃ index, SelectorIndex.build e.order cache (Tables.ofBindings r e.bindings).registered = .ok (index, e.cache) ∧
      index.map (Tables.ofBindings r e.bindings).listener? = e.index.map some := by
  obtain ⟨order, a, registered, index, cache', -, ha, hv, hbuild, rfl⟩ := setupWith_eq_ok_iff.1 h
  obtain ⟨-, -, rfl⟩ := Assembly.visitors_eq (Assembly.ofGroups_declared ha) hv
  dsimp only
  generalize a.bound.map (·.binding) = bindings at *
  -- with their numbers looked up, the numbered registrations are those of the bindings, so both indexes are built alike
  have hnamed := SelectorIndex.build_map some order cache (bindings.flatMap r.registrationsFor)
  rw [← (Tables.registered_ofBindings r bindings).2, SelectorIndex.build_map, hbuild] at hnamed
  cases hnumbers : SelectorIndex.build order cache (Tables.ofBindings r bindings).registered with
  | error reason =>
    rw [hnumbers] at hnamed
    cases hnamed
  | ok result =>
    rw [hnumbers] at hnamed
    obtain ⟨hindex, hcache⟩ := Prod.mk.inj (Except.ok.inj hnamed)
    exact ⟨result.1, by rw [← hcache], hindex⟩

end Engine

/-! ## Setup and requests -/

theorem Assembly.ofGroups_ne_state (r : Registry K Note) (c : Config) (groups : List Group) (error : StateError) :
    ofGroups r c groups ≠ .error (.state error) := by
  intro h
  obtain ⟨before, ⟨g, rule⟩, after, a, -, -, hbind⟩ := foldlM_eq_error h
  cases hfind : r.find? rule with
  | none =>
    rw [Assembly.bind, hfind] at hbind
    cases hbind
  | some m =>
    rw [bind_of_found hfind] at hbind
    cases hbind

theorem Assembly.visitors_ne_state (bound : List (Bound K Note)) (error : StateError) :
    (visitors bound).2 ≠ .error (.state error) := by
  induction bound with
  | nil => simp [visitors]
  | cons b rest ih =>
    rw [visitors]
    cases (b.module.build b.binding.config).visitors with
    | error reason => simp
    | ok made =>
      intro h
      dsimp only at h
      cases hrest : (visitors rest).2 with
      | ok more =>
        rw [hrest] at h
        cases h
      | error reason =>
        rw [hrest] at h
        cases h
        exact ih hrest

/-- Setup never meets an instance that is there already. -/
theorem Engine.setupWith_ne_state (cache : PatternCache) (r : Registry K Note) (groups : List Group) (c : Config)
    (error : StateError) : (setupWith cache r groups c).outcome ≠ .error (.state error) := by
  intro h
  unfold setupWith at h
  dsimp only at h
  cases hprepare : prepare r groups c with
  | error reason =>
    rw [hprepare] at h
    cases h
    unfold prepare orderOf at hprepare
    split at hprepare
    · cases hprepare
    · split at hprepare
      · cases ha : Assembly.ofGroups r c groups with
        | ok a =>
          rw [ha] at hprepare
          cases hprepare
        | error reason =>
          rw [ha] at hprepare
          cases hprepare
          exact Assembly.ofGroups_ne_state r c groups error ha
      · cases hprepare
  | ok prepared =>
    rw [hprepare] at h
    dsimp only at h
    cases hv : (Assembly.visitors prepared.2.bound).2 with
    | error reason =>
      rw [hv] at h
      cases h
      exact Assembly.visitors_ne_state _ error hv
    | ok registered =>
      rw [hv] at h
      change finish cache prepared.1 prepared.2 registered = _ at h
      unfold finish at h
      split at h <;> cases h

/-- A binding is served by a table: neither reading nor replacing its own state nor a request for another rule finds an
instance missing. -/
structure Binding.Served (b : Binding) (states : StateTable K) : Prop where
  read : ∀ k tag, states.read b.tag k ≠ .error (.missing tag)
  update : ∀ k f node visit tag, (states.update b.tag k f node visit).1 ≠ .error (.missing tag)
  request : ∀ rule k error, b.request states rule k = .error error →
    (∀ requested group, error ≠ .config (.missingDependencyState requested group)) ∧ ∀ tag, error ≠ .state (.missing tag)

/-- A binding is served where its own instance and those of all rules of its groups are found. -/
theorem Binding.served_of_found {b : Binding} {states : StateTable K} {state : RuleState K}
    (hown : states.find? b.tag = some state) (hothers : ∀ m ∈ b.groups, ∀ rule ∈ m.members,
      ∃ tag state, states.tagFor? rule m.group = some tag ∧ states.find? tag = some state) : b.Served states := by
  refine ⟨fun k tag h => ?_, fun k f node visit tag h => ?_, fun rule k error h => ?_⟩
  · rw [StateTable.read, StateTable.get, hown] at h
    dsimp only [bind, Except.bind] at h
    split at h <;> cases h
  · rw [StateTable.update, hown] at h
    dsimp only at h
    split at h <;> cases h
  · unfold request external at h
    cases hfind : b.groups.find? (·.members.contains rule) with
    | none =>
      rw [hfind] at h
      cases h
      simp
    | some m =>
      rw [hfind] at h
      dsimp only at h
      by_cases hdep : b.dependencies.contains rule
      · have hlisted : rule ∈ m.members := by simpa using List.find?_some hfind
        obtain ⟨tag, state, htag, hstate⟩ := hothers m (List.mem_of_find?_eq_some hfind) rule hlisted
        rw [if_pos hdep, htag] at h
        dsimp only at h
        rw [StateTable.get, hstate] at h
        dsimp only at h
        split at h <;> cases h
        simp
      · rw [if_neg hdep] at h
        cases h
        simp

/-- A binding of an engine is served by every table that has the tags of the engine's. -/
theorem Engine.served_of_sameTags {cache : PatternCache} {e : Engine K Note}
    (h : (setupWith cache r groups c).outcome = .ok e) {b : Binding} (hb : b ∈ e.bindings) {states : StateTable K}
    (hstates : e.states.SameTags states) : b.Served states := by
  obtain ⟨htag, -, hgroups⟩ := binding_spec h hb
  have hown : states.contains b.tag := by
    rw [hstates]
    exact (contains_iff h _).2 htag
  obtain ⟨state, hstate⟩ := Option.isSome_iff_exists.1 hown
  refine Binding.served_of_found hstate fun m hm rule hrule => ?_
  rw [hgroups] at hm
  obtain ⟨g, hg, rfl⟩ := List.mem_map.1 hm
  have hlisted := (List.mem_filter.1 (mem_of_mem_firsts Group.id hg)).1
  obtain ⟨htag, state, hstate⟩ := tagFor?_of_sameTags h hstates hlisted hrule
  exact ⟨_, state, htag, hstate⟩

/-! ## No internal failure -/

/-- No internal failure is reachable. Setup never finds an instance where it makes one. If it succeeds, listeners can be
told by numbers: in every visit, each number that is delivered is one of the visitor table, the number that stands there is
one of the bindings, and the two give the listener that the engine runs. Every owner has a rank, its place in the order. And
at every point of every run, whatever the visitors do, no instance is missing that a visitor reads, replaces or asks for. -/
theorem Engine.no_internal_failure (cache : PatternCache) (r : Registry K Note) (groups : List Group) (c : Config) :
    (∀ error, (setupWith cache r groups c).outcome ≠ .error (.state error)) ∧
    ∀ e, (setupWith cache r groups c).outcome = .ok e →
      (∃ index, SelectorIndex.build e.order cache (Tables.ofBindings r e.bindings).registered = .ok (index, e.cache) ∧
        (Tables.ofBindings r e.bindings).bindings = e.bindings ∧
        ∀ d node ancestry,
          (index.emissions d node ancestry).map (List.map (Emission.map (Tables.ofBindings r e.bindings).listener?)) =
            (e.index.emissions d node ancestry).map (List.map (Emission.map some)) ∧
          ∀ es, index.emissions d node ancestry = .ok es → ∀ x ∈ es, ∃ seat,
            (Tables.ofBindings r e.bindings).seats[x.listener]? = some seat ∧ seat.binding < e.bindings.length) ∧
      (∀ d node ancestry es, e.index.emissions d node ancestry = .ok es →
        ∀ x ∈ es, ∃ rank, x.rank = some rank ∧ e.order.ids[rank]? = some x.owner) ∧
      ∀ root source, ∀ call ∈ (e.record root source).calls, ∀ earlier, ∀ point ∈ call.points source earlier,
        call.binding.Served point.2.states := by
  refine ⟨setupWith_ne_state cache r groups c, fun e h => ⟨?_, ?_, ?_⟩⟩
  · obtain ⟨index, hbuild, hindex⟩ := exists_numbered h
    have hbindings := (Tables.registered_ofBindings r e.bindings).1
    refine ⟨index, hbuild, hbindings, fun d node ancestry => ?_⟩
    have hemissions := congrArg (·.emissions d node ancestry) hindex
    rw [SelectorIndex.emissions_map, SelectorIndex.emissions_map] at hemissions
    refine ⟨hemissions, fun es hes x hx => ?_⟩
    rw [hes] at hemissions
    cases hheard : e.index.emissions d node ancestry with
    | error reason =>
      rw [hheard] at hemissions
      cases hemissions
    | ok heard =>
      rw [hheard] at hemissions
      have hmem : x.map (Tables.ofBindings r e.bindings).listener? ∈ heard.map (Emission.map some) :=
        Except.ok.inj hemissions ▸ List.mem_map_of_mem hx
      obtain ⟨y, -, heq⟩ := List.mem_map.1 hmem
      obtain ⟨place, hseat, hplace⟩ := Tables.listener?_eq_some_iff.1 (congrArg Emission.listener heq).symm
      rw [hbindings] at hplace
      exact ⟨_, hseat, (List.getElem?_eq_some_iff.1 hplace).1⟩
  · intro d node ancestry es hes x hx
    exact (binding_of_emissions h hes hx).2
  · intro root source call hcall earlier point hpoint
    obtain ⟨es, hes, hx⟩ := emission_of_call hcall
    exact served_of_sameTags h (binding_of_emissions h hes hx).1 (points_sameTags hcall hpoint)

/-- Three visitors of three instances, one of them private, run at a node. -/
theorem Engine.no_internal_failure_counting : ∃ e : Engine PlainKind Unit,
    (setupWith .empty Registry.counting [⟨"g", ["asking", "count"]⟩, ⟨"h", ["count", "asking"]⟩]
      { groups := [("h", [("count", .bool true)])] }).outcome = .ok e ∧
    (e.record (.node { name := "n" } []) (.ofText "")).calls.map (·.binding.tag) =
      [.shared "count", .group "count" "h", .shared "asking"] ∧
    ∀ call ∈ (e.record (.node { name := "n" } []) (.ofText "")).calls, ∀ point ∈ call.points (.ofText "") [],
      call.binding.Served point.2.states := by
  have htags : ((setupWith .empty Registry.counting [⟨"g", ["asking", "count"]⟩, ⟨"h", ["count", "asking"]⟩]
      { groups := [("h", [("count", .bool true)])] }).outcome.toOption.map fun e =>
        (e.record (.node { name := "n" } []) (.ofText "")).calls.map (·.binding.tag)) =
      some [.shared "count", .group "count" "h", .shared "asking"] := by
    cbv
  obtain ⟨e, hsetup, htags⟩ := Option.map_eq_some_iff.1 htags
  obtain ⟨-, -, hserved⟩ := (no_internal_failure _ _ _ _).2 e (eq_ok_of_toOption hsetup)
  exact ⟨e, eq_ok_of_toOption hsetup, htags, fun call hcall => hserved _ _ call hcall []⟩

end RuleWalk
