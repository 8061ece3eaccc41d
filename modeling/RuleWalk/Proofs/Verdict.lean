import RuleWalk.Proofs.Discovery
import RuleWalk.Proofs.Instances
import RuleWalk.Proofs.Transparency

/-!
# What setup comes to

Setup can be stopped by five kinds of faults. Each is looked for in a list of its own: rules that are not known in the listing
of the groups, dependencies that are not known in the breadth-first listing of the closure, a cycle in the closure as a whole,
visitors that cannot be made in the order of binding, and selectors that cannot be read in the order of binding and of
visitors. The kinds are looked for one after the other, and the first fault of the first kind that there is stops setup.
-/

namespace RuleWalk

variable {K : Type} [Kinds K] {Note : Type} {r : Registry K Note} {groups : List Group} {c : Config}

/-! ## The lists that faults are looked for in -/

/-- What the rules of a graph depend on, in listing order. -/
def Graph.demands (g : Graph) : List (String × String) :=
  g.flatMap fun (rule, dependencies) => dependencies.map fun d => (rule, d)

/-- The rules that the groups name and all they depend on, breadth first, each with what it depends on. -/
def Registry.listed (r : Registry K Note) (groups : List Group) : Graph :=
  (r.breadthFirst groups).map fun id => (id, r.dependenciesOf id)

/-- The instances in order of binding, each by the group and the rule that it is first bound for. -/
def Config.instances (c : Config) (groups : List Group) : List (Group × String) :=
  firsts (fun (g, rule) => c.tag g.id rule) (Group.pairs groups)

/-- The visitors of a rule with the configuration that it has in a group. -/
def Registry.visitorsIn (r : Registry K Note) (c : Config) (pair : Group × String) : Except String (List (Visitor K Note)) :=
  match r.find? pair.2 with
  | some m => (m.build (c.resolve pair.1.id pair.2 m.config)).visitors
  | none => .ok []

/-- The selectors that the visitors of an instance are registered with. -/
def selectorsOf (visitors : Except String (List (Visitor K Note))) : List String :=
  (visitors.toOption.getD []).map (·.selector)

/-- The first rule of a group that is not known. -/
def Registry.unknown? (r : Registry K Note) (groups : List Group) : Option (Group × String) :=
  (Group.pairs groups).find? fun (_, rule) => !(r.find? rule).isSome

/-- The first dependency of a rule of the closure that is not known. -/
def Registry.missing? (r : Registry K Note) (groups : List Group) : Option (String × String) :=
  (r.listed groups).demands.find? fun (_, d) => !(r.find? d).isSome

/-- The first instance whose visitors cannot be made. -/
def Registry.failing? (r : Registry K Note) (groups : List Group) (c : Config) : Option (Group × String) :=
  (c.instances groups).find? fun pair => !(r.visitorsIn c pair).isOk

/-- The first selector that cannot be read. -/
def Registry.unreadable? (r : Registry K Note) (groups : List Group) (c : Config) : Option String :=
  ((c.instances groups).flatMap fun pair => selectorsOf (r.visitorsIn c pair)).find? fun raw => !PatternCache.readable raw

/-- What setup comes to: the first fault of the first kind that there is, or an engine. -/
inductive Engine.Verdict (r : Registry K Note) (groups : List Group) (c : Config) : Except EngineError (Engine K Note) → Prop
  | unknown {g : Group} {rule : String} (first : r.unknown? groups = some (g, rule)) :
      Verdict r groups c (.error (.config (.unknownRule rule g.id)))
  | missing {rule d : String} (known : r.unknown? groups = none) (first : r.missing? groups = some (rule, d)) :
      Verdict r groups c (.error (.dependency (.missing rule d)))
  | cyclic {path : List String} (known : r.unknown? groups = none) (complete : r.missing? groups = none)
      (cycle : (r.listed groups).IsCycle path) : Verdict r groups c (.error (.dependency (.cyclic path)))
  | load {g : Group} {rule reason : String} (known : r.unknown? groups = none) (complete : r.missing? groups = none)
      (acyclic : ¬(r.listed groups).Cyclic) (first : r.failing? groups c = some (g, rule))
      (fails : r.visitorsIn c (g, rule) = .error reason) : Verdict r groups c (.error (.load (c.tag g.id rule) reason))
  | parse {raw : String} {e : ParseError} (known : r.unknown? groups = none) (complete : r.missing? groups = none)
      (acyclic : ¬(r.listed groups).Cyclic) (made : r.failing? groups c = none)
      (first : r.unreadable? groups c = some raw) (fails : Pattern.parse raw = .error e) :
      Verdict r groups c (.error (.parse e))
  | ready {e : Engine K Note} (known : r.unknown? groups = none) (complete : r.missing? groups = none)
      (acyclic : ¬(r.listed groups).Cyclic) (made : r.failing? groups c = none) (read : r.unreadable? groups c = none) :
      Verdict r groups c (.ok e)

/-! ## Rules and dependencies that are not known -/

namespace Registry

theorem unknown?_eq_none_iff :
    r.unknown? groups = none ↔ ∀ g ∈ groups, ∀ rule ∈ g.rules, (r.find? rule).isSome := by
  rw [unknown?, List.find?_eq_none]
  constructor
  · intro h g hg rule hrule
    obtain ⟨g', hpair⟩ := Group.exists_mem_pairs.2 ⟨g, hg, hrule⟩
    simpa [Option.isSome_iff_ne_none] using h (g', rule) hpair
  · rintro h ⟨g, rule⟩ hpair
    obtain ⟨g', hg', hrule⟩ := Group.exists_mem_pairs.1 ⟨g, hpair⟩
    simpa [Option.isSome_iff_ne_none] using h g' hg' rule hrule

/-- The named rules are refused at the first that is not known. -/
theorem closure_of_unknown {g : Group} {rule : String} (h : r.unknown? groups = some (g, rule)) :
    r.closure groups = .error (.unknownRule rule g.id) := by
  have hnamed : r.named groups = .error (.unknownRule rule g.id) := by
    obtain ⟨hlacks, before, after, hpairs, hbefore⟩ := List.find?_eq_some_iff_append.1 h
    rw [named, hpairs]
    clear hpairs h
    generalize ([] : Graph) = graph
    induction before generalizing graph with
    | nil => exact foldlM_cons_of_error after (if_neg (by simpa using hlacks))
    | cons pair rest ih =>
      obtain ⟨hpair, hrest⟩ := List.forall_mem_cons.1 hbefore
      rw [List.cons_append, foldlM_cons_of_ok _ (if_pos (by simpa using hpair))]
      exact ih hrest (r.discover graph pair.2)
  rw [closure, hnamed]
  rfl

/-- The closure of known rules is the breadth-first listing. -/
theorem closure_of_known (h : r.unknown? groups = none) : r.closure groups = .ok (r.listed groups) := by
  obtain ⟨graph, hgraph⟩ : ∃ graph, r.closure groups = .ok graph :=
    ⟨_, closure_eq_ok_iff.2 ⟨_, named_eq_ok_iff.2 ⟨unknown?_eq_none_iff.1 h, rfl⟩, rfl⟩⟩
  have hf := (closure_spec hgraph).1
  have heq : graph = r.listed groups := by
    rw [listed, ← (ids_closure hgraph).1, Graph.ids, List.map_map]
    refine (List.map_id graph).symm.trans (List.map_congr_left fun entry hentry => ?_)
    exact Prod.ext rfl (hf.dependenciesOf_eq hentry).symm
  rw [hgraph, heq]

end Registry

namespace Graph

theorem mem_demands {g : Graph} {rule d : String} : (rule, d) ∈ g.demands ↔ g.Declares rule d := by
  simp [demands, Declares]

theorem missing?_eq (g : Graph) : g.missing? = g.demands.find? fun (_, d) => !g.ids.contains d := by
  rw [missing?, demands, List.find?_flatMap]
  congr 1
  funext entry
  rw [List.find?_map]
  rfl

end Graph

/-- In the closure, what is not listed is what is not known. -/
theorem Registry.missing?_listed (h : r.unknown? groups = none) : (r.listed groups).missing? = r.missing? groups := by
  obtain ⟨hf, hclosed, -⟩ := closure_spec (closure_of_known h)
  rw [Graph.missing?_eq, missing?]
  refine List.find?_congr fun (rule, d) hdemand => ?_
  obtain ⟨hrule, hdecl⟩ := hf.declares_iff.1 (Graph.mem_demands.1 hdemand)
  have hiff : d ∈ (r.listed groups).ids ↔ (r.find? d).isSome := by
    constructor
    · intro hmem
      obtain ⟨m, hm, -⟩ := hf.known hmem
      rw [hm]
      rfl
    · exact hclosed rule hrule d hdecl
  rw [Bool.eq_iff_iff]
  simp [hiff]

/-! ## Visitors that cannot be made -/

/-- The tag of a bound instance with its visitors. -/
def Bound.work (b : Bound K Note) : StateTag × Except String (List (Visitor K Note)) :=
  (b.binding.tag, (b.module.build b.binding.config).visitors)

namespace Assembly

theorem ofGroups_of_known (h : r.unknown? groups = none) (c : Config) : ∃ a, ofGroups r c groups = .ok a := by
  cases ha : ofGroups r c groups with
  | ok a => exact ⟨a, rfl⟩
  | error e =>
    obtain ⟨before, ⟨g, rule⟩, after, a, hpairs, -, hbind⟩ := foldlM_eq_error ha
    have hpair : (g, rule) ∈ Group.pairs groups := by simp [hpairs]
    obtain ⟨g', hg', hrule⟩ := Group.exists_mem_pairs.1 ⟨g, hpair⟩
    obtain ⟨m, hm⟩ := Option.isSome_iff_exists.1 (Registry.unknown?_eq_none_iff.1 h g' hg' rule hrule)
    rw [bind_of_found hm] at hbind
    cases hbind

/-- The bound instances are those of the first group and rule of each tag, with the visitors that the rule has there. -/
theorem map_work {a : Assembly K Note} (h : ofGroups r c groups = .ok a) :
    a.bound.map Bound.work = (c.instances groups).map fun pair => (c.tag pair.1.id pair.2, r.visitorsIn c pair) := by
  have hexact := ofGroups_exact h
  have htags : a.bound.map (·.binding.tag) = (c.instances groups).map fun pair => c.tag pair.1.id pair.2 := by
    rw [hexact.tags, Config.tags, ← map_firsts]
    rfl
  refine List.ext_getElem? fun i => ?_
  have htag := congrArg (·[i]?) htags
  simp only [List.getElem?_map] at htag ⊢
  cases hb : a.bound[i]? with
  | none =>
    rw [hb] at htag
    rw [Option.map_eq_none_iff.1 htag.symm]
    rfl
  | some b =>
    rw [hb] at htag
    obtain ⟨pair, hpair, htag⟩ := Option.map_eq_some_iff.1 htag.symm
    dsimp only at htag
    have hmem := List.mem_of_getElem? hb
    have hrule : b.binding.tag.rule = pair.2 := by rw [← htag, Config.tag_rule]
    have hmodule := (ofGroups_declared h b hmem).module
    have hconfig := (hexact.serves b hmem).config pair.1.id (by rw [hrule, htag])
    rw [hrule] at hmodule hconfig
    rw [hpair, Option.map_some, Option.map_some, Bound.work, Registry.visitorsIn, hmodule, hconfig, htag]

/-- The first visitors that cannot be made stop the making. -/
theorem visitors_of_failing {bound : List (Bound K Note)} {tag : StateTag} {reason : String}
    (h : (bound.map Bound.work).find? (fun work => !work.2.isOk) = some (tag, .error reason)) :
    (visitors bound).2 = .error (.load tag reason) := by
  induction bound with
  | nil => cases h
  | cons b rest ih =>
    rw [visitors]
    cases hmade : (b.module.build b.binding.config).visitors with
    | error reason' =>
      rw [List.map_cons, List.find?_cons_of_pos (by rw [Bound.work, hmade]; rfl), Bound.work, hmade] at h
      cases h
      rfl
    | ok made =>
      rw [List.map_cons, List.find?_cons_of_neg (by rw [Bound.work, hmade]; simp [Except.isOk, Except.toBool])] at h
      dsimp only
      rw [ih h]
      rfl

/-- Visitors that can all be made are registered under their selectors, in order. -/
theorem visitors_of_made {bound : List (Bound K Note)} (h : ∀ work ∈ bound.map Bound.work, work.2.isOk) :
    ∃ registered, (visitors bound).2 = .ok registered ∧
      registered.map (·.selector) = (bound.map Bound.work).flatMap fun work => selectorsOf work.2 := by
  induction bound with
  | nil => exact ⟨[], rfl, rfl⟩
  | cons b rest ih =>
    rw [List.map_cons, List.forall_mem_cons] at h
    obtain ⟨hb, hrest⟩ := h
    obtain ⟨more, hmore, hselectors⟩ := ih hrest
    cases hmade : (b.module.build b.binding.config).visitors with
    | error reason =>
      rw [Bound.work, hmade] at hb
      cases hb
    | ok made =>
      refine ⟨_, visitors_cons_eq_ok_iff.2 ⟨made, more, hmade, hmore, rfl⟩, ?_⟩
      rw [List.map_append, hselectors, List.map_cons, List.flatMap_cons, Bound.work, hmade, selectorsOf, registrations,
        List.map_map]
      rfl

theorem visitors_of_failing? {a : Assembly K Note} (ha : ofGroups r c groups = .ok a) {g : Group} {rule : String}
    (h : r.failing? groups c = some (g, rule)) : ∃ reason, r.visitorsIn c (g, rule) = .error reason ∧
      (visitors a.bound).2 = .error (.load (c.tag g.id rule) reason) := by
  cases hfails : r.visitorsIn c (g, rule) with
  | ok made =>
    have hnot := List.find?_some h
    rw [hfails] at hnot
    cases hnot
  | error reason =>
    refine ⟨reason, rfl, visitors_of_failing ?_⟩
    rw [map_work ha, List.find?_map]
    change (r.failing? groups c).map _ = _
    rw [h, Option.map_some, hfails]

theorem visitors_of_not_failing {a : Assembly K Note} (ha : ofGroups r c groups = .ok a) (h : r.failing? groups c = none) :
    ∃ registered, (visitors a.bound).2 = .ok registered ∧
      registered.map (·.selector) = (c.instances groups).flatMap fun pair => selectorsOf (r.visitorsIn c pair) := by
  have hmade : ∀ work ∈ a.bound.map Bound.work, work.2.isOk := by
    rw [map_work ha]
    refine List.forall_mem_map.2 fun pair hpair => ?_
    simpa using List.find?_eq_none.1 h pair hpair
  obtain ⟨registered, hregistered, hselectors⟩ := visitors_of_made hmade
  rw [map_work ha, List.flatMap_map] at hselectors
  exact ⟨registered, hregistered, hselectors⟩

end Assembly

/-! ## Selectors that cannot be read -/

namespace SelectorIndex

variable {L : Type}

theorem readable_of_build {order : DeliveryOrder} {cache : PatternCache} {registrations : List (Registration L)}
    {built : SelectorIndex L × PatternCache} (hs : cache.Sound) (h : build order cache registrations = .ok built) :
    ∀ raw ∈ registrations.map (·.selector), PatternCache.readable raw := by
  obtain ⟨patterns, hbuilt⟩ := built_of_build hs h
  refine List.forall_mem_map.2 fun reg hreg => ?_
  obtain ⟨p, -, -, hp⟩ := hbuilt.parsed_of_mem hreg
  exact PatternCache.readable_iff.2 ⟨p, hp⟩

/-- A registration is refused with what reading its selector gives. -/
theorem parse_of_refused {order : DeliveryOrder} {state : SelectorIndex L × PatternCache} (hs : state.2.Sound)
    {reg : Registration L} {e : ParseError} (h : register order state reg = .error e) :
    Pattern.parse reg.selector = .error e := by
  have henroll := register_eq_enroll order hs reg
  rw [h, enroll] at henroll
  split at henroll
  · cases hp : Pattern.parse reg.selector with
    | error e' =>
      rw [hp] at henroll
      cases henroll
      rfl
    | ok p =>
      rw [hp] at henroll
      cases henroll
  · cases henroll

/-- The first selector that cannot be read is refused. -/
theorem build_of_unreadable {order : DeliveryOrder} {cache : PatternCache} {registrations : List (Registration L)}
    {raw : String} {e : ParseError} (hs : cache.Sound)
    (h : (registrations.map (·.selector)).find? (fun raw => !PatternCache.readable raw) = some raw)
    (hread : Pattern.parse raw = .error e) : build order cache registrations = .error e := by
  cases hbuild : build order cache registrations with
  | ok built =>
    have hreadable := readable_of_build hs hbuild raw (List.mem_of_find?_eq_some h)
    have hnot := List.find?_some h
    simp [hreadable] at hnot
  | error e' =>
    -- the fold has stopped at a registration behind others that were read
    have hfold : registrations.foldlM (register order) ({}, cache) = .error e' := by
      rw [build] at hbuild
      cases hfold : registrations.foldlM (register order) ({}, cache) with
      | error e =>
        rw [hfold] at hbuild
        cases hbuild
        rfl
      | ok state =>
        rw [hfold] at hbuild
        cases hbuild
    obtain ⟨before, reg, after, state, rfl, hbefore, hstep⟩ := foldlM_eq_error hfold
    have hsound : state.2.Sound := foldlM_keeps (fun state : SelectorIndex L × PatternCache => state.2.Sound)
      (fun _ _ _ _ => sound_of_register) hs hbefore
    have hstop := parse_of_refused hsound hstep
    obtain ⟨built, hbuilt⟩ : ∃ built, build order cache before = .ok built := ⟨_, by rw [build, hbefore]; rfl⟩
    have hreadable := readable_of_build hs hbuilt
    have hfirst : ((before ++ reg :: after).map (·.selector)).find? (fun raw => !PatternCache.readable raw) =
        some reg.selector := by
      refine List.find?_eq_some_iff_append.2 ⟨?_, before.map (·.selector), after.map (·.selector), by simp, ?_⟩
      · rw [PatternCache.readable, hstop]
        rfl
      · intro raw hraw
        simp [hreadable raw hraw]
    cases h.symm.trans hfirst
    cases hstop.symm.trans hread
    rfl

end SelectorIndex

/-! ## Setup -/

namespace Engine

theorem outcome_of_no_order {e : EngineError} (h : orderOf r groups = .error e) (c : Config) (cache : PatternCache) :
    (setupWith cache r groups c).outcome = .error e := by
  have hprepare : prepare r groups c = .error e := by
    rw [prepare, h]
    rfl
  rw [setupWith, hprepare]

theorem orderOf_eq_error {graph : Graph} {e : DependencyError} (h : r.closure groups = .ok graph)
    (he : graph.resolve = .error e) : orderOf r groups = .error (.dependency e) := by
  unfold orderOf
  rw [h]
  dsimp only
  rw [he]

/-- With an order for the closure, the verdict is about visitors and their selectors. -/
theorem verdict_of_order {cache : PatternCache} (hs : cache.Sound) (hknown : r.unknown? groups = none)
    (hcomplete : r.missing? groups = none) {order : DeliveryOrder} (horder : (r.listed groups).resolve = .ok order)
    (c : Config) : Verdict r groups c (setupWith cache r groups c).outcome := by
  have hacyclic := Graph.not_cyclic_of_resolve horder
  have horderOf : orderOf r groups = .ok order := orderOf_eq_ok_iff.2 ⟨_, Registry.closure_of_known hknown, horder⟩
  obtain ⟨a, ha⟩ := Assembly.ofGroups_of_known hknown c
  rw [outcome_of_prepared horderOf ha]
  cases hfailing : r.failing? groups c with
  | some pair =>
    obtain ⟨reason, hfails, hvisitors⟩ := Assembly.visitors_of_failing? ha hfailing
    rw [hvisitors]
    exact .load hknown hcomplete hacyclic hfailing hfails
  | none =>
    obtain ⟨registered, hvisitors, hselectors⟩ := Assembly.visitors_of_not_failing ha hfailing
    rw [hvisitors]
    change Verdict r groups c (finish cache order a registered)
    rw [finish]
    cases hunreadable : r.unreadable? groups c with
    | some raw =>
      have hfirst := hunreadable
      rw [Registry.unreadable?, ← hselectors] at hfirst
      cases hread : Pattern.parse raw with
      | ok p =>
        have hnot := List.find?_some hfirst
        rw [PatternCache.readable, hread] at hnot
        cases hnot
      | error e =>
        rw [SelectorIndex.build_of_unreadable hs hfirst hread]
        exact .parse hknown hcomplete hacyclic hfailing hunreadable hread
    | none =>
      have hreadable := hunreadable
      rw [Registry.unreadable?, ← hselectors, List.find?_eq_none] at hreadable
      have hparsed : ∀ reg ∈ registered, ∃ p, Pattern.parse reg.selector = .ok p := by
        intro reg hreg
        exact PatternCache.readable_iff.1 (by simpa using hreadable reg.selector (List.mem_map_of_mem hreg))
      obtain ⟨index, cache', hbuild⟩ := SelectorIndex.build_of_parsed order cache hparsed
      rw [hbuild]
      exact .ready hknown hcomplete hacyclic hfailing hunreadable

/-- The exact outcome of setup, for all registries, groups and configurations, and with every cache that has come about by
asking for texts. A group that lists a rule that is not known is told first, then a dependency in the closure that is not
known, a cycle in the closure, an instance whose visitors cannot be made, and a selector that cannot be read, of each kind the
first there is; and without any of them there is an engine. The listing of the closure leaves nothing to discover. -/
theorem setup_verdict (r : Registry K Note) (groups : List Group) (c : Config) :
    Verdict r groups c (setup r groups c).outcome ∧
    (∀ cache : PatternCache, cache.Made → Verdict r groups c (setupWith cache r groups c).outcome) ∧
    (r.unknown? groups = none → r.round groups (r.breadthFirst groups) = r.breadthFirst groups) := by
  have hverdict : ∀ cache : PatternCache, cache.Sound → Verdict r groups c (setupWith cache r groups c).outcome := by
    intro cache hs
    cases hunknown : r.unknown? groups with
    | some pair =>
      rw [outcome_of_no_order (by rw [orderOf, Registry.closure_of_unknown hunknown])]
      exact .unknown hunknown
    | none =>
      have hclosure := Registry.closure_of_known hunknown
      have hlisted := Registry.missing?_listed hunknown
      cases hmissing : r.missing? groups with
      | some demand =>
        have hresolve : (r.listed groups).resolve = .error (.missing demand.1 demand.2) := by
          rw [Graph.resolve, hlisted, hmissing]
        rw [outcome_of_no_order (orderOf_eq_error hclosure hresolve)]
        exact .missing hunknown hmissing
      | none =>
        rcases Graph.resolve_complete (Graph.missing?_eq_none_iff.1 (hlisted.trans hmissing)) with
          ⟨order, horder, -, -⟩ | ⟨path, hpath, hcycle⟩
        · exact verdict_of_order hs hunknown hmissing horder c
        · rw [outcome_of_no_order (orderOf_eq_error hclosure hpath)]
          exact .cyclic hunknown hmissing hcycle
  refine ⟨hverdict .empty PatternCache.sound_empty, fun cache hmade => hverdict cache hmade.sound, fun hknown => ?_⟩
  obtain ⟨hids, hround⟩ := Registry.ids_closure (Registry.closure_of_known hknown)
  rwa [hids] at hround

end Engine

/-- Rules with faults: selectors that cannot be read, visitors that cannot be made, and two rules that depend on each other, of
which one also depends on a rule that is not known. -/
def Registry.faulty : Registry PlainKind Unit :=
  List.foldl define {} [
    { name := "bad", initial := ⟨.unit, ()⟩,
      visitors := [⟨"n", fun _ => .done⟩, ⟨"[", fun _ => .done⟩, ⟨"]", fun _ => .done⟩] },
    { name := "stuck", initial := ⟨.unit, ()⟩, factory := some fun _ _ => ⟨[], .error "no"⟩ },
    { name := "top", dependencies := ["mid"], initial := ⟨.unit, ()⟩ },
    { name := "mid", dependencies := ["top", "ghost"], initial := ⟨.unit, ()⟩ }]

/-- Of faults of four kinds the dependency that is not known is told. Of two selectors that cannot be read the first is told,
behind one that the cache has. -/
theorem Engine.setup_verdict_faulty :
    (setup Registry.faulty [⟨"g", ["bad", "stuck", "top"]⟩] {}).outcome = .error (.dependency (.missing "mid" "ghost")) ∧
    ∃ (cache : PatternCache) (cached : CachedPattern) (e : ParseError), PatternCache.empty.parse "n" = (.ok cached, cache) ∧
      Pattern.parse "[" = .error e ∧ (setupWith cache Registry.faulty [⟨"g", ["bad"]⟩] {}).outcome = .error (.parse e) := by
  constructor
  · have hknown : Registry.faulty.unknown? [⟨"g", ["bad", "stuck", "top"]⟩] = none := by cbv
    have hmissing : Registry.faulty.missing? [⟨"g", ["bad", "stuck", "top"]⟩] = some ("mid", "ghost") := by cbv
    have hverdict := (setup_verdict Registry.faulty [⟨"g", ["bad", "stuck", "top"]⟩] {}).1
    generalize (setup Registry.faulty [⟨"g", ["bad", "stuck", "top"]⟩] {}).outcome = outcome at hverdict
    cases hverdict with
    | unknown first => cases hknown.symm.trans first
    | missing known first =>
      cases hmissing.symm.trans first
      rfl
    | cyclic known complete | load known complete | parse known complete | ready known complete =>
      cases hmissing.symm.trans complete
  · obtain ⟨p, hp⟩ : ∃ p, Pattern.parse "n" = .ok p := ⟨_, rfl⟩
    obtain ⟨cached, cache, hcache⟩ := PatternCache.empty.parse_of_ok hp
    refine ⟨cache, cached, ?_⟩
    have hknown : Registry.faulty.unknown? [⟨"g", ["bad"]⟩] = none := by cbv
    have hmissing : Registry.faulty.missing? [⟨"g", ["bad"]⟩] = none := by cbv
    have hacyclic : ¬(Registry.faulty.listed [⟨"g", ["bad"]⟩]).Cyclic :=
      Graph.not_cyclic_of_resolve (show Graph.resolve _ = .ok ⟨["bad"]⟩ by cbv)
    have hmade : Registry.faulty.failing? [⟨"g", ["bad"]⟩] {} = none := by cbv
    have hunreadable : Registry.faulty.unreadable? [⟨"g", ["bad"]⟩] {} = some "[" := by cbv
    have hmade' : cache.Made := by
      have hgrown := PatternCache.Made.empty.parse "n"
      rwa [hcache] at hgrown
    have hverdict := (setup_verdict Registry.faulty [⟨"g", ["bad"]⟩] {}).2.1 cache hmade'
    generalize (setupWith cache Registry.faulty [⟨"g", ["bad"]⟩] {}).outcome = outcome at hverdict ⊢
    cases hverdict with
    | unknown first => cases hknown.symm.trans first
    | missing known first => cases hmissing.symm.trans first
    | cyclic known complete cycle => exact absurd cycle.cyclic hacyclic
    | load known complete acyclic first => cases hmade.symm.trans first
    | @parse raw e known complete acyclic made first fails =>
      cases hunreadable.symm.trans first
      exact ⟨e, hcache, fails, rfl⟩
    | ready known complete acyclic made read => cases hunreadable.symm.trans read

end RuleWalk
