import RuleWalk.Proofs.Lockstep
import RuleWalk.Proofs.Paths

/-!
# Rules do not disturb unrelated rules

Two runs of one tree, one with all rules and one with some rules that need none of the others. At each moment the instances
of the kept rules agree in value; their histories need not, since marks are only worked out where something is delivered.
But a history that has not been cut keeps no more than nodes whose time is past, so that both come to the same marks
wherever a kept rule looks at them.
-/

namespace RuleWalk

variable {K : Type} [Kinds K] {Note : Type} {r : Registry K Note} {groups : List Group} {c : Config} {keep : String → Bool}

/-! ## Marks -/

namespace RuleState

/-- Two states of an instance that no visitor can tell apart in some moments to come: their values are the same, and so is
what their histories hold of the paths of these moments. -/
structure SameFor (rest : List Moment) (s s' : RuleState K) : Prop where
  value : s.value = s'.value
  config : s.config = s'.config
  history : ∀ m ∈ rest, s.history.filter (m.path.contains ·.1) = s'.history.filter (m.path.contains ·.1)

theorem SameFor.refl (rest : List Moment) (s : RuleState K) : SameFor rest s s :=
  ⟨rfl, rfl, fun _ _ => rfl⟩

theorem SameFor.mono {rest rest' : List Moment} {s s' : RuleState K} (h : SameFor rest s s') (hsub : rest' ⊆ rest) :
    SameFor rest' s s' :=
  ⟨h.value, h.config, fun m hm => h.history m (hsub hm)⟩

/-- Marks are worked out from what the history holds of the path. -/
theorem SameFor.refresh {rest : List Moment} {s s' : RuleState K} (h : SameFor rest s s') {m : Moment} (hm : m ∈ rest) :
    s.refresh m.node.id (m.ancestry.map Tree.id) = s'.refresh m.node.id (m.ancestry.map Tree.id) := by
  have hhistory := h.history m hm
  rw [← history_refresh, ← history_refresh] at hhistory
  simp only [RuleState.refresh] at hhistory ⊢
  rw [hhistory, h.value, h.config]

/-- Cutting a history down to a path takes nothing that later paths have of it, if all it has in common with them is on the
path. -/
theorem sameFor_refresh {rest : List Moment} {s : RuleState K} {m : Moment}
    (h : ∀ entry ∈ s.history, ∀ y ∈ rest, entry.1 ∈ y.path → entry.1 ∈ m.path) :
    SameFor rest (s.refresh m.node.id (m.ancestry.map Tree.id)) s := by
  refine ⟨rfl, rfl, fun y hy => ?_⟩
  rw [history_refresh, List.filter_filter]
  refine List.filter_congr fun entry hentry => ?_
  by_cases hin : entry.1 ∈ y.path
  · have hpath := h entry hentry y hy hin
    simp [hin, hpath]
  · simp [hin]

end RuleState

/-! ## Moments -/

/-- A moment is taken by working out the marks and running the listeners of its emissions; without emissions nothing is
done. -/
theorem Moment.take_eq_ok_iff {index : SelectorIndex (Listener K Note)} {source : Source} {state state' : World K Note × Nat}
    {m : Moment} : Moment.take index source state m = .ok state' ↔
      ∃ es v, index.emissions m.direction m.node m.ancestry = .ok es ∧
        Listener.runAll source m.direction m.node m.ancestry (es.map (·.listener)) (state.1.refresh m.node m.ancestry) =
          .ok v ∧
        state' = (if es.isEmpty then state.1 else v, state.2 + es.length) := by
  unfold Moment.take
  cases index.emissions m.direction m.node m.ancestry with
  | error e =>
    constructor
    · exact nofun
    · rintro ⟨es, v, h, -⟩
      cases h
  | ok es =>
    dsimp only
    have hrun := Engine.foldlM_deliver source m.direction m.node m.ancestry es ⟨state.1, false⟩
    cases hfold : es.foldlM (Engine.deliver source m.direction m.node m.ancestry) ⟨state.1, false⟩ with
    | error halt =>
      rw [hfold] at hrun
      constructor
      · exact nofun
      · rintro ⟨es', v, h, hv, -⟩
        cases h
        cases hrun.symm.trans hv
    | ok session =>
      rw [hfold] at hrun
      have hworld : session.world = if es.isEmpty then state.1 else session.current m.node m.ancestry := by
        cases es with
        | nil =>
          cases hfold
          rfl
        | cons x rest => exact (if_pos (Engine.foldlM_deliver_refreshed source (List.cons_ne_nil _ _) hfold)).symm
      dsimp only
      rw [hworld]
      constructor
      · intro h
        cases h
        exact ⟨es, _, rfl, hrun, rfl⟩
      · rintro ⟨es', v, h, hv, rfl⟩
        cases h
        cases hrun.symm.trans hv
        rfl

/-! ## The listeners of an engine -/

/-- The listeners of a step come after all listeners of their dependencies. -/
theorem Engine.ordered_listeners {e : Engine K Note} (h : (Engine.setup r groups c).outcome = .ok e) {d : Direction}
    {node : Tree} {ancestry : List Tree} {es : List (Emission (Listener K Note))}
    (hes : e.index.emissions d node ancestry = .ok es) : Listener.Ordered (es.map (·.listener)) := by
  obtain ⟨hdeclared, -⟩ := Engine.emissions_spec h hes
  intro before l after hsplit l' hl' hdep
  obtain ⟨front, back, rfl, rfl, hback⟩ := List.map_eq_append_iff.1 hsplit
  obtain ⟨x, rest, rfl, rfl, rfl⟩ := List.map_eq_cons_iff.1 hback
  obtain ⟨y, hy, rfl⟩ : ∃ y ∈ x :: rest, y.listener = l' := by
    rwa [← List.map_cons, List.mem_map] at hl'
  obtain ⟨k, hk⟩ := List.mem_iff_getElem?.1 hy
  have hx : (front ++ x :: rest)[front.length]? = some x := by simp
  have hyk : (front ++ x :: rest)[front.length + k]? = some y := by
    rw [List.getElem?_append_right (Nat.le_add_right _ _), Nat.add_sub_cancel_left, hk]
  obtain ⟨m, hfind, hdeps, -⟩ := (hdeclared x (List.mem_of_getElem? hx)).module
  have howner : y.owner = y.listener.rule := (hdeclared y (List.mem_of_getElem? hyk)).owner
  have hdecl : r.Declares x.owner y.owner := ⟨m, hfind, hdeps ▸ howner ▸ hdep⟩
  have hlt := Engine.precedes_of_transGen h hes hyk hx (.single hdecl)
  omega

/-- Visitors of kept rules ask for no other rules than they declare. -/
def Registry.Modest (r : Registry K Note) (keep : String → Bool) : Prop :=
  ∀ rule m, keep rule → r.find? rule = some m → ∀ config made, (m.build config).visitors = .ok made →
    ∀ v ∈ made, ∀ scene, (v.script scene).Within m.dependencies

/-- At every visit the listeners for the kept rules are those for all rules, rule by rule. -/
theorem Engine.Remains.listeners {e e' : Engine K Note} (h : e.Remains keep e')
    (hsetup : (Engine.setup r groups c).outcome = .ok e) {groups' : List Group}
    (hsetup' : (Engine.setup r groups' c).outcome = .ok e')
    (hclosed : ∀ rule dependency, keep rule → r.Declares rule dependency → keep dependency) (hmodest : r.Modest keep)
    {d : Direction} {node : Tree} {ancestry : List Tree} {es : List (Emission (Listener K Note))}
    (hes : e.index.emissions d node ancestry = .ok es) : ∃ es', e'.index.emissions d node ancestry = .ok es' ∧
      Listener.Remain keep (es.map (·.listener)) (es'.map (·.listener)) := by
  obtain ⟨es', hes', hkept, hsame⟩ := h.emissions hes
  obtain ⟨hdeclared, -⟩ := Engine.emissions_spec hsetup hes
  obtain ⟨hdeclared', -⟩ := Engine.emissions_spec hsetup' hes'
  have hfilter : ∀ {groups : List Group} {es : List (Emission (Listener K Note))}, (∀ x ∈ es, x.Declared r groups) →
      ∀ rule, (es.map (·.listener)).filter (·.rule = rule) = (es.filter (·.owner = rule)).map (·.listener) := by
    intro groups es hes rule
    rw [List.filter_map]
    congr 1
    refine List.filter_congr fun x hx => ?_
    rw [(hes x hx).owner]
    rfl
  refine ⟨es', hes', ?_, ?_, Engine.ordered_listeners hsetup hes, Engine.ordered_listeners hsetup' hes', ?_⟩
  · intro l hl
    obtain ⟨x, hx, rfl⟩ := List.mem_map.1 hl
    rw [Listener.rule, ← (hdeclared' x hx).owner]
    exact hkept x hx
  · intro rule hkeep
    rw [hfilter hdeclared', hfilter hdeclared, hsame rule hkeep]
  · intro l hl hkeep
    obtain ⟨x, hx, rfl⟩ := List.mem_map.1 hl
    obtain ⟨m, hfind, hdeps, config, made, hmade, hvisitor⟩ := (hdeclared x hx).module
    rw [Listener.rule, ← (hdeclared x hx).owner] at hkeep
    rw [hdeps]
    exact ⟨fun dependency hdep => hclosed x.owner dependency hkeep ⟨m, hfind, hdep⟩,
      hmodest x.owner m hkeep hfind config made hmade _ hvisitor⟩

/-! ## Whole runs -/

section Options

variable {α β γ : Type} {rel rel' : α → β → Prop} {a : Option α} {b : Option β}

theorem rel_mono (h : Option.Rel rel a b) (himp : ∀ x y, rel x y → rel' x y) : Option.Rel rel' a b := by
  cases h with
  | none => exact .none
  | some hrel => exact .some (himp _ _ hrel)

theorem map_eq_map_of_rel {f : α → γ} {g : β → γ} (h : Option.Rel rel a b) (heq : ∀ x y, rel x y → f x = g y) :
    a.map f = b.map g := by
  cases h with
  | none => rfl
  | some hrel => exact congrArg some (heq _ _ hrel)

end Options

/-- The run for the kept rules follows the run for all rules: what is kept cannot be told apart in the moments to come, and
has been written at moments that are past. -/
structure World.Follows (keep : String → Bool) (past rest : List Moment) (w w' : World K Note) : Prop where
  states : ∀ tag : StateTag, keep tag.rule →
    Option.Rel (RuleState.SameFor rest) (w.states.find? tag) (w'.states.find? tag)
  reports : ∀ tag : StateTag, keep tag.rule →
    w.diagnostics.filter (·.tag = tag) = w'.diagnostics.filter (·.tag = tag)
  written : ∀ tag : StateTag, keep tag.rule → ∀ state', w'.states.find? tag = some state' →
    ∀ entry ∈ state'.history, ∃ m ∈ past, entry.1 ∈ m.path

namespace World.Follows

variable {past rest : List Moment} {m : Moment} {w w' : World K Note}

/-- Once the marks are worked out, the worlds agree on what is kept. -/
theorem refresh (h : Follows keep past (m :: rest) w w') {tag : StateTag} (hkeep : keep tag.rule) :
    (w.refresh m.node m.ancestry).AgreeOn (w'.refresh m.node m.ancestry) tag := by
  refine ⟨?_, h.reports tag hkeep⟩
  change (w.states.refresh m.node.id (m.ancestry.map Tree.id)).find? tag =
    (w'.states.refresh m.node.id (m.ancestry.map Tree.id)).find? tag
  rw [StateTable.find?_refresh, StateTable.find?_refresh]
  exact map_eq_map_of_rel (h.states tag hkeep) fun _ _ hsame => hsame.refresh List.mem_cons_self

/-- A moment at which nothing is delivered in either run. -/
theorem skip (h : Follows keep past (m :: rest) w w') : Follows keep (past ++ [m]) rest w w' := by
  refine ⟨fun tag hkeep => ?_, h.reports, fun tag hkeep state' hfind entry hentry => ?_⟩
  · exact rel_mono (h.states tag hkeep) fun _ _ hsame => hsame.mono (List.subset_cons_self _ _)
  · obtain ⟨x, hx, hpath⟩ := h.written tag hkeep state' hfind entry hentry
    exact ⟨x, List.mem_append_left _ hx, hpath⟩

/-- A moment at which something is delivered, but nothing for the kept rules. -/
theorem deliver_others (h : Follows keep past (m :: rest) w w') {w₁ : World K Note}
    (hbetween : ∀ x ∈ past, ∀ y ∈ rest, ∀ id ∈ x.path, id ∈ y.path → id ∈ m.path)
    (hagree : ∀ tag : StateTag, keep tag.rule → w₁.AgreeOn (w'.refresh m.node m.ancestry) tag) :
    Follows keep (past ++ [m]) rest w₁ w' := by
  refine ⟨fun tag hkeep => ?_, fun tag hkeep => (hagree tag hkeep).2, h.skip.written⟩
  rw [(hagree tag hkeep).1]
  change Option.Rel _ ((w'.states.refresh m.node.id (m.ancestry.map Tree.id)).find? tag) _
  rw [StateTable.find?_refresh]
  cases hfind : w'.states.find? tag with
  | none => exact .none
  | some state' =>
    refine .some (RuleState.sameFor_refresh fun entry hentry y hy hpath => ?_)
    obtain ⟨x, hx, hx'⟩ := h.written tag hkeep state' hfind entry hentry
    exact hbetween x hx y hy entry.1 hx' hpath

/-- A moment at which something is delivered for the kept rules. -/
theorem deliver (h : Follows keep past (m :: rest) w w') {source : Source} {ls' : List (Listener K Note)}
    {w₁ w₁' : World K Note}
    (hrun : Listener.runAll source m.direction m.node m.ancestry ls' (w'.refresh m.node m.ancestry) = .ok w₁')
    (hagree : ∀ tag : StateTag, keep tag.rule → w₁.AgreeOn w₁' tag) : Follows keep (past ++ [m]) rest w₁ w₁' := by
  refine ⟨fun tag hkeep => ?_, fun tag hkeep => (hagree tag hkeep).2, fun tag hkeep state₁ hfind entry hentry => ?_⟩
  · rw [(hagree tag hkeep).1]
    cases w₁'.states.find? tag with
    | none => exact .none
    | some state => exact .some (.refl rest state)
  · obtain ⟨state, hstate, hrecorded⟩ := Listener.runAll_recorded source hrun hfind
    rcases hrecorded entry hentry with heq | hentry
    · exact ⟨m, by simp, heq ▸ List.mem_cons_self⟩
    · change (w'.states.refresh m.node.id (m.ancestry.map Tree.id)).find? tag = some state at hstate
      rw [StateTable.find?_refresh] at hstate
      obtain ⟨state', hfind', rfl⟩ := Option.map_eq_some_iff.1 hstate
      exact h.skip.written tag hkeep state' hfind' entry (List.mem_filter.1 hentry).1

end World.Follows

theorem Listener.Remain.eq_nil {ls' : List (Listener K Note)} (h : Remain keep [] ls') : ls' = [] := by
  refine List.eq_nil_iff_forall_not_mem.2 fun l hl => ?_
  have hsame := h.same l.rule (h.kept l hl)
  have hin : l ∈ ls'.filter (·.rule = l.rule) := List.mem_filter.2 ⟨hl, by simp⟩
  rw [hsame] at hin
  exact absurd hin List.not_mem_nil

section Runs

variable {e e' : Engine K Note} {source : Source}
  (hsame : ∀ {d node ancestry es}, e.index.emissions d node ancestry = .ok es →
    ∃ es', e'.index.emissions d node ancestry = .ok es' ∧
      Listener.Remain keep (es.map (·.listener)) (es'.map (·.listener)))

include hsame

/-- Taking a moment keeps the runs together. -/
theorem Engine.take_follows {past rest : List Moment} {m : Moment} {w w' w₁ : World K Note} {n n₁ : Nat}
    (hbetween : ∀ x ∈ past, ∀ y ∈ rest, ∀ id ∈ x.path, id ∈ y.path → id ∈ m.path)
    (h : World.Follows keep past (m :: rest) w w') (hrun : Moment.take e.index source (w, n) m = .ok (w₁, n₁))
    (n' : Nat) : ∃ w₁' n₁', Moment.take e'.index source (w', n') m = .ok (w₁', n₁') ∧
      World.Follows keep (past ++ [m]) rest w₁ w₁' := by
  obtain ⟨es, v, hes, hv, heq⟩ := Moment.take_eq_ok_iff.1 hrun
  obtain ⟨es', hes', hremain⟩ := hsame hes
  obtain ⟨v', hv', hagree⟩ := hremain.runAll_agree (fun tag hkeep => h.refresh hkeep) hv
  obtain ⟨rfl, rfl⟩ := Prod.mk.inj heq
  refine ⟨_, _, Moment.take_eq_ok_iff.2 ⟨es', v', hes', hv', rfl⟩, ?_⟩
  cases es' with
  | nil =>
    cases hv'
    cases es with
    | nil => exact h.skip
    | cons x rest => exact h.deliver_others hbetween hagree
  | cons x' rest' =>
    cases es with
    | nil => exact absurd hremain.eq_nil (by simp)
    | cons x rest => exact h.deliver hv' hagree

/-- The run for the kept rules gets through the moments that the run for all rules gets through, and follows it. -/
theorem Engine.foldlM_take_follows {past rest : List Moment} {w w' w₁ : World K Note} {n n₁ : Nat}
    (hcontiguous : Moment.Contiguous (past ++ rest)) (h : World.Follows keep past rest w w')
    (hrun : rest.foldlM (Moment.take e.index source) (w, n) = .ok (w₁, n₁)) (n' : Nat) :
    ∃ w₁' n₁', rest.foldlM (Moment.take e'.index source) (w', n') = .ok (w₁', n₁') ∧
      World.Follows keep (past ++ rest) [] w₁ w₁' := by
  induction rest generalizing past w w' n n' with
  | nil =>
    cases hrun
    exact ⟨w', n', rfl, by rwa [List.append_nil]⟩
  | cons m rest ih =>
    obtain ⟨⟨v, k⟩, hm, hrest⟩ := foldlM_cons_eq_ok hrun
    obtain ⟨v', k', hm', hfollows⟩ := take_follows hsame (hcontiguous past m rest rfl) h hm n'
    rw [List.append_cons] at hcontiguous ⊢
    rw [foldlM_cons_of_ok rest hm']
    exact ih hcontiguous hfollows hrest k'

end Runs

/-- Rules do not disturb unrelated rules: if some rules need none of the others, then striking the others from the groups
leaves an engine that can be set up and gets through every run that the full engine gets through, and each instance of the
rules that are left ends with the same value and has reported the same. -/
theorem Engine.run_isolated {e : Engine K Note} {root : Tree} {source : Source} {report : Report K} (keep : String → Bool)
    (hclosed : ∀ rule dependency, keep rule → r.Declares rule dependency → keep dependency) (hmodest : r.Modest keep)
    (hids : (root.nodes.map Tree.id).Nodup) (hsetup : (Engine.setup r groups c).outcome = .ok e)
    (hrun : (e.run root source).outcome = .ok report) :
    ∃ e' report', (Engine.setup r (groups.map (Group.only keep)) c).outcome = .ok e' ∧
      (e'.run root source).outcome = .ok report' ∧
      ∀ tag : StateTag, keep tag.rule →
        (report'.states.find? tag).map (·.value) = (report.states.find? tag).map (·.value) ∧
        report'.diagnostics.filter (·.tag = tag) = report.diagnostics.filter (·.tag = tag) := by
  obtain ⟨e', hsetup', hremains⟩ := setup_only hsetup keep
  have hstart : World.Follows keep [] (root.moments []) ({ states := e.states } : World K Note) { states := e'.states } := by
    refine ⟨fun tag hkeep => ?_, fun _ _ => rfl, fun tag hkeep state hfind entry hentry => ?_⟩
    · rw [hremains.states tag hkeep]
      cases e.states.find? tag with
      | none => exact .none
      | some state => exact .some (.refl _ state)
    · rw [never_written hsetup' hfind] at hentry
      exact absurd hentry List.not_mem_nil
  rw [run_eq] at hrun
  cases hfold : (root.moments []).foldlM (Moment.take e.index source) ({ states := e.states }, 0) with
  | error halt =>
    rw [hfold] at hrun
    cases hrun
  | ok state =>
    obtain ⟨w, n⟩ := state
    rw [hfold] at hrun
    cases hrun
    obtain ⟨w', n', hfold', hfollows⟩ := foldlM_take_follows
      (fun hes => hremains.listeners hsetup hsetup' hclosed hmodest hes) (root.contiguous_moments [] hids) hstart hfold 0
    refine ⟨e', ⟨w'.states, w'.diagnostics, root.queue.length, n'⟩, hsetup', by rw [run_eq, hfold'], fun tag hkeep => ?_⟩
    refine ⟨(map_eq_map_of_rel (hfollows.states tag hkeep) fun _ _ hsame => hsame.value).symm, ?_⟩
    exact (hfollows.reports tag hkeep).symm

theorem Registry.eq_of_find?_counting {rule : String} {m : RuleModule PlainKind Unit} (h : counting.find? rule = some m) :
    m = .asking ∨ m = .count ∨ m = .apart := by
  unfold find? at h
  split at h
  · rename_i huser
    cases h
    have hvalue : m ∈ counting.user.values := List.mem_map.2 ⟨_, Dict.find?_eq_some_iff.1 huser, rfl⟩
    have hvalues : counting.user.values = [.asking, .count, .apart] := rfl
    simpa [hvalues] using hvalue
  · cases h

/-- A count and what asks for it do not change when a third rule is struck. -/
theorem Engine.run_isolated_counting : ∃ e report e' report',
    (setup Registry.counting [⟨"g", ["asking", "apart", "count"]⟩] {}).outcome = .ok e ∧
    (e.run (.node { name := "n", assigned := some 0 } [.node { name := "n", assigned := some 1 } []])
      (.ofText "")).outcome = .ok report ∧
    (setup Registry.counting ([⟨"g", ["asking", "apart", "count"]⟩].map (Group.only (· != "apart"))) {}).outcome = .ok e' ∧
    (e'.run (.node { name := "n", assigned := some 0 } [.node { name := "n", assigned := some 1 } []])
      (.ofText "")).outcome = .ok report' ∧
    (report'.states.find? (.shared "asking")).map (·.value) = (report.states.find? (.shared "asking")).map (·.value) := by
  have hok : ((setup Registry.counting [⟨"g", ["asking", "apart", "count"]⟩] {}).outcome.toOption.bind fun e =>
      (e.run (.node { name := "n", assigned := some 0 } [.node { name := "n", assigned := some 1 } []])
        (.ofText "")).outcome.toOption).isSome := by
    cbv
  obtain ⟨report, hreport⟩ := Option.isSome_iff_exists.1 hok
  obtain ⟨e, hsetup, hrun⟩ := Option.bind_eq_some_iff.1 hreport
  have hclosed : ∀ rule dependency, (rule != "apart") → Registry.counting.Declares rule dependency →
      (dependency != "apart") := by
    rintro rule dependency - ⟨m, hfind, hdep⟩
    rcases Registry.eq_of_find?_counting hfind with rfl | rfl | rfl
    · cases List.mem_singleton.1 hdep
      rfl
    · exact absurd hdep List.not_mem_nil
    · exact absurd hdep List.not_mem_nil
  have hmodest : Registry.counting.Modest (· != "apart") := by
    intro rule m _ hfind config made hmade v hv scene
    rcases Registry.eq_of_find?_counting hfind with rfl | rfl | rfl <;> cases hmade <;> cases List.mem_singleton.1 hv
    · refine ⟨List.mem_singleton.2 rfl, fun answer => ?_⟩
      cases answer with
      | error e => trivial
      | ok count => exact Script.within_finish ["count"]
    · exact Script.within_finish []
    · exact fun _ => trivial
  have hids : ((Tree.node { name := "n", assigned := some 0 } [.node { name := "n", assigned := some 1 } []]).nodes.map
      Tree.id).Nodup := by decide
  obtain ⟨e', report', hsetup', hrun', hsame⟩ := Engine.run_isolated (· != "apart") hclosed hmodest hids
    (eq_ok_of_toOption hsetup) (eq_ok_of_toOption hrun)
  exact ⟨e, report, e', report', eq_ok_of_toOption hsetup, eq_ok_of_toOption hrun, hsetup', hrun',
    (hsame (.shared "asking") rfl).1⟩

end RuleWalk
