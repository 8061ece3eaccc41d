import RuleWalk.Proofs.Restriction

/-!
# Two runs of one step

A step is taken twice: with the listeners of all rules, and with those of some rules that need none of the others. The two
interleave the listeners differently. But a script depends only on its own instance and on those of its dependencies, and
all listeners of a dependency have run in both when it starts. So each instance of a kept rule goes through the same states
and reports.
-/

namespace RuleWalk

variable {K : Type} [Kinds K] {Note : Type} {keep : String → Bool}

/-! ## Scripts -/

/-- The script asks for no other rules than those listed, whatever the answers. -/
def Script.Within (dependencies : List String) : Script K Note → Prop
  | .done => True
  | .fail _ => True
  | .read _ next => ∀ answer, (next answer).Within dependencies
  | .update _ _ next => ∀ answer, (next answer).Within dependencies
  | .request rule _ next => rule ∈ dependencies ∧ ∀ answer, (next answer).Within dependencies
  | .report _ _ _ next => next.Within dependencies
  | .note _ next => next.Within dependencies

theorem Script.within_finish (dependencies : List String) (answer : Except EngineError Unit) :
    (Script.finish answer : Script K Note).Within dependencies := by
  cases answer <;> trivial

/-- Two worlds agree on an instance: on its state and on what was reported for it. -/
def World.AgreeOn (w w' : World K Note) (tag : StateTag) : Prop :=
  w.states.find? tag = w'.states.find? tag ∧
    w.diagnostics.filter (·.tag = tag) = w'.diagnostics.filter (·.tag = tag)

theorem World.AgreeOn.trans {w w' w'' : World K Note} {tag : StateTag} (h : w.AgreeOn w' tag) (h' : w'.AgreeOn w'' tag) :
    w.AgreeOn w'' tag :=
  ⟨h.1.trans h'.1, h.2.trans h'.2⟩

theorem World.AgreeOn.symm {w w' : World K Note} {tag : StateTag} (h : w.AgreeOn w' tag) : w'.AgreeOn w tag :=
  ⟨h.1.symm, h.2.symm⟩

/-- A kept rule is asked for through the same group. -/
theorem Binding.find?_groups_only (b : Binding) {rule : String} (h : keep rule) :
    (b.only keep).groups.find? (·.members.contains rule) =
      (b.groups.find? (·.members.contains rule)).map (Membership.only keep) := by
  rw [Binding.only, List.find?_map]
  congr 2
  funext m
  rw [Function.comp_apply, Membership.only, Bool.eq_iff_iff, List.contains_iff_mem, List.contains_iff_mem, List.mem_filter]
  exact and_iff_left h

/-- What a request for a kept rule gives depends on the instances of that rule only. -/
theorem Binding.request_only (b : Binding) {states states' : StateTable K} {rule : String} (hkeep : keep rule)
    (h : ∀ tag : StateTag, tag.rule = rule → states.find? tag = states'.find? tag) (k : K) :
    b.request states rule k = (b.only keep).request states' rule k := by
  have hcontains : ∀ tag : StateTag, tag.rule = rule → states.contains tag = states'.contains tag := by
    intro tag htag
    rw [StateTable.contains, StateTable.contains, h tag htag]
  have hgroup : (b.only keep).group = b.group := by
    rw [Binding.group, Binding.group, Binding.only, List.head?_map, Option.map_map]
    rfl
  have hexternal : b.external states rule = (b.only keep).external states' rule := by
    rw [Binding.external, Binding.external, b.find?_groups_only hkeep, hgroup]
    cases b.groups.find? (·.members.contains rule) with
    | none => rfl
    | some membership =>
      simp only [Option.map_some, StateTable.tagFor?_eq, hcontains (.group rule membership.group) rfl,
        hcontains (.shared rule) rfl]
      rfl
  rw [Binding.request, Binding.request, hexternal]
  cases htag : (b.only keep).external states' rule with
  | error e => rfl
  | ok tag =>
    have hrule := (Binding.external_eq_ok htag).1
    simp only [StateTable.get, h tag hrule]

/-- A script goes the same way in worlds that agree on its instance and on those of its dependencies. -/
theorem Script.run_only {b : Binding} {scene : Scene} {script : Script K Note} (hwithin : script.Within b.dependencies)
    (hkeep : ∀ dependency ∈ b.dependencies, keep dependency) {w w' w₁ : World K Note}
    (hagree : ∀ tag, tag = b.tag ∨ tag.rule ∈ b.dependencies → w.AgreeOn w' tag) (hrun : script.run b scene w = .ok w₁) :
    ∃ w₁', script.run (b.only keep) scene w' = .ok w₁' ∧ w₁.AgreeOn w₁' b.tag := by
  induction script generalizing w w' with
  | done =>
    cases hrun
    exact ⟨w', rfl, hagree b.tag (Or.inl rfl)⟩
  | fail e => cases hrun
  | read k next ih =>
    have hread : w.states.read b.tag k = w'.states.read b.tag k := by
      rw [StateTable.read, StateTable.read, StateTable.get, StateTable.get, (hagree b.tag (Or.inl rfl)).1]
    rw [Script.run] at hrun ⊢
    rw [hread] at hrun
    exact ih _ (hwithin _) hagree hrun
  | update k f next ih =>
    rw [Script.run_update] at hrun ⊢
    rcases StateTable.updated_congr (hagree b.tag (Or.inl rfl)).1 k f scene.node.id scene.visit with
      ⟨u, u', hu, hu', hsame⟩ | ⟨e, he, he'⟩
    · rw [hu] at hrun
      rw [show (b.only keep).tag = b.tag from rfl, hu']
      refine ih _ (hwithin _) (fun tag htag => ?_) hrun
      exact ⟨hsame tag (hagree tag htag).1, (hagree tag htag).2⟩
    · rw [he] at hrun
      rw [show (b.only keep).tag = b.tag from rfl, he']
      exact ih _ (hwithin _) hagree hrun
  | request rule k next ih =>
    rw [Script.run] at hrun ⊢
    obtain ⟨hrule, hnext⟩ := hwithin
    rw [← b.request_only (hkeep rule hrule) (fun tag htag => (hagree tag (Or.inr (htag ▸ hrule))).1)]
    exact ih _ (hnext _) hagree hrun
  | report severity node message next ih =>
    rw [Script.run] at hrun ⊢
    refine ih hwithin ?_ hrun
    intro tag htag
    refine ⟨(hagree tag htag).1, ?_⟩
    rw [List.filter_append, List.filter_append, (hagree tag htag).2]
    rfl
  | note n next ih =>
    rw [Script.run] at hrun ⊢
    refine ih hwithin ?_ hrun
    exact fun tag htag => hagree tag htag

/-- A listener goes the same way in worlds that agree on its instance and on those of its dependencies. -/
theorem Listener.run_only {l : Listener K Note} {source : Source} {d : Direction} {node : Tree} {ancestry : List Tree}
    (hwithin : ∀ scene, (l.visitor.script scene).Within l.binding.dependencies)
    (hkeep : ∀ dependency ∈ l.binding.dependencies, keep dependency) {w w' w₁ : World K Note}
    (hagree : ∀ tag, tag = l.binding.tag ∨ tag.rule ∈ l.binding.dependencies → w.AgreeOn w' tag)
    (hrun : l.run source d node ancestry w = .ok w₁) :
    ∃ w₁', (l.only keep).run source d node ancestry w' = .ok w₁' ∧ w₁.AgreeOn w₁' l.binding.tag := by
  have hscene : (l.only keep).binding.scene source d node ancestry = l.binding.scene source d node ancestry := by
    simp [Binding.scene, Listener.only, Binding.only, Membership.only]
  rw [Listener.run, hscene]
  exact Script.run_only (hwithin _) hkeep hagree hrun

/-! ## The deliveries of one step -/

/-- The rule that a listener runs for. -/
def Listener.rule (l : Listener K Note) : String :=
  l.binding.tag.rule

/-- From a listener on, no listener is for a rule that it depends on. -/
def Listener.Ordered (ls : List (Listener K Note)) : Prop :=
  ∀ before l after, ls = before ++ l :: after → ∀ l' ∈ l :: after, l'.rule ∉ l.binding.dependencies

/-- The listeners of a step for the kept rules are those of the step for all rules, rule by rule. -/
structure Listener.Remain (keep : String → Bool) (ls ls' : List (Listener K Note)) : Prop where
  kept : ∀ l ∈ ls', keep l.rule
  same : ∀ rule, keep rule → ls'.filter (·.rule = rule) = (ls.filter (·.rule = rule)).map (Listener.only keep)
  ordered : Ordered ls
  ordered' : Ordered ls'
  within : ∀ l ∈ ls, keep l.rule → (∀ dependency ∈ l.binding.dependencies, keep dependency) ∧
    ∀ scene, (l.visitor.script scene).Within l.binding.dependencies

namespace Listener.Remain

variable {ls ls' : List (Listener K Note)}

/-- To each listener for the kept rules belongs one for all rules, behind as many of its rule. -/
theorem counterpart (h : Remain keep ls ls') {before' after' : List (Listener K Note)} {l' : Listener K Note}
    (hsplit : ls' = before' ++ l' :: after') :
    ∃ before l after, ls = before ++ l :: after ∧ l' = l.only keep ∧
      (before.filter (·.rule = l'.rule)).length = (before'.filter (·.rule = l'.rule)).length := by
  have hsame := h.same l'.rule (h.kept l' (by simp [hsplit]))
  rw [hsplit, List.filter_append, List.filter_cons_of_pos (by simp)] at hsame
  obtain ⟨first, rest, hls, hfirst, hrest⟩ := List.map_eq_append_iff.1 hsame.symm
  obtain ⟨l, last, rfl, hl, -⟩ := List.map_eq_cons_iff.1 hrest
  obtain ⟨front, back, rfl, hfront, hback⟩ := List.filter_eq_append_iff.1 hls
  obtain ⟨skipped, after, rfl, hskipped, -, -⟩ := List.filter_eq_cons_iff.1 hback
  refine ⟨front ++ skipped, l, after, by simp, hl.symm, ?_⟩
  have hnone : skipped.filter (·.rule = l'.rule) = [] := List.filter_eq_nil_iff.2 hskipped
  rw [List.filter_append, hnone, List.append_nil, hfront, ← hfirst, List.length_map]

/-- When a listener runs, all listeners of its dependencies have run. -/
theorem dependency_over {before after : List (Listener K Note)} {l : Listener K Note} (hordered : Ordered ls)
    (hsplit : ls = before ++ l :: after) {dependency : String} (hdep : dependency ∈ l.binding.dependencies) :
    before.filter (·.rule = dependency) = ls.filter (·.rule = dependency) := by
  have hnone : (l :: after).filter (·.rule = dependency) = [] := by
    refine List.filter_eq_nil_iff.2 fun l' hl' heq => ?_
    exact hordered before l after hsplit l' hl' (of_decide_eq_true heq ▸ hdep)
  rw [hsplit, List.filter_append, hnone, List.append_nil]

end Listener.Remain

/-- Of two beginnings of a list, one that has one more of a kind goes on with the next of that kind. -/
theorem beginning_of_length_filter {α : Type} {p : α → Bool} {before after before₂ after₂ : List α} {x : α}
    (heq : before₂ ++ after₂ = before ++ x :: after)
    (hlength : (before₂.filter p).length = (before.filter p).length + 1) (hx : p x) :
    ∃ more, before₂ = before ++ x :: more ∧ ∀ y ∈ more, ¬p y := by
  rcases List.append_eq_append_iff.1 heq with ⟨gap, rfl, -⟩ | ⟨more, rfl, hmore⟩
  · rw [List.filter_append, List.length_append] at hlength
    omega
  · cases more with
    | nil =>
      rw [List.append_nil] at hlength
      omega
    | cons y more =>
      rw [List.cons_append, List.cons.injEq] at hmore
      obtain ⟨rfl, -⟩ := hmore
      refine ⟨more, rfl, List.filter_eq_nil_iff.1 (List.eq_nil_of_length_eq_zero ?_)⟩
      rw [List.filter_append, List.length_append, List.filter_cons_of_pos hx, List.length_cons] at hlength
      omega

section Step

variable {source : Source} {d : Direction} {node : Tree} {ancestry : List Tree} {ls ls' : List (Listener K Note)}

/-- A listener leaves other instances alone. -/
theorem Listener.agreeOn_of_run (l : Listener K Note) {w w₁ : World K Note} {tag : StateTag} (h : tag ≠ l.binding.tag)
    (hrun : l.run source d node ancestry w = .ok w₁) : w₁.AgreeOn w tag := by
  have hframe := (l.run_changedFor source d node ancestry w).frame h
  rw [hrun] at hframe
  exact hframe

/-- Listeners of other rules leave the instances of a rule alone. -/
theorem Listener.agreeOn_of_runAll {w w₁ : World K Note} {tag : StateTag} (h : ∀ l ∈ ls, l.rule ≠ tag.rule)
    (hrun : runAll source d node ancestry ls w = .ok w₁) : w₁.AgreeOn w tag := by
  have htags : ∀ l ∈ ls, l.binding.tag ≠ tag := fun l hl heq => h l hl (congrArg StateTag.rule heq)
  have hframe : (Halt.last (runAll source d node ancestry ls w)).AgreeOn w tag := runAll_frame source htags w
  rw [hrun] at hframe
  exact hframe

variable (source d node ancestry)

/-- The run for the kept rules has come through some listeners to a world that agrees, on each instance of a kept rule, with
the run for all rules wherever that has come through as many listeners of the rule. -/
def Listener.InStep (keep : String → Bool) (ls : List (Listener K Note)) (w : World K Note) (before' : List (Listener K Note))
    (v' : World K Note) : Prop :=
  ∀ tag : StateTag, keep tag.rule → ∀ before after v, ls = before ++ after →
    (before.filter (·.rule = tag.rule)).length = (before'.filter (·.rule = tag.rule)).length →
    runAll source d node ancestry before w = .ok v → v.AgreeOn v' tag

variable {source d node ancestry}

/-- The run for the kept rules starts in step with the run for all rules. -/
theorem Listener.inStep_nil {w w' : World K Note} (hagree : ∀ tag : StateTag, keep tag.rule → w.AgreeOn w' tag) :
    InStep source d node ancestry keep ls w [] w' := by
  intro tag hkeep before after v _ hcount hv
  have hnone := List.filter_eq_nil_iff.1 (List.eq_nil_of_length_eq_zero hcount)
  refine (agreeOn_of_runAll (fun l hl heq => ?_) hv).trans (hagree tag hkeep)
  exact hnone l hl (decide_eq_true heq)

/-- One more listener keeps the runs in step. -/
theorem Listener.Remain.inStep_snoc (h : Remain keep ls ls') {w w₁ v' : World K Note}
    (hrun : runAll source d node ancestry ls w = .ok w₁) {before' after' : List (Listener K Note)} {l' : Listener K Note}
    (hsplit : ls' = before' ++ l' :: after') (hstep : InStep source d node ancestry keep ls w before' v') :
    ∃ v₁', l'.run source d node ancestry v' = .ok v₁' ∧ InStep source d node ancestry keep ls w (before' ++ [l']) v₁' := by
  have hkeep : keep l'.rule := h.kept l' (by simp [hsplit])
  obtain ⟨before, l, after, hls, rfl, hcount⟩ := h.counterpart hsplit
  obtain ⟨hdeps, hwithin⟩ := h.within l (by simp [hls]) hkeep
  have hthrough : runAll source d node ancestry (before ++ l :: after) w = .ok w₁ := hls ▸ hrun
  obtain ⟨v, hv, hrest⟩ := foldlM_append_eq_ok hthrough
  obtain ⟨v₁, hl, -⟩ := foldlM_cons_eq_ok hrest
  have hagree : ∀ tag, tag = l.binding.tag ∨ tag.rule ∈ l.binding.dependencies → v.AgreeOn v' tag := by
    rintro tag (rfl | hdep)
    · exact hstep l.binding.tag hkeep before _ v hls hcount hv
    · refine hstep tag (hdeps _ hdep) before _ v hls ?_ hv
      -- both runs have come through all listeners of the dependency
      rw [dependency_over h.ordered hls hdep, dependency_over h.ordered' hsplit hdep, h.same _ (hdeps _ hdep),
        List.length_map]
  obtain ⟨v₁', hl', hown⟩ := Listener.run_only hwithin hdeps hagree hl
  refine ⟨v₁', hl', fun tag hkeeptag before₂ after₂ v₂ hls₂ hcount₂ hv₂ => ?_⟩
  rw [List.filter_append, List.length_append] at hcount₂
  by_cases hrule : l.rule = tag.rule
  · have hown' : (l.only keep).rule = tag.rule := hrule
    have hlast : ([l.only keep].filter (·.rule = tag.rule)).length = 1 := by simp [hown']
    have hcount' : (before.filter (·.rule = tag.rule)).length =
        (before'.filter (·.rule = tag.rule)).length := by
      rw [← hrule]
      exact hcount
    rw [hlast, ← hcount'] at hcount₂
    obtain ⟨more, rfl, hmore⟩ := beginning_of_length_filter (hls₂.symm.trans hls) hcount₂ (decide_eq_true hrule)
    have hmid : runAll source d node ancestry more v₁ = .ok v₂ := by
      obtain ⟨u, hu, hrest₂⟩ := foldlM_append_eq_ok hv₂
      cases hv.symm.trans hu
      obtain ⟨u₁, hu₁, hrest₂⟩ := foldlM_cons_eq_ok hrest₂
      cases hl.symm.trans hu₁
      exact hrest₂
    have htail : v₂.AgreeOn v₁ tag := agreeOn_of_runAll (fun y hy heq => hmore y hy (decide_eq_true heq)) hmid
    by_cases htag : tag = l.binding.tag
    · exact htail.trans (htag ▸ hown)
    · have hsame := hstep tag hkeeptag before _ v hls hcount' hv
      have hother : v₁'.AgreeOn v' tag := (l.only keep).agreeOn_of_run htag hl'
      exact htail.trans ((l.agreeOn_of_run htag hl).trans (hsame.trans hother.symm))
  · have hother : (l.only keep).rule ≠ tag.rule := hrule
    have hlast : [l.only keep].filter (·.rule = tag.rule) = [] := by simp [hother]
    rw [hlast] at hcount₂
    have hne : tag ≠ (l.only keep).binding.tag := fun heq => hrule (congrArg StateTag.rule heq).symm
    exact (hstep tag hkeeptag before₂ after₂ v₂ hls₂ hcount₂ hv₂).trans ((l.only keep).agreeOn_of_run hne hl').symm

/-- The listeners for the kept rules run through, and leave the instances of kept rules as the listeners for all rules do. -/
theorem Listener.Remain.runAll_agree (h : Remain keep ls ls') {w w' w₁ : World K Note}
    (hagree : ∀ tag : StateTag, keep tag.rule → w.AgreeOn w' tag)
    (hrun : runAll source d node ancestry ls w = .ok w₁) :
    ∃ w₁', runAll source d node ancestry ls' w' = .ok w₁' ∧ ∀ tag : StateTag, keep tag.rule → w₁.AgreeOn w₁' tag := by
  have hall : ∀ before' after', ls' = before' ++ after' →
      ∃ v', runAll source d node ancestry before' w' = .ok v' ∧ InStep source d node ancestry keep ls w before' v' := by
    intro before'
    induction before' using List.reverseRecOn with
    | nil => exact fun after' _ => ⟨w', rfl, inStep_nil hagree⟩
    | append_singleton before' l' ih =>
      intro after' hsplit
      rw [List.append_assoc, List.singleton_append] at hsplit
      obtain ⟨v', hv', hstep⟩ := ih _ hsplit
      obtain ⟨v₁', hl', hnext⟩ := h.inStep_snoc hrun hsplit hstep
      refine ⟨v₁', ?_, hnext⟩
      rw [runAll, foldlM_append_of_ok [l'] hv', foldlM_cons_of_ok [] hl']
      rfl
  obtain ⟨w₁', hrun', hstep⟩ := hall ls' [] (List.append_nil _).symm
  refine ⟨w₁', hrun', fun tag hkeep => hstep tag hkeep ls [] w₁ (List.append_nil _).symm ?_ hrun⟩
  rw [h.same _ hkeep, List.length_map]

end Step

end RuleWalk
