import RuleWalk.Proofs.Course
import RuleWalk.Proofs.Progress

/-!
# Counting measures

The rule has one visitor, which adds one when a measure is entered. So each of its instances has counted the measures of the
whole tree in the end, whoever shares it and whatever runs beside it.
-/

namespace RuleWalk

variable {K : Type} [Kinds K] {Note : Type} {r : Registry (BundledKind K) Note} {groups : List Group} {c : Config}
  {cache : PatternCache} {e : Engine (BundledKind K) Note}

namespace MeasureCount

/-- A node is a measure. -/
def isMeasure (t : Tree) : Bool :=
  Text.sameName t.name "Measure"

/-- What the rule does at a moment. -/
def turn (shown : MeasureCount × List Diagnostic) (m : Moment) : MeasureCount × List Diagnostic :=
  if m.direction = .enter ∧ isMeasure m.node then (shown.1.next, shown.2) else shown

theorem hears_measure (script : Scene → Script (BundledKind K) Note) (d : Direction) (node : Tree) (ancestry : List Tree) :
    (⟨"Measure", script⟩ : Visitor (BundledKind K) Note).hears d node ancestry = (decide (d = .enter) && isMeasure node) := by
  have hsame : Text.sameName "Measure" node.name = isMeasure node := BEq.comm
  unfold Visitor.hears
  dsimp only
  rw [parse_measure]
  cases d <;> simp [Pattern.on, Pattern.holds, Pattern.ofSelector, Selector.matchesAt, hsame]

/-- The visitor of the rule, by what it hears and what it does. -/
theorem exists_visitor : ∃ v : Visitor (BundledKind K) Note, (rule : RuleModule (BundledKind K) Note).visitors = [v] ∧
    (∀ d node ancestry, v.hears d node ancestry = (decide (d = .enter) && isMeasure node)) ∧
    ∀ scene, v.script scene = .update .measureCount next .finish :=
  ⟨_, rfl, hears_measure _, fun _ => rfl⟩

theorem turns_rule (tag : StateTag) (source : Source) :
    (rule : RuleModule (BundledKind K) Note).Turns tag .measureCount source turn := by
  obtain ⟨v, hvisitors, hhears, hscript⟩ := @exists_visitor K _ Note
  intro x
  rw [hvisitors]
  by_cases hx : x.direction = .enter ∧ isMeasure x.node
  · refine Or.inr ⟨v, by simp [hhears, hx], fun b w w' shown hb hw hrun => ?_⟩
    rw [Listener.run, hscript] at hrun
    rw [turn, if_pos hx]
    exact hw.of_write hb hrun
  · exact Or.inl ⟨by simpa [hhears] using hx, fun shown => if_neg hx⟩

/-- Over a tree the turns count its measures. -/
theorem foldl_turn (root : Tree) :
    ((root.moments []).foldl turn ({}, [])).1 = ⟨root.nodes.countP isMeasure⟩ := by
  have henter : ∀ (shown : MeasureCount × List Diagnostic) node ancestry, (turn shown ⟨.enter, node, ancestry⟩).1.count =
      if isMeasure node then shown.1.count + 1 else shown.1.count := by
    intro shown node ancestry
    by_cases h : isMeasure node <;> simp [turn, next, h]
  have hleave : ∀ (shown : MeasureCount × List Diagnostic) node ancestry,
      (turn shown ⟨.leave, node, ancestry⟩).1.count = shown.1.count := by
    simp [turn]
  have hplaces := Tree.foldl_enters (fun shown : MeasureCount × List Diagnostic => shown.1.count)
    (fun n place => if isMeasure place.1 then n + 1 else n) henter hleave root [] ({}, [])
  have hcount : ∀ (places : List (Tree × List Tree)) (n : Nat),
      places.foldl (fun n place => if isMeasure place.1 then n + 1 else n) n =
        n + (places.map Prod.fst).countP isMeasure := by
    intro places
    induction places with
    | nil => exact fun n => rfl
    | cons place rest ih =>
      intro n
      rw [List.foldl_cons, ih, List.map_cons, List.countP_cons]
      split <;> omega
  rw [hcount, Nat.zero_add] at hplaces
  exact congrArg MeasureCount.mk hplaces

end MeasureCount

open MeasureCount in
/-- Every instance of the rule counts every measure once, at any depth and however its name is written: one that groups share
and one that a group has for itself, however often the rule is listed and whatever other rules run. -/
theorem Engine.measures_counted (hcache : cache.Made) (hrule : r.find? ruleId = some rule)
    (hsetup : (Engine.setupWith cache r groups c).outcome = .ok e) {root : Tree} {source : Source}
    {report : Report (BundledKind K)}
    (hrun : (e.run root source).outcome = .ok report) :
    (∀ g ∈ groups, ruleId ∈ g.rules → c.tag g.id ruleId ∈ e.tags) ∧
    ∀ tag ∈ e.tags, tag.rule = ruleId →
      report.state tag .measureCount = .ok ⟨root.nodes.countP fun t => Text.sameName t.name "Measure"⟩ := by
  refine ⟨fun g hg hlisted => Engine.tag_mem_tags hsetup hg hlisted, fun tag htag hid => ?_⟩
  have hinitial : (rule : RuleModule (BundledKind K) Note).initial = ⟨.measureCount, {}⟩ := rfl
  have hshown := Engine.run_shows hcache hsetup htag (hid ▸ hrule) rfl hinitial (turns_rule tag source) hrun
  rw [hshown.1, foldl_turn]
  rfl

/-- One instance is shared by two groups, of which one lists the rule twice, and one is private; a measure stands inside
another. -/
theorem Engine.measures_counted_nested : ∃ (e : Engine (BundledKind PlainKind) Unit) (report : Report (BundledKind PlainKind)),
    (setupWith .empty Registry.standard
      [⟨"g", ["measure-count", "line-naming", "measure-count"]⟩, ⟨"h", ["measure-count"]⟩, ⟨"i", ["measure-count"]⟩]
      { groups := [("h", [("measure-count", .bool true)])] }).outcome = .ok e ∧
    (e.run (.node { name := "Score" } [.node { name := "Measure" } [.node { name := "mEASURE" } []],
      .node { name := "Measures" } []]) (.ofText "")).outcome = .ok report ∧
    e.tags = [.shared "measure-count", .shared "line-naming", .group "measure-count" "h"] ∧
    report.state (.shared "measure-count") .measureCount = .ok ⟨2⟩ ∧
    report.state (.group "measure-count" "h") .measureCount = .ok ⟨2⟩ := by
  have htags : ((setupWith .empty (Registry.standard : Registry (BundledKind PlainKind) Unit)
      [⟨"g", ["measure-count", "line-naming", "measure-count"]⟩, ⟨"h", ["measure-count"]⟩, ⟨"i", ["measure-count"]⟩]
      { groups := [("h", [("measure-count", .bool true)])] }).outcome.toOption.map Engine.tags) =
      some [.shared "measure-count", .shared "line-naming", .group "measure-count" "h"] := by
    decide +kernel
  obtain ⟨e, hsetup, htags⟩ := Option.map_eq_some_iff.1 htags
  have hsetup := eq_ok_of_toOption hsetup
  obtain ⟨report, hrun⟩ := Engine.run_completes (fun _ _ _ => Registry.sure_standard) .empty hsetup
    (.node { name := "Score" } [.node { name := "Measure" } [.node { name := "mEASURE" } []], .node { name := "Measures" } []])
    (.ofText "")
  have hrule : (Registry.standard : Registry (BundledKind PlainKind) Unit).find? MeasureCount.ruleId =
      some MeasureCount.rule := by
    cbv
  have hcounted := (Engine.measures_counted .empty hrule hsetup hrun).2
  have hcount : (Tree.node { name := "Score" } [.node { name := "Measure" } [.node { name := "mEASURE" } []],
      .node { name := "Measures" } []]).nodes.countP (fun t => Text.sameName t.name "Measure") = 2 := by
    decide +kernel
  rw [hcount, htags] at hcounted
  exact ⟨e, report, hsetup, hrun, htags, hcounted _ (by decide) rfl, hcounted _ (by decide) rfl⟩

end RuleWalk
