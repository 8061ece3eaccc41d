import RuleWalk.Proofs.Course
import RuleWalk.Proofs.Progress

/-!
# Naming lines

The rule forgets all names when a block is entered, records a name when one is entered, and numbers the named lines when a block
is left. What is recorded and reported depends on the nodes in document order: at any time the names are those entered since the
last block, of which the first on each line counts. That the numbers are never out of date at the end is a matter of the tree:
names stand directly in blocks, so after the last of them a block is left.
-/

namespace RuleWalk

variable {K : Type} [Kinds K] {Note : Type}

/-! ## Maps of lines -/

/-- An insertion keeps the lines in increasing order. -/
theorem Assoc.sorted_insert {β : Type} (key : Nat) (value : β) {map : List (Nat × β)}
    (h : (Assoc.keys map).Pairwise (· < ·)) : (Assoc.keys (Assoc.insert key value map)).Pairwise (· < ·) := by
  have hincreasing : Assoc.Increasing map := h.imp Nat.compare_eq_lt.2
  exact (hincreasing.insert key value).imp Nat.compare_eq_lt.1

/-- Numbering a list and looking up a number is looking up a place. -/
theorem lookup_numbered {α : Type} (l : List α) (start i : Nat) :
    ((l.zipIdx start).map fun x => (x.2, x.1)).lookup (start + i) = l[i]? := by
  induction l generalizing start i with
  | nil => rfl
  | cons x rest ih =>
    rw [List.zipIdx_cons, List.map_cons, lookup_cons_eq]
    cases i with
    | zero => rw [if_pos (Nat.add_zero start), List.getElem?_cons_zero]
    | succ i =>
      rw [if_neg (by omega), List.getElem?_cons_succ, ← ih (start + 1) i, Nat.add_assoc, Nat.add_comm 1 i]

namespace LineNaming

/-! ## Blocks and names -/

/-- A node is a block in which lines are named. -/
def isBlock (t : Tree) : Bool :=
  Text.sameName t.name "LineNaming"

/-- A node at its place is the name of a line: it stands directly in a block. -/
def isName (place : Tree × List Tree) : Bool :=
  Text.sameName place.1.name "MeasureLineName" && place.2.head?.any isBlock

/-- The line on which a node starts. -/
def lineOf (source : Source) (t : Tree) : Option Nat :=
  t.ranges.head?.map fun range => (source.position range.start).line

/-- The text of a node, from the start of its first range to the end of its last, without white space. -/
def nameText (source : Source) (t : Tree) : String :=
  match t.ranges.head?, t.ranges.getLast? with
  | some first, some last => squeeze (source.slice first.start last.stop)
  | _, _ => squeeze ""

/-- The names entered since the last block. -/
def since (places : List (Tree × List Tree)) : List (Tree × List Tree) :=
  ((places.reverse.takeWhile fun place => !isBlock place.1).reverse).filter isName

/-- What is reported of a node after those before it: a name without a range, and one on a line that has a name already. -/
def remark (source : Source) (tag : StateTag) (earlier : List (Tree × List Tree)) (place : Tree × List Tree) :
    List Diagnostic :=
  if isName place then
    match place.1.ranges.head? with
    | none => [⟨tag, .warning, "line name has no source range", none⟩]
    | some range =>
      let position := source.position range.start
      if (since earlier).any (fun other => lineOf source other.1 = some position.line) then
        [⟨tag, .error, "multiple line names on line " ++ toString position.line, some position⟩]
      else []
  else []

/-- All that is reported, in document order. -/
def remarks (source : Source) (tag : StateTag) (places : List (Tree × List Tree)) : List Diagnostic :=
  places.zipIdx.flatMap fun x => remark source tag (places.take x.2) x.1

/-- A block is no name. -/
theorem isName_of_isBlock {t : Tree} (h : isBlock t) (ancestry : List Tree) : isName (t, ancestry) = false := by
  have hne : Text.sameName t.name "MeasureLineName" = false := by
    rw [isBlock, Text.sameName, beq_iff_eq] at h
    rw [Text.sameName, h]
    decide +kernel
  rw [isName, hne, Bool.false_and]

theorem since_concat (places : List (Tree × List Tree)) (place : Tree × List Tree) :
    since (places ++ [place]) =
      if isBlock place.1 then [] else if isName place then since places ++ [place] else since places := by
  unfold since
  rw [List.reverse_append, List.reverse_singleton, List.singleton_append, List.takeWhile_cons]
  cases hblock : isBlock place.1 with
  | true => rfl
  | false => cases hname : isName place <;> simp [hname]

/-- After the last block the names are those behind it. -/
theorem since_of_last {before after : List (Tree × List Tree)} {block : Tree × List Tree} (hblock : isBlock block.1)
    (hlast : ∀ place ∈ after, isBlock place.1 = false) : since (before ++ block :: after) = after.filter isName := by
  induction after using List.reverseRecOn with
  | nil => rw [since_concat, if_pos hblock, List.filter_nil]
  | append_singleton after place ih =>
    rw [← List.cons_append, ← List.append_assoc, since_concat, hlast place (by simp),
      ih fun other hother => hlast other (List.mem_append_left _ hother), List.filter_append]
    cases hname : isName place <;> simp [hname]

theorem remarks_concat (source : Source) (tag : StateTag) (places : List (Tree × List Tree)) (place : Tree × List Tree) :
    remarks source tag (places ++ [place]) = remarks source tag places ++ remark source tag places place := by
  have hearlier : places.zipIdx.flatMap (fun x => remark source tag ((places ++ [place]).take x.2) x.1) =
      places.zipIdx.flatMap fun x => remark source tag (places.take x.2) x.1 := by
    refine List.flatMap_congr fun x hx => ?_
    have hlt := List.snd_lt_of_mem_zipIdx hx
    rw [List.take_append_of_le_length (by omega)]
  unfold remarks
  rw [List.zipIdx_append, List.flatMap_append, hearlier]
  simp

/-! ## Turns -/

/-- What a name does to the names and the reports so far. -/
def note (source : Source) (tag : StateTag) (seen : List (Nat × String) × List Diagnostic) (node : Tree) :
    List (Nat × String) × List Diagnostic :=
  match node.ranges.head? with
  | none => (seen.1, seen.2 ++ [⟨tag, .warning, "line name has no source range", none⟩])
  | some range =>
    let position := source.position range.start
    if (seen.1.lookup position.line).isSome then
      (seen.1, seen.2 ++ [⟨tag, .error, "multiple line names on line " ++ toString position.line, some position⟩])
    else (Assoc.insert position.line (nameText source node) seen.1, seen.2)

/-- What entering a node does to the names and the reports so far. -/
def step (source : Source) (tag : StateTag) (seen : List (Nat × String) × List Diagnostic) (place : Tree × List Tree) :
    List (Nat × String) × List Diagnostic :=
  if isBlock place.1 then ([], seen.2) else if isName place then note source tag seen place.1 else seen

/-- What the rule does at a moment. -/
def turn (source : Source) (tag : StateTag) (shown : LineNaming × List Diagnostic) (m : Moment) :
    LineNaming × List Diagnostic :=
  match m.direction with
  | .enter =>
    if isBlock m.node then ({}, shown.2)
    else if isName (m.node, m.ancestry) then
      let seen := note source tag (shown.1.naming, shown.2) m.node
      ({ shown.1 with naming := seen.1 }, seen.2)
    else shown
  | .leave => if isBlock m.node then (shown.1.enumerate, shown.2) else shown

theorem hears_block (script : Scene → Script (BundledKind K) Note) (d : Direction) (node : Tree) (ancestry : List Tree) :
    (⟨"LineNaming", script⟩ : Visitor (BundledKind K) Note).hears d node ancestry = (decide (d = .enter) && isBlock node) := by
  have hsame : Text.sameName "LineNaming" node.name = isBlock node := BEq.comm
  simp only [Visitor.hears, parse_block]
  cases d <;> simp [Pattern.on, Pattern.holds, Pattern.ofSelector, Selector.matchesAt, hsame]

theorem hears_exit (script : Scene → Script (BundledKind K) Note) (d : Direction) (node : Tree) (ancestry : List Tree) :
    (⟨"LineNaming:exit", script⟩ : Visitor (BundledKind K) Note).hears d node ancestry =
      (decide (d = .leave) && isBlock node) := by
  have hsame : Text.sameName "LineNaming" node.name = isBlock node := BEq.comm
  simp only [Visitor.hears, parse_exit]
  cases d <;> simp [Pattern.on, Pattern.holds, Pattern.ofSelector, Selector.matchesAt, hsame]

theorem hears_name (script : Scene → Script (BundledKind K) Note) (d : Direction) (node : Tree) (ancestry : List Tree) :
    (⟨"LineNaming > MeasureLineName", script⟩ : Visitor (BundledKind K) Note).hears d node ancestry =
      (decide (d = .enter) && isName (node, ancestry)) := by
  have hblock : ∀ t : Tree, Text.sameName "LineNaming" t.name = isBlock t := fun t => BEq.comm
  have hname : Text.sameName "MeasureLineName" node.name = Text.sameName node.name "MeasureLineName" := BEq.comm
  simp only [Visitor.hears, parse_name, isName, ← hname]
  cases d with
  | leave => rfl
  | enter =>
    cases hsame : Text.sameName "MeasureLineName" node.name <;> cases ancestry <;>
      simp [Pattern.on, Pattern.holds, Pattern.ofSelector, Selector.matchesAt, hsame, hblock]

theorem squeeze_nodeText (scene : Scene) : squeeze scene.nodeText = nameText scene.source scene.node := by
  rw [Scene.nodeText, nameText]
  cases scene.node.ranges.head? <;> cases scene.node.ranges.getLast? <;> rfl

/-- Recording a name notes it. -/
theorem shows_recordName {tag : StateTag} {w w' : World (BundledKind K) Note} {shown : LineNaming × List Diagnostic}
    (h : w.Shows tag .lineNaming shown) {b : Binding} (hb : b.tag = tag) {scene : Scene}
    (hrun : (recordName scene).run b scene w = .ok w') :
    w'.Shows tag .lineNaming ({ shown.1 with naming := (note scene.source tag (shown.1.naming, shown.2) scene.node).1 },
      (note scene.source tag (shown.1.naming, shown.2) scene.node).2) := by
  unfold recordName at hrun
  unfold note
  cases hranges : scene.node.ranges with
  | nil =>
    rw [hranges] at hrun
    simpa [hranges] using h.of_report hb hrun
  | cons range more =>
    rw [hranges] at hrun
    dsimp only at hrun
    rw [h.run_read hb] at hrun
    dsimp only [List.head?_cons] at hrun ⊢
    split at hrun
    · rename_i hnamed
      rw [if_pos hnamed]
      simpa [hranges] using h.of_report hb hrun
    · rename_i hnamed
      rw [if_neg hnamed, ← squeeze_nodeText]
      exact h.of_write hb hrun

/-- The visitors of the rule, by what they hear and what they do. -/
theorem exists_visitors : ∃ enter name leave : Visitor (BundledKind K) Note,
    (rule : RuleModule (BundledKind K) Note).visitors = [enter, name, leave] ∧
    (∀ d node ancestry, enter.hears d node ancestry = (decide (d = .enter) && isBlock node)) ∧
    (∀ d node ancestry, name.hears d node ancestry = (decide (d = .enter) && isName (node, ancestry))) ∧
    (∀ d node ancestry, leave.hears d node ancestry = (decide (d = .leave) && isBlock node)) ∧
    (∀ scene, enter.script scene = .update .lineNaming (fun _ => {}) .finish) ∧
    (∀ scene, name.script scene = recordName scene) ∧
    ∀ scene, leave.script scene = .update .lineNaming enumerate .finish :=
  ⟨_, _, _, rfl, hears_block _, hears_name _, hears_exit _, fun _ => rfl, fun _ => rfl, fun _ => rfl⟩

/-- At every moment at most one of the visitors is called, since a block is no name. -/
theorem turns_rule (tag : StateTag) (source : Source) :
    (rule : RuleModule (BundledKind K) Note).Turns tag .lineNaming source (turn source tag) := by
  obtain ⟨enter, name, leave, hvisitors, henter, hname, hleave, hreset, hrecord, hnumber⟩ := @exists_visitors K _ Note
  rintro ⟨direction, node, ancestry⟩
  rw [hvisitors]
  simp only [List.filter_cons, List.filter_nil, henter, hname, hleave]
  cases direction with
  | enter =>
    cases hblock : isBlock node with
    | true =>
      refine Or.inr ⟨enter, by simp [isName_of_isBlock hblock ancestry], fun b w w' shown hb hw hrun => ?_⟩
      rw [Listener.run, hreset] at hrun
      simpa [turn, hblock] using hw.of_write hb hrun
    | false =>
      cases hnamed : isName (node, ancestry) with
      | true =>
        refine Or.inr ⟨name, by simp, fun b w w' shown hb hw hrun => ?_⟩
        rw [Listener.run, hrecord] at hrun
        simpa [turn, hblock, hnamed, Binding.scene] using shows_recordName hw hb hrun
      | false => exact Or.inl ⟨by simp, fun shown => by simp [turn, hblock, hnamed]⟩
  | leave =>
    cases hblock : isBlock node with
    | true =>
      refine Or.inr ⟨leave, by simp, fun b w w' shown hb hw hrun => ?_⟩
      rw [Listener.run, hnumber] at hrun
      simpa [turn, hblock] using hw.of_write hb hrun
    | false => exact Or.inl ⟨by simp, fun shown => by simp [turn, hblock]⟩

/-! ## Names and reports over a tree -/

theorem foldl_turn_seen (source : Source) (tag : StateTag) (root : Tree) :
    (((root.moments []).foldl (turn source tag) ({}, [])).1.naming,
      ((root.moments []).foldl (turn source tag) ({}, [])).2) = (root.places []).foldl (step source tag) ([], []) := by
  have henter : ∀ (shown : LineNaming × List Diagnostic) node ancestry,
      ((turn source tag shown ⟨.enter, node, ancestry⟩).1.naming, (turn source tag shown ⟨.enter, node, ancestry⟩).2) =
        step source tag (shown.1.naming, shown.2) (node, ancestry) := by
    intro shown node ancestry
    cases hblock : isBlock node <;> cases hname : isName (node, ancestry) <;> simp [turn, step, hblock, hname]
  have hleave : ∀ (shown : LineNaming × List Diagnostic) node ancestry,
      ((turn source tag shown ⟨.leave, node, ancestry⟩).1.naming, (turn source tag shown ⟨.leave, node, ancestry⟩).2) =
        (shown.1.naming, shown.2) := by
    intro shown node ancestry
    cases hblock : isBlock node <;> simp [turn, enumerate, hblock]
  exact Tree.foldl_enters (fun shown : LineNaming × List Diagnostic => (shown.1.naming, shown.2)) (step source tag) henter
    hleave root [] ({}, [])

/-- What is known of the names and the reports after some nodes: the lines are in increasing order, each has the first of the
names since the last block, and what there was to report has been reported. -/
structure Seen (source : Source) (tag : StateTag) (places : List (Tree × List Tree))
    (seen : List (Nat × String) × List Diagnostic) : Prop where
  sorted : (Assoc.keys seen.1).Pairwise (· < ·)
  first : ∀ line, seen.1.lookup line =
    ((since places).find? fun place => lineOf source place.1 = some line).map fun place => nameText source place.1
  reports : seen.2 = remarks source tag places

section Seen

variable {source : Source} {tag : StateTag} {places : List (Tree × List Tree)} {place : Tree × List Tree}
  {seen : List (Nat × String) × List Diagnostic}

/-- A line has a name if one of those since the last block starts on it. -/
theorem Seen.isSome_lookup (h : Seen source tag places seen) (line : Nat) :
    (seen.1.lookup line).isSome = (since places).any fun other => lineOf source other.1 = some line := by
  rw [h.first, Option.isSome_map, Bool.eq_iff_iff, List.find?_isSome, List.any_eq_true]

/-- A name without a range is reported and not recorded. -/
theorem Seen.note_unranged (h : Seen source tag places seen) (hblock : isBlock place.1 = false) (hname : isName place)
    (hrange : place.1.ranges.head? = none) : Seen source tag (places ++ [place]) (note source tag seen place.1) := by
  have hline : lineOf source place.1 = none := by rw [lineOf, hrange]; rfl
  rw [note, hrange]
  refine ⟨h.sorted, fun line => ?_, ?_⟩
  · rw [since_concat, hblock, hname, h.first]
    simp [hline]
  · rw [remarks_concat, remark, if_pos hname, hrange, h.reports]

/-- The first name on a line, with one more name. -/
theorem find?_since_concat (hblock : isBlock place.1 = false) (hname : isName place) {range : Range}
    (hrange : place.1.ranges.head? = some range) (line : Nat) :
    (since (places ++ [place])).find? (fun other => lineOf source other.1 = some line) =
      ((since places).find? fun other => lineOf source other.1 = some line).or
        (if line = (source.position range.start).line then some place else none) := by
  have hline : lineOf source place.1 = some (source.position range.start).line := by rw [lineOf, hrange]; rfl
  rw [since_concat, hblock, hname]
  simp [List.find?_append, List.find?_singleton, hline, eq_comm]

/-- A name on a line that has one is reported and not recorded. -/
theorem Seen.note_repeated (h : Seen source tag places seen) (hblock : isBlock place.1 = false) (hname : isName place)
    {range : Range} (hrange : place.1.ranges.head? = some range)
    (hnamed : (seen.1.lookup (source.position range.start).line).isSome) :
    Seen source tag (places ++ [place]) (note source tag seen place.1) := by
  have hany := h.isSome_lookup (source.position range.start).line
  rw [hnamed] at hany
  rw [note, hrange]
  dsimp only
  rw [if_pos hnamed]
  refine ⟨h.sorted, fun line => ?_, ?_⟩
  · rw [find?_since_concat hblock hname hrange, h.first]
    split
    · rename_i heq
      rw [h.first, Option.isSome_map, ← heq] at hnamed
      rw [Option.or_of_isSome hnamed]
    · rw [Option.or_none]
  · rw [remarks_concat, remark, if_pos hname, hrange, h.reports]
    dsimp only
    rw [if_pos hany.symm]

/-- The first name on a line is recorded. -/
theorem Seen.note_first (h : Seen source tag places seen) (hblock : isBlock place.1 = false) (hname : isName place)
    {range : Range} (hrange : place.1.ranges.head? = some range)
    (hnamed : ¬(seen.1.lookup (source.position range.start).line).isSome) :
    Seen source tag (places ++ [place]) (note source tag seen place.1) := by
  have hany := h.isSome_lookup (source.position range.start).line
  rw [note, hrange]
  dsimp only
  rw [if_neg hnamed]
  refine ⟨Assoc.sorted_insert _ _ h.sorted, fun line => ?_, ?_⟩
  · rw [find?_since_concat hblock hname hrange, Assoc.lookup_insert, h.first]
    split
    · rename_i heq
      rw [h.first, Option.isSome_map, ← heq, Option.not_isSome_iff_eq_none] at hnamed
      rw [hnamed]
      rfl
    · rw [Option.or_none]
  · rw [remarks_concat, remark, if_pos hname, hrange, h.reports]
    dsimp only
    rw [if_neg (hany ▸ hnamed), List.append_nil]

theorem Seen.step (h : Seen source tag places seen) : Seen source tag (places ++ [place]) (step source tag seen place) := by
  unfold LineNaming.step
  split
  · rename_i hblock
    refine ⟨List.Pairwise.nil, fun line => ?_, ?_⟩
    · rw [since_concat, if_pos hblock]
      rfl
    · have hname : isName place = false := isName_of_isBlock hblock place.2
      rw [remarks_concat, remark, hname, h.reports]
      simp
  · rename_i hblock
    have hblock : isBlock place.1 = false := by simpa using hblock
    split
    · rename_i hname
      cases hrange : place.1.ranges.head? with
      | none => exact h.note_unranged hblock hname hrange
      | some range =>
        by_cases hnamed : (seen.1.lookup (source.position range.start).line).isSome
        · exact h.note_repeated hblock hname hrange hnamed
        · exact h.note_first hblock hname hrange hnamed
    · rename_i hname
      refine ⟨h.sorted, fun line => ?_, ?_⟩
      · rw [since_concat, hblock, if_neg hname, h.first]
        rfl
      · rw [remarks_concat, remark, if_neg hname, List.append_nil, h.reports]

theorem seen_foldl (source : Source) (tag : StateTag) (places : List (Tree × List Tree)) :
    Seen source tag places (places.foldl (LineNaming.step source tag) ([], [])) := by
  induction places using List.reverseRecOn with
  | nil => exact ⟨List.Pairwise.nil, fun line => rfl, rfl⟩
  | append_singleton places place ih =>
    rw [List.foldl_concat]
    exact ih.step

end Seen

/-! ## Numbers of lines -/

/-- The named lines are numbered as they stand. -/
def Numbered (s : LineNaming) : Prop :=
  s.enumerate = s

theorem numbered_enumerate (s : LineNaming) : s.enumerate.Numbered :=
  rfl

section Numbered

variable (source : Source) (tag : StateTag)

/-- After a block the lines are numbered. -/
theorem numbered_block {t : Tree} (h : isBlock t) (ancestry : List Tree) (shown : LineNaming × List Diagnostic) :
    ((t.moments ancestry).foldl (turn source tag) shown).1.Numbered := by
  cases t with
  | node label children =>
    rw [Tree.moments, List.foldl_cons, List.foldl_concat, turn]
    dsimp only
    rw [if_pos h]
    exact numbered_enumerate _

mutual

/-- A tree that does not stand directly in a block leaves the lines numbered. -/
theorem numbered_moments (t : Tree) (ancestry : List Tree) (hparent : ancestry.head?.any isBlock = false)
    (shown : LineNaming × List Diagnostic) (h : shown.1.Numbered) :
    ((t.moments ancestry).foldl (turn source tag) shown).1.Numbered := by
  cases hblock : isBlock t with
  | true => exact numbered_block source tag hblock ancestry shown
  | false =>
    cases t with
    | node label children =>
      have hname : isName (.node label children, ancestry) = false := by simp [isName, hparent]
      have henter : turn source tag shown ⟨.enter, .node label children, ancestry⟩ = shown := by simp [turn, hblock, hname]
      have hleave : ∀ shown, turn source tag shown ⟨.leave, .node label children, ancestry⟩ = shown := by
        simp [turn, hblock]
      rw [Tree.moments, List.foldl_cons, List.foldl_concat, henter, hleave]
      exact numbered_momentsAll children _ (by simpa using hblock) shown h

theorem numbered_momentsAll (ts : List Tree) (ancestry : List Tree) (hparent : ancestry.head?.any isBlock = false)
    (shown : LineNaming × List Diagnostic) (h : shown.1.Numbered) :
    ((Tree.momentsAll ancestry ts).foldl (turn source tag) shown).1.Numbered := by
  cases ts with
  | nil => exact h
  | cons t rest =>
    rw [Tree.momentsAll, List.foldl_append]
    exact numbered_momentsAll rest ancestry hparent _ (numbered_moments t ancestry hparent shown h)

end

end Numbered

/-- Looking up a number gives the named line with so many below it. -/
theorem Numbered.absoluteLine?_eq {s : LineNaming} (h : s.Numbered) (i : Nat) :
    s.absoluteLine? i = (Assoc.keys s.naming)[i]? := by
  have habsolute := congrArg LineNaming.absolute h
  rw [absoluteLine?, ← habsolute]
  have hlookup := lookup_numbered (Assoc.keys s.naming) 0 i
  rw [Nat.zero_add] at hlookup
  exact hlookup

/-- A name stands in a block, so where there are no blocks there are no names. -/
theorem isName_of_no_block {root : Tree} (h : ∀ t ∈ root.nodes, isBlock t = false) {place : Tree × List Tree}
    (hplace : place ∈ root.places []) : isName place = false := by
  obtain ⟨node, ancestry⟩ := place
  cases ancestry with
  | nil => simp [isName]
  | cons parent above =>
    have hparent : (parent, above) ∈ root.places [] := by
      rcases Tree.mem_places_of_suffix root hplace (List.suffix_cons node (parent :: above)) with hmem | habsurd
      · exact hmem
      · exact absurd (List.suffix_nil.1 habsurd) (List.cons_ne_nil _ _)
    simp [isName, h parent (List.mem_map_of_mem hparent)]

theorem foldl_step_of_no_block (source : Source) (tag : StateTag) {root : Tree} (h : ∀ t ∈ root.nodes, isBlock t = false) :
    (root.places []).foldl (step source tag) ([], []) = ([], []) := by
  have hall : ∀ places : List (Tree × List Tree), places ⊆ root.places [] →
      places.foldl (step source tag) ([], []) = ([], []) := by
    intro places hsub
    induction places with
    | nil => rfl
    | cons place rest ih =>
      have hplace := hsub List.mem_cons_self
      have hblock := h place.1 (List.mem_map_of_mem hplace)
      rw [List.foldl_cons, step, hblock, isName_of_no_block h hplace]
      exact ih fun _ hmem => hsub (List.mem_cons_of_mem _ hmem)
  exact hall _ (List.Subset.refl _)

end LineNaming

section Engines

open LineNaming

variable {r : Registry (BundledKind K) Note} {groups : List Group} {c : Config} {cache : PatternCache}
  {e : Engine (BundledKind K) Note}

/-- What an instance of the rule ends with: its names and reports come about over the nodes in document order, and its lines are
numbered as they stand. -/
theorem Engine.lineNaming_of_run (hcache : cache.Made) (hrule : r.find? ruleId = some rule)
    (hsetup : (Engine.setupWith cache r groups c).outcome = .ok e) {root : Tree} {source : Source}
    {report : Report (BundledKind K)}
    (hrun : (e.run root source).outcome = .ok report) {tag : StateTag} (htag : tag ∈ e.tags) (hid : tag.rule = ruleId) :
    ∃ state : LineNaming, report.state tag .lineNaming = .ok state ∧ state.Numbered ∧
      (root.places []).foldl (step source tag) ([], []) = (state.naming, report.diagnostics.filter (·.tag = tag)) := by
  have hinitial : (rule : RuleModule (BundledKind K) Note).initial = ⟨.lineNaming, {}⟩ := rfl
  obtain ⟨hstate, hreports⟩ := Engine.run_shows hcache hsetup htag (hid ▸ hrule) rfl hinitial (turns_rule tag source) hrun
  refine ⟨_, hstate, numbered_moments source tag root [] rfl ({}, []) rfl, ?_⟩
  rw [← foldl_turn_seen, hreports]

/-- What the instances of the rule end with after a run. Without a block there are no names, no numbers and no reports. Else the
names are those of the lines on which names with a range start that were entered after the last block: of each such line the
first, without white space. The named lines are numbered from zero in increasing order. Reported is one error for each name that
starts on a line which had a name since the block entered last before it, one warning for each name without a range, and nothing
else. -/
theorem Engine.lines_named (hcache : cache.Made) (hrule : r.find? ruleId = some rule)
    (hsetup : (Engine.setupWith cache r groups c).outcome = .ok e) {root : Tree} {source : Source}
    {report : Report (BundledKind K)}
    (hrun : (e.run root source).outcome = .ok report) :
    (∀ g ∈ groups, ruleId ∈ g.rules → c.tag g.id ruleId ∈ e.tags) ∧
    ∀ tag ∈ e.tags, tag.rule = ruleId → ∃ state : LineNaming, report.state tag .lineNaming = .ok state ∧
      ((∀ t ∈ root.nodes, isBlock t = false) → state = {} ∧ report.diagnostics.filter (·.tag = tag) = []) ∧
      (∀ before block after, root.places [] = before ++ block :: after → isBlock block.1 →
        (∀ place ∈ after, isBlock place.1 = false) →
        (Assoc.keys state.naming).Pairwise (· < ·) ∧
        (∀ line, state.naming.lookup line = ((after.filter isName).find? fun place => lineOf source place.1 = some line).map
          fun place => nameText source place.1) ∧
        state.absolute = (Assoc.keys state.naming).zipIdx.map (fun x => (x.2, x.1)) ∧
        ∀ i, state.absoluteLine? i = (Assoc.keys state.naming)[i]?) ∧
      report.diagnostics.filter (·.tag = tag) = remarks source tag (root.places []) := by
  refine ⟨fun g hg hlisted => Engine.tag_mem_tags hsetup hg hlisted, fun tag htag hid => ?_⟩
  obtain ⟨state, hstate, hnumbered, hfold⟩ := Engine.lineNaming_of_run hcache hrule hsetup hrun htag hid
  have hseen := seen_foldl source tag (root.places [])
  rw [hfold] at hseen
  have habsolute : state.absolute = (Assoc.keys state.naming).zipIdx.map (fun x => (x.2, x.1)) :=
    (congrArg LineNaming.absolute hnumbered).symm
  refine ⟨state, hstate, fun hnone => ?_, fun before block after hsplit hblock hlast => ?_, hseen.reports⟩
  · rw [foldl_step_of_no_block source tag hnone] at hfold
    obtain ⟨hnaming, hreports⟩ := Prod.mk.inj hfold
    rw [← hnaming] at habsolute
    obtain ⟨naming, absolute⟩ := state
    cases hnaming
    cases habsolute
    exact ⟨rfl, hreports.symm⟩
  · refine ⟨hseen.sorted, fun line => ?_, habsolute, hnumbered.absoluteLine?_eq⟩
    rw [hseen.first, hsplit, since_of_last hblock hlast]

end Engines

theorem Registry.find?_lineNaming :
    (Registry.standard : Registry (BundledKind PlainKind) Unit).find? LineNaming.ruleId = some LineNaming.rule := by
  cbv

/-- An engine for the rule alone can be set up, and its runs get through. -/
theorem Engine.exists_naming : ∃ e : Engine (BundledKind PlainKind) Unit,
    (setupWith .empty Registry.standard [⟨"g", ["line-naming"]⟩] {}).outcome = .ok e ∧ .shared "line-naming" ∈ e.tags ∧
    ∀ root source, ∃ report, (e.run root source).outcome = .ok report := by
  have htags : ((setupWith .empty (Registry.standard : Registry (BundledKind PlainKind) Unit)
      [⟨"g", ["line-naming"]⟩] {}).outcome.toOption.map Engine.tags) = some [.shared "line-naming"] := by
    decide +kernel
  obtain ⟨e, hsetup, htags⟩ := Option.map_eq_some_iff.1 htags
  have hsetup := eq_ok_of_toOption hsetup
  refine ⟨e, hsetup, ?_, Engine.run_completes (fun _ _ _ => Registry.sure_standard) .empty hsetup⟩
  rw [htags]
  exact List.mem_singleton_self _

/-- A staff whose lines are named twice: in the second block a line has two names and a name has no range. -/
def LineNaming.staff : Tree :=
  .node { name := "Score", ordinal := 0 } [
    .node { name := "LineNaming", ordinal := 1 } [.node { name := "MeasureLineName", ranges := [⟨20, 21⟩], ordinal := 2 } []],
    .node { name := "linenaming", ordinal := 3 } [
      .node { name := "MeasureLineName", ranges := [⟨10, 12⟩], ordinal := 4 } [],
      .node { name := "MeasureLineName", ranges := [⟨0, 1⟩, ⟨1, 2⟩], ordinal := 5 } [],
      .node { name := "MeasureLineName", ranges := [⟨13, 14⟩], ordinal := 6 } [],
      .node { name := "MeasureLineName", ordinal := 7 } []]]

open LineNaming in
/-- Of the first block nothing is left, and of two names on a line the first counts. -/
theorem Engine.lines_named_staff : ∃ (e : Engine (BundledKind PlainKind) Unit) (report : Report (BundledKind PlainKind))
    (state : LineNaming),
    (setupWith .empty Registry.standard [⟨"g", ["line-naming"]⟩] {}).outcome = .ok e ∧
    (e.run staff (.ofText "e |--0--|\nB |--1--|\nG |--2--|\n")).outcome = .ok report ∧
    report.state (.shared "line-naming") .lineNaming = .ok state ∧
    state.naming.lookup 1 = some "e" ∧ state.naming.lookup 2 = some "B" ∧ state.naming.lookup 3 = none ∧
    (∀ i, state.absoluteLine? i = (Assoc.keys state.naming)[i]?) ∧
    report.diagnostics.filter (·.tag = .shared "line-naming") =
      [⟨.shared "line-naming", .error, "multiple line names on line 2", some ⟨2, 3⟩⟩,
        ⟨.shared "line-naming", .warning, "line name has no source range", none⟩] := by
  obtain ⟨e, hsetup, htag, hruns⟩ := Engine.exists_naming
  obtain ⟨report, hrun⟩ := hruns staff (.ofText "e |--0--|\nB |--1--|\nG |--2--|\n")
  have hnamed := (Engine.lines_named .empty Registry.find?_lineNaming hsetup hrun).2 _ htag rfl
  obtain ⟨state, hstate, -, hlast, hreports⟩ := hnamed
  obtain ⟨-, hfirst, -, habsolute⟩ := hlast ((staff.places []).take 3) _ ((staff.places []).drop 4) rfl (by decide +kernel)
    (by decide +kernel)
  refine ⟨e, report, state, hsetup, hrun, hstate, ?_, ?_, ?_, habsolute, ?_⟩
  · rw [hfirst]
    decide +kernel
  · rw [hfirst]
    decide +kernel
  · rw [hfirst]
    decide +kernel
  · rw [hreports]
    decide +kernel

end RuleWalk
