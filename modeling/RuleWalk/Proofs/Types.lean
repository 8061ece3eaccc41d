import RuleWalk.Proofs.Lists
import RuleWalk.Selector.Analysis
import RuleWalk.Selector.Match

/-!
# The types a selector can match

The static analysis is sound: a node that satisfies a selector has a type that the analysis allows. And it names no type
twice and each by its lowered name, so that a pattern is filed once under each of its types.
-/

namespace RuleWalk.Selector

/-! ## Lists of types -/

/-- Keeping the first of each text is removing duplicates. -/
theorem distinct_eq (texts : List String) : distinct texts = texts.eraseDups := by
  rw [← firsts_id]
  simp only [distinct, firsts, List.map_id, List.contains_iff_mem, id]

/-- What is left after filtering by some lists is in all of them. -/
theorem mem_foldl_filter {lists : List (List String)} {found : List String} {t : String} :
    t ∈ lists.foldl (fun found ts => found.filter ts.contains) found ↔ t ∈ found ∧ ∀ ts ∈ lists, t ∈ ts := by
  induction lists generalizing found with
  | nil => simp
  | cons ts rest ih =>
    rw [List.foldl_cons, ih, List.mem_filter, List.contains_iff_mem, List.forall_mem_cons, and_assoc]

theorem nodup_foldl_filter {found : List String} (h : found.Nodup) (lists : List (List String)) :
    (lists.foldl (fun found ts => found.filter ts.contains) found).Nodup := by
  induction lists generalizing found with
  | nil => exact h
  | cons ts rest ih => exact ih (h.filter _)

/-- The types allowed by all parts are those that no constrained part excludes, each once. -/
theorem typesInAll_spec {parts : List (Option (List String))} {types : List String} (h : typesInAll parts = some types) :
    types.Nodup ∧ ∀ t, (∀ ts, some ts ∈ parts → t ∈ ts) → t ∈ types := by
  induction parts with
  | nil => cases h
  | cons part rest ih =>
    cases part with
    | none =>
      obtain ⟨hnodup, hmem⟩ := ih h
      exact ⟨hnodup, fun t ht => hmem t fun ts hts => ht ts (List.mem_cons_of_mem _ hts)⟩
    | some first =>
      obtain rfl := Option.some.inj h
      rw [distinct_eq]
      refine ⟨nodup_foldl_filter (nodup_eraseDups first) _, fun t ht => ?_⟩
      rw [mem_foldl_filter, List.mem_eraseDups]
      refine ⟨ht first List.mem_cons_self, fun ts hts => ht ts (List.mem_cons_of_mem _ ?_)⟩
      simpa using hts

theorem mapM_id_eq_some {parts : List (Option (List String))} {lists : List (List String)}
    (h : parts.mapM id = some lists) : parts = lists.map some := by
  induction parts generalizing lists with
  | nil =>
    obtain rfl : [] = lists := by simpa using h
    rfl
  | cons part rest ih =>
    simp only [List.mapM_cons, id, Option.bind_eq_bind, Option.pure_def, Option.bind_eq_some_iff] at h
    obtain ⟨first, rfl, more, hmore, heq⟩ := h
    cases heq
    rw [List.map_cons, ih hmore]

/-- The types allowed by some part, each once; every part is constrained. -/
theorem typesInAny_spec {parts : List (Option (List String))} {types : List String} (h : typesInAny parts = some types) :
    types.Nodup ∧ ∀ part ∈ parts, ∃ ts, part = some ts ∧ ts ⊆ types := by
  obtain ⟨lists, hlists, rfl⟩ := Option.map_eq_some_iff.1 h
  obtain rfl := mapM_id_eq_some hlists
  rw [distinct_eq]
  refine ⟨nodup_eraseDups _, fun part hpart => ?_⟩
  obtain ⟨ts, hts, rfl⟩ := List.mem_map.1 hpart
  exact ⟨ts, rfl, fun t ht => List.mem_eraseDups.2 (List.mem_flatten.2 ⟨ts, hts, ht⟩)⟩

/-! ## No type comes twice -/

/-- The analysis names no type twice. -/
theorem nodup_types : ∀ (s : Selector) {types : List String}, s.types = some types → types.Nodup
  | .any, _, h => by cases h
  | .type _, _, h => by
    cases h
    exact List.pairwise_singleton _ _
  | .compound _, _, h => (typesInAll_spec h).1
  | .complex _ _ right, _, h => nodup_types right h
  | .pseudo .is _, _, h => (typesInAny_spec h).1
  | .pseudo .whereAny _, _, h => (typesInAny_spec h).1
  | .pseudo .not _, _, h => by cases h
  | .pseudo .has _, _, h => by cases h
  | .pseudo (.other _) _, _, h => by cases h
  | .attribute _ _, _, h => by cases h

/-! ## A match has an allowed type -/

/-- A chain that holds holds at its right side. -/
theorem matchesAt_right {left right : Selector} {c : Combinator} {node : Tree} {ancestry : List Tree}
    (h : (complex left c right).matchesAt node ancestry = .ok true) : right.matchesAt node ancestry = .ok true := by
  cases c with
  | child =>
    simp only [matchesAt] at h
    split at h
    · assumption
    · exact h
  | descendant =>
    rw [matchesAt] at h
    split at h
    · assumption
    · exact h
  | adjacent =>
    rw [matchesAt] at h
    cases h
  | sibling =>
    rw [matchesAt] at h
    cases h

mutual

/-- A node that satisfies a selector has one of the types that the analysis allows. -/
theorem types_sound : ∀ (s : Selector) {node : Tree} {ancestry : List Tree} {types : List String},
    s.types = some types → s.matchesAt node ancestry = .ok true → Text.lower node.name ∈ types
  | .any, _, _, _, h, _ => by cases h
  | .type name, node, _, _, h, hmatch => by
    cases h
    rw [matchesAt, Text.sameName] at hmatch
    have hname : Text.lower name = Text.lower node.name := by simpa using Except.ok.inj hmatch
    exact hname ▸ List.mem_cons_self
  | .compound parts, _, _, _, h, hmatch => by
    rw [matchesAt] at hmatch
    exact (typesInAll_spec h).2 _ (typesOf_sound_all parts hmatch)
  | .complex _ _ right, _, _, _, h, hmatch => types_sound right h (matchesAt_right hmatch)
  | .pseudo .is args, _, _, _, h, hmatch => by
    rw [matchesAt] at hmatch
    exact typesOf_sound_any args (typesInAny_spec h).2 hmatch
  | .pseudo .whereAny args, _, _, _, h, hmatch => by
    rw [matchesAt] at hmatch
    exact typesOf_sound_any args (typesInAny_spec h).2 hmatch
  | .pseudo .not _, _, _, _, h, _ => by cases h
  | .pseudo .has _, _, _, _, h, _ => by cases h
  | .pseudo (.other _) _, _, _, _, h, _ => by cases h
  | .attribute _ _, _, _, _, h, _ => by cases h

/-- If all parts of a compound hold at a node, each part that names types has the node's among them. -/
theorem typesOf_sound_all : ∀ (parts : List Selector) {node : Tree} {ancestry : List Tree},
    matchesAll parts node ancestry = .ok true → ∀ ts, some ts ∈ typesOf parts → Text.lower node.name ∈ ts
  | [], _, _, _, _, hts => absurd hts List.not_mem_nil
  | s :: rest, node, ancestry, hmatch, ts, hts => by
    rw [matchesAll] at hmatch
    split at hmatch
    · rename_i hs
      rcases List.mem_cons.1 hts with hts | hts
      · exact types_sound s hts.symm hs
      · exact typesOf_sound_all rest hmatch ts hts
    · rename_i hs
      exact absurd hmatch hs

/-- If one of some alternatives holds at a node, the node's type is among those that the alternatives name. -/
theorem typesOf_sound_any : ∀ (args : List Selector) {node : Tree} {ancestry : List Tree} {types : List String},
    (∀ part ∈ typesOf args, ∃ ts, part = some ts ∧ ts ⊆ types) → matchesAny args node ancestry = .ok true →
    Text.lower node.name ∈ types
  | [], _, _, _, _, hmatch => by
    rw [matchesAny] at hmatch
    cases hmatch
  | s :: rest, node, ancestry, types, hparts, hmatch => by
    rw [matchesAny] at hmatch
    split at hmatch
    · exact typesOf_sound_any rest (fun part hpart => hparts part (List.mem_cons_of_mem _ hpart)) hmatch
    · obtain ⟨ts, hts, hsub⟩ := hparts s.types List.mem_cons_self
      exact hsub (types_sound s hts hmatch)

end

/-! ## Types go by their lowered names -/

/-- A lowered text has no capital letter. -/
theorem isUpper_of_mem_lower {name : String} {c : Char} (h : c ∈ (Text.lower name).toList) : c.isUpper = false := by
  simp only [Text.lower, String.toList_ofList, List.mem_map] at h
  obtain ⟨d, -, rfl⟩ := h
  exact Char.isUpper_toLower_eq_false d

/-- A type of a compound is named by one of its parts. -/
theorem mem_of_typesInAll {parts : List (Option (List String))} {types : List String} {t : String}
    (h : typesInAll parts = some types) (ht : t ∈ types) : ∃ ts, some ts ∈ parts ∧ t ∈ ts := by
  induction parts with
  | nil => cases h
  | cons part rest ih =>
    cases part with
    | none =>
      obtain ⟨ts, hts, hmem⟩ := ih h
      exact ⟨ts, List.mem_cons_of_mem _ hts, hmem⟩
    | some first =>
      obtain rfl := Option.some.inj h
      rw [distinct_eq, mem_foldl_filter, List.mem_eraseDups] at ht
      exact ⟨first, List.mem_cons_self, ht.1⟩

/-- A type of some alternatives is named by one of them. -/
theorem mem_of_typesInAny {parts : List (Option (List String))} {types : List String} {t : String}
    (h : typesInAny parts = some types) (ht : t ∈ types) : ∃ ts, some ts ∈ parts ∧ t ∈ ts := by
  obtain ⟨lists, hlists, rfl⟩ := Option.map_eq_some_iff.1 h
  obtain rfl := mapM_id_eq_some hlists
  rw [distinct_eq, List.mem_eraseDups] at ht
  obtain ⟨ts, hts, hmem⟩ := List.mem_flatten.1 ht
  exact ⟨ts, List.mem_map_of_mem hts, hmem⟩

mutual

/-- Each type that the analysis names is a lowered name. -/
theorem lowered_of_mem_types : ∀ (s : Selector) {types : List String} {t : String},
    s.types = some types → t ∈ types → ∃ name, t = Text.lower name
  | .any, _, _, h, _ => by cases h
  | .type name, _, _, h, ht => by
    cases h
    exact ⟨name, List.mem_singleton.1 ht⟩
  | .compound parts, _, _, h, ht => by
    obtain ⟨ts, hts, hmem⟩ := mem_of_typesInAll h ht
    exact lowered_of_mem_typesOf parts hts hmem
  | .complex _ _ right, _, _, h, ht => lowered_of_mem_types right h ht
  | .pseudo .is args, _, _, h, ht => by
    obtain ⟨ts, hts, hmem⟩ := mem_of_typesInAny h ht
    exact lowered_of_mem_typesOf args hts hmem
  | .pseudo .whereAny args, _, _, h, ht => by
    obtain ⟨ts, hts, hmem⟩ := mem_of_typesInAny h ht
    exact lowered_of_mem_typesOf args hts hmem
  | .pseudo .not _, _, _, h, _ => by cases h
  | .pseudo .has _, _, _, h, _ => by cases h
  | .pseudo (.other _) _, _, _, h, _ => by cases h
  | .attribute _ _, _, _, h, _ => by cases h

theorem lowered_of_mem_typesOf : ∀ (parts : List Selector) {ts : List String} {t : String},
    some ts ∈ typesOf parts → t ∈ ts → ∃ name, t = Text.lower name
  | [], _, _, hts, _ => absurd hts List.not_mem_nil
  | s :: rest, ts, t, hts, ht => by
    rcases List.mem_cons.1 hts with hts | hts
    · exact lowered_of_mem_types s hts.symm ht
    · exact lowered_of_mem_typesOf rest hts ht

end

/-- What the analysis promises of a selector that it constrains, whatever the selector holds: it names no type twice, and each
without capital letters, and every node that satisfies the selector under any ancestors has its lowered name among them. -/
theorem types_cover {s : Selector} {types : List String} (h : s.types = some types) :
    types.Nodup ∧ (∀ t ∈ types, ∀ c ∈ t.toList, c.isUpper = false) ∧
    ∀ (node : Tree) (ancestry : List Tree), s.matchesAt node ancestry = .ok true → Text.lower node.name ∈ types := by
  refine ⟨nodup_types s h, ?_, ?_⟩
  · intro t ht c hc
    obtain ⟨name, rfl⟩ := lowered_of_mem_types s h ht
    exact isUpper_of_mem_lower hc
  · intro node ancestry hmatch
    exact types_sound s h hmatch

/-- A chain inside of a list of alternatives inside of a compound, with a sibling combinator that is never reached. -/
theorem types_cover_nested :
    (compound [pseudo .is [complex (type "A") .child (type "Note"), type "NOTE", complex any .sibling (type "rest")],
      pseudo .not [type "x"]]).types = some ["note", "rest"] ∧
    Text.lower "nOTe" ∈ ["note", "rest"] := by
  have htypes : (compound [pseudo .is [complex (type "A") .child (type "Note"), type "NOTE",
      complex any .sibling (type "rest")], pseudo .not [type "x"]]).types = some ["note", "rest"] := by
    cbv
  refine ⟨htypes, (types_cover htypes).2.2 (.node { name := "nOTe" } []) [] ?_⟩
  cbv

end RuleWalk.Selector
