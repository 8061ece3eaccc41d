import Mathlib
import RuleWalk.State.Table

/-!
# The text of a tag

A tag is read back from its text if the marks in it can only be the ones that were put there. No mark is empty, the group
mark begins with a character that does not recur in it, and it ends with one that the shared mark does not have. So marks
never overlap: a group mark occurs early exactly if the rule holds one, and the text of a private tag ends like a shared one
exactly if the group does.
-/

namespace RuleWalk

namespace Text

/-! ## Marks in a text -/

variable {mark suffix text before after : List Char} {c : Char}

theorem stripSuffix?_eq_some_iff : stripSuffix? suffix text = some before ↔ text = before ++ suffix := by
  unfold stripSuffix?
  constructor
  · intro h
    split at h
    · rename_i hsuffix
      obtain ⟨front, rfl⟩ := List.isSuffixOf_iff_suffix.1 hsuffix
      simpa using h
    · cases h
  · rintro rfl
    simp

theorem stripSuffix?_eq_none_iff : stripSuffix? suffix text = none ↔ ¬suffix <:+ text := by
  simp [stripSuffix?]

/-- A text is cut at the first place where the mark stands. -/
structure FirstCut (mark text before after : List Char) : Prop where
  parts : text = before ++ (mark ++ after)
  first : ∀ before' after', text = before' ++ (mark ++ after') → before.length ≤ before'.length

theorem FirstCut.unique {before' after' : List Char} (h : FirstCut mark text before after)
    (h' : FirstCut mark text before' after') : before = before' ∧ after = after' := by
  have hle := h.first _ _ h'.parts
  have hle' := h'.first _ _ h.parts
  have hparts := h.parts.symm.trans h'.parts
  obtain ⟨rfl, hrest⟩ := List.append_inj hparts (by omega)
  exact ⟨rfl, List.append_cancel_left hrest⟩

theorem FirstCut.cons (h : FirstCut mark text before after) (hc : ¬mark <+: c :: text) :
    FirstCut mark (c :: text) (c :: before) after := by
  refine ⟨by rw [h.parts, List.cons_append], ?_⟩
  intro before' after' heq
  cases before' with
  | nil => exact absurd ⟨after', heq.symm⟩ hc
  | cons d before' =>
    obtain ⟨rfl, htext⟩ := List.cons.inj heq
    simpa using h.first before' after' htext

/-- Cutting finds the first place of the mark, if there is one. -/
theorem splitFirst?_cases (mark text : List Char) :
    (∃ before after, splitFirst? mark text = some (before, after) ∧ FirstCut mark text before after) ∨
      splitFirst? mark text = none ∧ ¬mark <:+: text := by
  induction text with
  | nil =>
    by_cases hmark : mark = []
    · exact Or.inl ⟨[], [], by simp [splitFirst?, hmark], by simp [hmark], by simp⟩
    · exact Or.inr ⟨by simp [splitFirst?, hmark], by simpa using hmark⟩
  | cons c text ih =>
    by_cases hc : mark <+: c :: text
    · obtain ⟨after, hafter⟩ := hc
      refine Or.inl ⟨[], after, ?_, by simp [hafter], by simp⟩
      rw [splitFirst?, if_pos (by rw [← hafter]; simp), ← hafter, List.drop_left]
    · have hnext : ¬mark.isPrefixOf (c :: text) = true := by simpa using hc
      rw [splitFirst?, if_neg hnext]
      rcases ih with ⟨before, after, heq, hcut⟩ | ⟨heq, hnone⟩
      · exact Or.inl ⟨c :: before, after, by rw [heq]; rfl, hcut.cons hc⟩
      · refine Or.inr ⟨by rw [heq]; rfl, ?_⟩
        rw [List.infix_cons_iff]
        exact fun h => h.elim hc hnone

theorem splitFirst?_eq_some_iff : splitFirst? mark text = some (before, after) ↔ FirstCut mark text before after := by
  rcases splitFirst?_cases mark text with ⟨before', after', heq, hcut⟩ | ⟨heq, hnone⟩
  · rw [heq]
    constructor
    · intro h
      cases h
      exact hcut
    · intro h
      obtain ⟨rfl, rfl⟩ := hcut.unique h
      rfl
  · rw [heq]
    constructor
    · intro h
      cases h
    · intro h
      exact absurd ⟨before, after, by rw [h.parts, List.append_assoc]⟩ hnone

/-- A mark whose first character does not recur in it cannot overlap itself: put behind a text, it stands there first exactly
if the text does not hold it. -/
theorem firstCut_iff {cs : List Char} (hc : c ∉ cs) :
    FirstCut (c :: cs) (before ++ (c :: cs ++ after)) before after ↔ ¬c :: cs <:+: before := by
  constructor
  · rintro h ⟨front, back, rfl⟩
    have hle := h.first front (back ++ (c :: cs ++ after)) (by simp)
    simp only [List.length_append, List.length_cons] at hle
    omega
  · intro hnot
    refine ⟨rfl, ?_⟩
    intro before' after' heq
    by_contra hlt
    -- the earlier mark starts inside of the text before, and either ends there or reaches into the later one
    obtain ⟨between, rfl, hrest⟩ : ∃ between, before = before' ++ between ∧
        c :: cs ++ after' = between ++ (c :: cs ++ after) := by
      rcases List.append_eq_append_iff.1 heq with ⟨between, rfl, -⟩ | ⟨between, hbefore, hrest⟩
      · simp at hlt
      · exact ⟨between, hbefore, hrest⟩
    rcases List.append_eq_append_iff.1 hrest with ⟨more, rfl, -⟩ | ⟨more, hmark, hmore⟩
    · exact hnot ⟨before', more, by simp⟩
    · cases between with
      | nil => simp at hlt
      | cons d between =>
        obtain ⟨rfl, rfl⟩ := List.cons.inj hmark
        cases more with
        | nil => exact hnot ⟨before', [], by simp⟩
        | cons d more =>
          obtain ⟨rfl, -⟩ := List.cons.inj hmore
          exact hc (by simp)

/-- What ends a text ends what comes after a character that it does not hold. -/
theorem suffix_append_cons_iff (hc : c ∉ suffix) : suffix <:+ before ++ c :: after ↔ suffix <:+ after := by
  constructor
  · rintro ⟨front, heq⟩
    rcases List.append_eq_append_iff.1 heq with ⟨inside, rfl, rfl⟩ | ⟨inside, rfl, hafter⟩
    · simp at hc
    · cases inside with
      | nil =>
        rw [List.nil_append] at hafter
        rw [← hafter] at hc
        simp at hc
      | cons d inside =>
        obtain ⟨rfl, rfl⟩ := List.cons.inj hafter
        exact ⟨inside, rfl⟩
  · intro h
    exact h.trans ⟨before ++ [c], by simp⟩

end Text

namespace StateTag

variable {rule id : String} {tag : StateTag} {s : String}

/-! ## Reading -/

@[simp] theorem toList_text (tag : StateTag) : tag.text.toList = tag.chars := by
  simp [text]

theorem parse_eq_ok_iff : parse s = .ok tag ↔ ofChars? s.toList = some tag := by
  unfold parse
  cases ofChars? s.toList with
  | none => simp
  | some other => simp

theorem parse_eq_error_iff : parse s = .error (.malformedTag s) ↔ ofChars? s.toList = none := by
  unfold parse
  cases ofChars? s.toList with
  | none => simp
  | some other => simp

/-- A text is read as a shared tag if it is one with a rule. -/
theorem ofChars?_shared_iff {cs : List Char} :
    ofChars? cs = some (shared rule) ↔ rule ≠ "" ∧ cs = rule.toList ++ sharedMark := by
  rw [← Text.stripSuffix?_eq_some_iff]
  unfold ofChars?
  cases Text.stripSuffix? sharedMark cs with
  | some front =>
    simp only [List.isEmpty_iff, Option.some.injEq]
    constructor
    · intro h
      split at h
      · cases h
      · rename_i hfront
        cases h
        simpa using hfront
    · rintro ⟨hrule, rfl⟩
      simp [hrule, shared]
  | none =>
    cases Text.splitFirst? groupMark cs with
    | none => simp
    | some cut => simp [shared, group]

/-- A text is read as a private tag if it is one with a rule and a group, ends otherwise than a shared one and has no group
mark before the one that parts rule and group. -/
theorem ofChars?_group_iff {cs : List Char} :
    ofChars? cs = some (group rule id) ↔
      rule ≠ "" ∧ id ≠ "" ∧ ¬sharedMark <:+ cs ∧ Text.FirstCut groupMark cs rule.toList id.toList := by
  rw [← Text.stripSuffix?_eq_none_iff, ← Text.splitFirst?_eq_some_iff]
  unfold ofChars?
  cases Text.stripSuffix? sharedMark cs with
  | some front => simp [shared, group]
  | none =>
    cases Text.splitFirst? groupMark cs with
    | none => simp
    | some cut =>
      obtain ⟨before, after⟩ := cut
      simp only [Bool.or_eq_true, List.isEmpty_iff, Option.some.injEq, Prod.mk.injEq, true_and]
      constructor
      · intro h
        split at h
        · cases h
        · rename_i hparts
          cases h
          simpa using hparts
      · rintro ⟨hrule, hid, rfl, rfl⟩
        simp [hrule, hid, group]

/-! ## Reading back -/

/-- A tag that its text tells: it has a rule and, if it is private, a group; a group mark in the rule or a shared mark at the
end of the group would be taken for the tag's own. -/
def Readable (tag : StateTag) : Prop :=
  tag.rule ≠ "" ∧ (tag.scope = .shared ∨ ∃ id, tag.scope = .group id ∧ id ≠ "" ∧ ¬groupMark <:+: tag.rule.toList ∧
    ¬sharedMark <:+ id.toList)

/-- What is read is written as it was. -/
theorem chars_of_ofChars? {cs : List Char} (h : ofChars? cs = some tag) : tag.chars = cs := by
  obtain ⟨rule, scope⟩ := tag
  cases scope with
  | shared =>
    obtain ⟨-, rfl⟩ := ofChars?_shared_iff.1 h
    rfl
  | group id =>
    obtain ⟨-, -, -, hcut⟩ := ofChars?_group_iff.1 h
    rw [hcut.parts]
    simp [chars]

/-- The text of a private tag ends like a shared one exactly if the group does. -/
theorem sharedMark_suffix_iff (front back : List Char) : sharedMark <:+ front ++ groupMark ++ back ↔ sharedMark <:+ back := by
  have hmark : groupMark = "@group".toList ++ [':'] := rfl
  rw [hmark, ← List.append_assoc, List.append_assoc _ [':']]
  exact Text.suffix_append_cons_iff (by decide)

/-- The mark of a private tag is the first one in its text exactly if the rule has none. -/
theorem firstCut_groupMark_iff (front back : List Char) :
    Text.FirstCut groupMark (front ++ groupMark ++ back) front back ↔ ¬groupMark <:+: front := by
  have hmark : groupMark = '@' :: "group:".toList := rfl
  rw [List.append_assoc, hmark]
  exact Text.firstCut_iff (by decide)

/-- The text of a tag is read as that tag exactly if it tells the tag. -/
theorem ofChars?_chars_iff (tag : StateTag) : ofChars? tag.chars = some tag ↔ tag.Readable := by
  obtain ⟨rule, scope⟩ := tag
  cases scope with
  | shared =>
    refine ofChars?_shared_iff.trans ?_
    simp [Readable, chars]
  | group id =>
    have hends := sharedMark_suffix_iff rule.toList id.toList
    have hfirst := firstCut_groupMark_iff rule.toList id.toList
    refine ofChars?_group_iff.trans ⟨?_, ?_⟩
    · rintro ⟨hrule, hid, hend, hcut⟩
      exact ⟨hrule, Or.inr ⟨id, rfl, hid, hfirst.1 hcut, fun h => hend (hends.2 h)⟩⟩
    · rintro ⟨hrule, hshared | ⟨_, heq, hid, hmark, hend⟩⟩
      · cases hshared
      · cases heq
        exact ⟨hrule, hid, fun h => hend (hends.1 h), hfirst.2 hmark⟩

/-- Tags and their texts. What is read is written as it was, so no two texts name one tag. The text of a tag is read as that
tag exactly if the tag is readable, and else it is refused or names another tag. -/
theorem text_codec :
    (∀ s tag, parse s = .ok tag → tag.text = s) ∧
    (∀ tag : StateTag, parse tag.text = .ok tag ↔ tag.Readable) ∧
    (∀ s s' tag, parse s = .ok tag → parse s' = .ok tag → s = s') ∧
    ∀ tag : StateTag, ¬tag.Readable → parse tag.text = .error (.malformedTag tag.text) ∨
      ∃ other, other ≠ tag ∧ parse tag.text = .ok other := by
  have hwritten : ∀ s tag, parse s = .ok tag → tag.text = s := by
    intro s tag h
    rw [text, chars_of_ofChars? (parse_eq_ok_iff.1 h), String.ofList_toList]
  have hread : ∀ tag : StateTag, parse tag.text = .ok tag ↔ tag.Readable := by
    intro tag
    rw [parse_eq_ok_iff, toList_text, ofChars?_chars_iff]
  refine ⟨hwritten, hread, ?_, ?_⟩
  · intro s s' tag h h'
    exact (hwritten s tag h).symm.trans (hwritten s' tag h')
  · intro tag hnot
    cases hparse : ofChars? tag.text.toList with
    | none => exact Or.inl (parse_eq_error_iff.2 hparse)
    | some other =>
      refine Or.inr ⟨other, ?_, parse_eq_ok_iff.2 hparse⟩
      rintro rfl
      exact hnot ((hread other).1 (parse_eq_ok_iff.2 hparse))

/-- A rule may end with the beginning of a group mark. If it holds a whole one, the text is cut there. -/
theorem text_codec_marks :
    (group "a@group" "b").text = "a@group@group:b" ∧ (group "a@group" "b").Readable ∧
    parse (group "a@group:b" "c").text = .ok (group "a" "b@group:c") ∧ ¬(group "a@group:b" "c").Readable := by
  have hread : parse "a@group@group:b" = .ok (group "a@group" "b") := by
    cbv
  have hcut : parse (group "a@group:b" "c").text = .ok (group "a" "b@group:c") := by
    cbv
  have htext := text_codec.1 _ _ hread
  refine ⟨htext, (text_codec.2.1 _).1 (htext ▸ hread), hcut, ?_⟩
  intro h
  have hback := hcut.symm.trans ((text_codec.2.1 _).2 h)
  have hrule : "a" = "a@group:b" := congrArg StateTag.rule (Except.ok.inj hback)
  exact absurd hrule (by decide)

end StateTag

end RuleWalk
