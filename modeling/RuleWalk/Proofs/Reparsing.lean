import RuleWalk.Proofs.Printing
import RuleWalk.Selector.Pattern

/-!
# Patterns read back from the texts of their selectors

A pattern reads its selector from the text before a closing `:exit`. The text of a selector ends like this if its last simple
selector is a pseudo-class of that name, and then the pattern takes that part for its own mark.
-/

namespace RuleWalk

namespace Selector

open Text Reader

namespace Grammar

/-! ## The end of a text -/

/-- A text that neither a name nor a colon ends. -/
def Spaced (cs : List Char) : Prop :=
  ∀ c ∈ cs.getLast?, isNameChar c = false ∧ c ≠ ':'

/-- More text in front changes nothing at the end. -/
theorem Spaced.append {cs : List Char} (h : Spaced cs) (hne : cs ≠ []) (front : List Char) : Spaced (front ++ cs) := by
  intro c hc
  rw [List.getLast?_append, List.getLast?_eq_some_getLast hne] at hc
  exact h c (List.getLast?_eq_some_getLast hne ▸ hc)

theorem spaced_between (j : Combinator) (front : List Char) : Spaced (front ++ between j) := by
  have hbetween : Spaced (between j) := by
    cases j <;> simp [Spaced, between, Combinator.symbol, isNameChar]
  exact hbetween.append (by cases j <;> simp [between]) front

/-- A simple selector that does not end in a name ends in neither a name character nor a colon. -/
theorem Simple.spaced {cs rest : List Char} {s : Selector} (h : Simple cs s rest) (hs : endsInName s = false) :
    Spaced s.chars := by
  cases h with
  | any => simp [Spaced, isNameChar]
  | type => cases hs
  | present => simp [Spaced, isNameChar, List.getLast?_cons]
  | tested => simp [Spaced, isNameChar, List.getLast?_cons]
  | pseudo => cases hs
  | nested _ _ hargs =>
    cases hargs
    simp [Spaced, isNameChar, List.getLast?_cons, inParentheses]

theorem Simple.isName {cs rest : List Char} {name : String} (h : Simple cs (.type name) rest) : IsName name.toList := by
  cases h with
  | type hname => simpa using hname.isToken

/-- How a text ends: with its last simple selector, and if that is a type, there is a mark or a blank before it. -/
structure Ends (text : List Char) (last : Selector) : Prop where
  simple : ∃ cs rest, Simple cs last rest
  split : ∃ front, text = front ++ last.chars ∧ ∀ name, last = .type name → Spaced front

/-- In front of a text that is apart or after a front that is spaced, the end stays the end. -/
theorem Ends.append {front text : List Char} {last : Selector} (h : Ends text last) (hfront : Spaced front ∨ Apart text) :
    Ends (front ++ text) last := by
  obtain ⟨hsimple, before, rfl, hspaced⟩ := h
  refine ⟨hsimple, front ++ before, (List.append_assoc _ _ _).symm, ?_⟩
  rintro name rfl
  cases before with
  | cons c before => exact (hspaced name rfl).append (by simp) front
  | nil =>
    rw [List.append_nil]
    refine hfront.resolve_right fun hapart => ?_
    obtain ⟨cs, rest, hsimple⟩ := hsimple
    obtain ⟨c, -, -, hchars⟩ := hsimple.starts
    rw [chars_type] at hchars
    have hc := hsimple.isName.isNameChar c (List.mem_of_head? hchars)
    rw [hapart c (by simpa using hchars)] at hc
    cases hc

/-- The text of a run ends in that of its last simple selector. -/
theorem Simples.ends {cs rest : List Char} {parts : List Selector} (h : Simples cs parts rest) :
    ∃ last, parts.getLast? = some last ∧ Ends (parts.flatMap chars) last := by
  induction h using Simples.induction with
  | one hs => exact ⟨_, rfl, ⟨_, _, hs⟩, [], by simp, fun _ _ => by simp [Spaced]⟩
  | @more _ _ s _ hs hparts ih =>
    obtain ⟨last, hlast, hends⟩ := ih
    refine ⟨last, by simp [List.getLast?_cons, hlast], hends.append ?_⟩
    cases hname : endsInName s with
    | false => exact Or.inl (hs.spaced hname)
    | true => exact Or.inr (by simpa using hparts.apart (hs.apart hname) [])

theorem Simple.lastSimple?_eq {cs rest : List Char} {s : Selector} (h : Simple cs s rest) : s.lastSimple? = some s := by
  cases h <;> rfl

/-- The text of a compound ends in that of its last simple selector. -/
theorem Compound.ends {cs rest : List Char} {s : Selector} (h : Compound cs s rest) :
    ∃ last, s.lastSimple? = some last ∧ Ends s.chars last := by
  cases h with
  | single hs => exact ⟨s, hs.lastSimple?_eq, ⟨_, _, hs⟩, [], rfl, fun _ _ => nofun⟩
  | several hs hparts =>
    obtain ⟨last, hlast, hends⟩ := (Simples.more hs hparts).ends
    exact ⟨last, hlast, by rwa [chars_compound]⟩

/-- The text of a chain ends in that of its last simple selector, which is that of its rightmost compound. -/
theorem Links.ends {cs rest : List Char} {left s : Selector} (h : Links cs left s rest)
    (hleft : ∃ last, left.lastSimple? = some last ∧ Ends left.chars last) :
    ∃ last, s.lastSimple? = some last ∧ Ends s.chars last := by
  induction h using Links.induction with
  | none => exact hleft
  | more _ hright _ ih =>
    obtain ⟨last, hlast, hends⟩ := hright.ends
    refine ih ⟨last, by rwa [lastSimple?], ?_⟩
    rw [chars_complex, ← List.append_assoc]
    exact hends.append (Or.inl (spaced_between _ _))

/-- The text of a selector ends with its last simple selector. -/
theorem Complex.ends {cs rest : List Char} {s : Selector} (h : Complex cs s rest) :
    ∃ last, s.lastSimple? = some last ∧ Ends s.chars last := by
  cases h with
  | chain hfirst hlinks => exact hlinks.ends hfirst.ends

/-- A name with a mark or a blank before it does not end a text that ends like a pattern for leaving a node. -/
theorem ne_append_name {body front name : List Char} (hname : IsName name) (hfront : Spaced front) :
    body ++ Pattern.exitMark ≠ front ++ name := by
  have hcolon : ':' ∉ name := hname.not_mem rfl
  have hmark : ∀ c ∈ Pattern.exitMark, ¬(isNameChar c = false ∧ c ≠ ':') := by
    simp [Pattern.exitMark, isNameChar]
  intro heq
  rcases List.append_eq_append_iff.1 heq with ⟨u, rfl, hexit⟩ | ⟨u, -, rfl⟩
  · cases hu : u.getLast? with
    | none =>
      obtain rfl := List.getLast?_eq_none_iff.1 hu
      rw [List.nil_append] at hexit
      exact hcolon (hexit ▸ by decide)
    | some c =>
      refine hmark c ?_ (hfront c (by simp [hu]))
      rw [hexit]
      exact List.mem_append_left _ (List.mem_of_getLast? hu)
  · exact hcolon (List.mem_append_right _ (by decide))

/-- A text ends like a pattern for leaving a node just if its last simple selector is a pseudo-class of that name. -/
theorem Ends.exit_iff {text : List Char} {last : Selector} (h : Ends text last) :
    Pattern.exitMark <:+ text ↔ last = .pseudo (.other "exit") [] := by
  obtain ⟨⟨cs, rest, hsimple⟩, front, rfl, hspaced⟩ := h
  constructor
  · rintro ⟨body, hbody⟩
    cases hends : endsInName last with
    | false =>
      obtain ⟨c, -, -, hchars⟩ := hsimple.starts
      have hnone := (hsimple.spaced hends).append (fun hnil => by simp [hnil] at hchars) front
      rw [← hbody] at hnone
      exact absurd (hnone 't' (by simp [Pattern.exitMark])).1 (by decide)
    | true =>
      cases hsimple with
      | type hname => exact absurd hbody (ne_append_name (by simpa using hname.isToken) (hspaced _ rfl))
      | pseudo hname _ =>
        simp only [chars_pseudo, PseudoClass.name, String.toList_ofList, inParentheses, List.append_nil] at hbody
        rw [← split_at_last (by decide) (hname.isToken.not_mem rfl) hbody]
        rfl
      | nested _ _ hargs => cases hargs; cases hends
      | any => cases hends
      | present => cases hends
      | tested => cases hends
  · rintro rfl
    exact ⟨front, by simp [Pattern.exitMark, PseudoClass.name, inParentheses]⟩

end Grammar

end Selector

namespace Pattern

open Selector

/-- A text that does not end in the mark is all body, and else the body is what stands before the mark. -/
theorem bodyOf_cases (raw : String) : (¬exitMark <:+ raw.toList ∧ (bodyOf raw).1 = raw.toList) ∨
    raw.toList = (bodyOf raw).1 ++ exitMark := by
  unfold bodyOf Text.stripSuffix?
  by_cases h : exitMark <:+ raw.toList
  · rw [if_pos (List.isSuffixOf_iff_suffix.2 h)]
    obtain ⟨body, hbody⟩ := h
    refine Or.inr ?_
    rw [← hbody]
    simp
  · rw [if_neg (fun hmark => h (List.isSuffixOf_iff_suffix.1 hmark))]
    exact Or.inl ⟨h, rfl⟩

/-- A text is a pattern of a selector if its body is read as this selector. -/
theorem exists_parse_iff {raw : String} {s : Selector} :
    (∃ p, parse raw = .ok p ∧ p.selector = s) ↔ read (bodyOf raw).1 = .ok s := by
  unfold parse
  cases read (bodyOf raw).1 with
  | error stuck => simp
  | ok s' => simp [ofSelector]

/-- A pattern's selector is read back from its text, as a pattern again, exactly if every value in it is written between
quotes as it stands and its last simple selector is no pseudo-class named `exit`. -/
theorem reparse_iff {raw : String} {p : Pattern} (h : parse raw = .ok p) :
    (∃ q, parse p.selector.text = .ok q ∧ q.selector = p.selector) ↔
      (∀ v ∈ p.selector.values, Text.quoted v = "\"" ++ v ++ "\"") ∧
        p.selector.lastSimple? ≠ some (.pseudo (.other "exit") []) := by
  obtain ⟨_, _, -, hderived, -⟩ := Grammar.derives_of_read (exists_parse_iff.1 ⟨p, h, rfl⟩)
  obtain ⟨last, hlast, hends⟩ := hderived.ends
  obtain ⟨c, hc, -, hchars⟩ := hderived.starts
  have hsolid : Grammar.Solid p.selector.text.toList := Grammar.solid_of_starts hc hchars
  rw [exists_parse_iff, hlast, Ne, Option.some.injEq, ← hends.exit_iff]
  constructor
  · intro hread
    obtain ⟨cs, rest, hblanks, hs, -⟩ := Grammar.derives_of_read hread
    rcases bodyOf_cases p.selector.text with ⟨hexit, hbody⟩ | hbody
    · rw [hbody] at hblanks
      have hcs := hblanks.eq_of_solid (x := []) (by simpa using hsolid)
      exact ⟨(hs.of_own_text (x := []) (y := []) (congrArg (· ++ []) hcs.symm)).1, hexit⟩
    · -- the text would have to go on after the selector has been read to its end
      have hcs := hblanks.eq_of_solid (hbody ▸ hsolid)
      rw [hcs] at hbody
      have hend := (hs.of_own_text (y := []) (by rw [← hbody, List.append_nil]; rfl)).2
      simp [exitMark] at hend
  · rintro ⟨hplain, hexit⟩
    rcases bodyOf_cases p.selector.text with ⟨-, hbody⟩ | hbody
    · have hprinted := hderived.printed hplain (nofun : Grammar.Apart [])
      rw [List.append_nil] at hprinted
      rw [hbody]
      exact Grammar.read_of_derives ⟨_, _, .refl _, hprinted, .refl _⟩
    · exact absurd ⟨_, hbody.symm⟩ hexit

/-- A backslash is written twice, and two are read back. -/
theorem reparse_iff_backslash : ∃ p q, parse "a>b:not(c,[x=\\])" = .ok p ∧ p.selector.values = ["\\"] ∧
    p.selector.text = "a > b:not(c, [x=\"\\\\\"])" ∧ parse p.selector.text = .ok q ∧ q.selector.values = ["\\\\"] ∧
    ¬∃ q, parse p.selector.text = .ok q ∧ q.selector = p.selector := by
  have hselector : (parse "a>b:not(c,[x=\\])").toOption.map (·.selector) = some (.complex (.type "a") .child
      (.compound [.type "b", .pseudo .not [.type "c", .attribute "x" (some (.eq, "\\"))]])) := by
    cbv
  have hreparse : (parse "a > b:not(c, [x=\"\\\\\"])").toOption.map (·.selector.values) = some ["\\\\"] := by
    cbv
  obtain ⟨p, hp, hselector⟩ := Option.map_eq_some_iff.1 hselector
  obtain ⟨q, hq, hvalues⟩ := Option.map_eq_some_iff.1 hreparse
  have hp := eq_ok_of_toOption hp
  have htext : p.selector.text = "a > b:not(c, [x=\"\\\\\"])" := by
    rw [hselector]
    cbv
  refine ⟨p, q, hp, by rw [hselector]; rfl, htext, htext ▸ eq_ok_of_toOption hq, hvalues, fun hback => ?_⟩
  have hplain := ((reparse_iff hp).1 hback).1 "\\" (by rw [hselector]; exact List.mem_singleton.2 rfl)
  exact absurd hplain (by decide)

end Pattern

end RuleWalk
