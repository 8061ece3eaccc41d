import Mathlib
import RuleWalk.Selector.Match

/-!
# Constructs that cannot be evaluated

Sibling combinators, unknown pseudo-classes and unknown operators can be written, but a selector with one has no meaning
of its own. The matcher refuses such a part where it reaches it, and the error names it. Where it does not reach one, its
verdict does not rest on it: whatever stands in the place of the part, the verdict is the same.
-/

namespace RuleWalk

/-- An error names a selector that cannot be evaluated, by its combinator, its pseudo-class or its operator. -/
inductive MatchError.Names : MatchError → Selector → Prop
  | adjacent (left right : Selector) : Names (.combinator .adjacent) (.complex left .adjacent right)
  | sibling (left right : Selector) : Names (.combinator .sibling) (.complex left .sibling right)
  | pseudoClass (name : String) (args : List Selector) : Names (.pseudoClass name) (.pseudo (.other name) args)
  | operator (path symbol literal : String) : Names (.operator symbol) (.attribute path (some (.other symbol, literal)))

namespace Selector

/-- A selector that cannot be evaluated itself; what it holds may still be. -/
def Unsupported (s : Selector) : Prop :=
  ∃ e : MatchError, e.Names s

/-- A selector occurs in another, at any depth. -/
inductive PartOf (u : Selector) : Selector → Prop
  | whole : PartOf u u
  | compound {part : Selector} {parts : List Selector} : part ∈ parts → PartOf u part → PartOf u (.compound parts)
  | left {left right : Selector} {c : Combinator} : PartOf u left → PartOf u (.complex left c right)
  | right {left right : Selector} {c : Combinator} : PartOf u right → PartOf u (.complex left c right)
  | argument {arg : Selector} {kind : PseudoClass} {args : List Selector} :
    arg ∈ args → PartOf u arg → PartOf u (.pseudo kind args)

/-- An error names a part of a selector that cannot be evaluated. -/
def NamesPart (e : MatchError) (s : Selector) : Prop :=
  ∃ u : Selector, u.PartOf s ∧ e.Names u

mutual

/-- A selector with any number of its parts that cannot be evaluated replaced, each by any selector. -/
inductive Replaced : Selector → Selector → Prop
  | same (s : Selector) : Replaced s s
  | part {u : Selector} (t : Selector) : u.Unsupported → Replaced u t
  | compound {parts parts' : List Selector} : ReplacedAll parts parts' → Replaced (.compound parts) (.compound parts')
  | complex {left left' right right' : Selector} (c : Combinator) :
    Replaced left left' → Replaced right right' → Replaced (.complex left c right) (.complex left' c right')
  | pseudo {args args' : List Selector} (kind : PseudoClass) :
    ReplacedAll args args' → Replaced (.pseudo kind args) (.pseudo kind args')

/-- The selectors of a list, each with such replacements. -/
inductive ReplacedAll : List Selector → List Selector → Prop
  | nil : ReplacedAll [] []
  | cons {s s' : Selector} {rest rest' : List Selector} :
    Replaced s s' → ReplacedAll rest rest' → ReplacedAll (s :: rest) (s' :: rest')

end

/-! ## Verdicts one after the other -/

section Verdicts

/-- The second verdict where the first is no. -/
def orElse (first second : Except MatchError Bool) : Except MatchError Bool :=
  match first with
  | .ok false => second
  | verdict => verdict

/-- The second verdict where the first is yes. -/
def andThen (first second : Except MatchError Bool) : Except MatchError Bool :=
  match first with
  | .ok true => second
  | verdict => verdict

variable {first second first' second' : Except MatchError Bool} {e : MatchError}

/-- An error of a choice is that of one of its verdicts. -/
theorem orElse_eq_error (h : orElse first second = .error e) : first = .error e ∨ second = .error e := by
  unfold orElse at h
  split at h
  · exact Or.inr h
  · exact Or.inl h

/-- An error of a conjunction is that of one of its verdicts. -/
theorem andThen_eq_error (h : andThen first second = .error e) : first = .error e ∨ second = .error e := by
  unfold andThen at h
  split at h
  · exact Or.inr h
  · exact Or.inl h

/-- The second verdict is the first one, if that is one. -/
def Kept (verdict verdict' : Except MatchError Bool) : Prop :=
  ∀ b, verdict = .ok b → verdict' = .ok b

theorem Kept.refl (verdict : Except MatchError Bool) : Kept verdict verdict :=
  fun _ h => h

/-- There is nothing to keep where there is no verdict. -/
theorem kept_error (e : MatchError) (verdict : Except MatchError Bool) : Kept (.error e) verdict := by
  intro b h
  cases h

/-- A choice is kept if both verdicts are: where the first is no error, it decides the same way whether the second is asked. -/
theorem Kept.orElse (hfirst : Kept first first') (hsecond : Kept second second') :
    Kept (orElse first second) (orElse first' second') := by
  cases first with
  | error e => exact kept_error e _
  | ok b =>
    rw [hfirst b rfl]
    cases b with
    | true => exact Kept.refl _
    | false => exact hsecond

/-- A conjunction is kept if both verdicts are. -/
theorem Kept.andThen (hfirst : Kept first first') (hsecond : Kept second second') :
    Kept (andThen first second) (andThen first' second') := by
  cases first with
  | error e => exact kept_error e _
  | ok b =>
    rw [hfirst b rfl]
    cases b with
    | true => exact hsecond
    | false => exact Kept.refl _

theorem Kept.not (h : Kept first first') : Kept (first.map Bool.not) (first'.map Bool.not) := by
  cases first with
  | error e => exact kept_error e _
  | ok b =>
    rw [h b rfl]
    exact Kept.refl _

end Verdicts

/-! ## The matcher in terms of its verdicts -/

section Equations

variable {test : Test} {node : Tree} {ancestry : List Tree}

/-- Ancestors are asked from the nearest on until one says yes. -/
theorem someAncestor_cons (t : Tree) (above : List Tree) :
    someAncestor test (t :: above) = orElse (test t above) (someAncestor test above) :=
  rfl

/-- Of trees side by side, each is asked before what is below it, and all that before the next one. -/
theorem someAmong_cons (chain : List Tree) (t : Tree) (rest : List Tree) :
    someAmong test chain (t :: rest) =
      orElse (test t chain) (orElse (someDescendant test (t :: chain) t) (someAmong test chain rest)) := by
  rw [someAmong]
  rfl

/-- The parts of a compound are asked in order until one says no. -/
theorem matchesAll_cons (s : Selector) (rest : List Selector) :
    matchesAll (s :: rest) node ancestry = andThen (s.matchesAt node ancestry) (matchesAll rest node ancestry) := by
  rw [matchesAll]
  rfl

/-- Alternatives are asked in order until one says yes. -/
theorem matchesAny_cons (s : Selector) (rest : List Selector) :
    matchesAny (s :: rest) node ancestry = orElse (s.matchesAt node ancestry) (matchesAny rest node ancestry) := by
  rw [matchesAny]
  rfl

/-- The verdict at the parent; a root has none. -/
def atParent (test : Test) : List Tree → Except MatchError Bool
  | [] => .ok false
  | parent :: above => test parent above

/-- The right side of a combinator is asked first, and its left side only where the right one holds. -/
theorem matchesAt_child (left right : Selector) : (complex left .child right).matchesAt node ancestry =
    andThen (right.matchesAt node ancestry) (atParent left.matchesAt ancestry) := by
  cases ancestry with
  | nil =>
    rw [matchesAt]
    rfl
  | cons parent above =>
    rw [matchesAt]
    rfl

theorem matchesAt_descendant (left right : Selector) : (complex left .descendant right).matchesAt node ancestry =
    andThen (right.matchesAt node ancestry) (someAncestor left.matchesAt ancestry) := by
  rw [matchesAt]
  rfl

end Equations

/-! ## Errors name what they come from -/

section Errors

variable {test : Test} {e : MatchError}

/-- An error on the way up is that of the test at one of the ancestors. -/
theorem error_of_someAncestor {ancestry : List Tree} (h : someAncestor test ancestry = .error e) :
    ∃ t above, test t above = .error e := by
  induction ancestry with
  | nil => cases h
  | cons t above ih =>
    rw [someAncestor_cons] at h
    rcases orElse_eq_error h with h | h
    · exact ⟨t, above, h⟩
    · exact ih h

theorem error_of_atParent {ancestry : List Tree} (h : atParent test ancestry = .error e) :
    ∃ t above, test t above = .error e := by
  cases ancestry with
  | nil => cases h
  | cons parent above => exact ⟨parent, above, h⟩

mutual

/-- An error on the way down is that of the test at one of the descendants. -/
theorem error_of_someDescendant : ∀ (t : Tree) {chain : List Tree}, someDescendant test chain t = .error e →
    ∃ d above, test d above = .error e
  | .node _ children, _, h => by
    rw [someDescendant] at h
    exact error_of_someAmong children h

theorem error_of_someAmong : ∀ (ts : List Tree) {chain : List Tree}, someAmong test chain ts = .error e →
    ∃ d above, test d above = .error e
  | [], _, h => by
    rw [someAmong] at h
    cases h
  | t :: rest, chain, h => by
    rw [someAmong_cons] at h
    rcases orElse_eq_error h with h | h
    · exact ⟨t, chain, h⟩
    · rcases orElse_eq_error h with h | h
      · exact error_of_someDescendant t h
      · exact error_of_someAmong rest h

end

/-- An error of an attribute test names the test. -/
theorem names_of_attributeTest {node : Tree} {path : String} {test : Option (AttrOp × String)}
    (h : attributeTest node path test = .error e) : e.Names (.attribute path test) := by
  cases test with
  | none => cases h
  | some test =>
    obtain ⟨op, literal⟩ := test
    cases op with
    | other symbol =>
      cases h
      exact .operator path symbol literal
    | _ => cases h

section Parts

variable {left right : Selector} {c : Combinator} {parts args : List Selector} {kind : PseudoClass}

/-- A selector is a part of itself. -/
theorem NamesPart.of_whole {s : Selector} (h : e.Names s) : NamesPart e s :=
  ⟨s, .whole, h⟩

theorem NamesPart.of_left (h : NamesPart e left) : NamesPart e (complex left c right) := by
  obtain ⟨u, hu, hnames⟩ := h
  exact ⟨u, .left hu, hnames⟩

theorem NamesPart.of_right (h : NamesPart e right) : NamesPart e (complex left c right) := by
  obtain ⟨u, hu, hnames⟩ := h
  exact ⟨u, .right hu, hnames⟩

theorem NamesPart.of_compound (h : ∃ part ∈ parts, NamesPart e part) : NamesPart e (compound parts) := by
  obtain ⟨part, hpart, u, hu, hnames⟩ := h
  exact ⟨u, .compound hpart hu, hnames⟩

theorem NamesPart.of_argument (h : ∃ arg ∈ args, NamesPart e arg) : NamesPart e (pseudo kind args) := by
  obtain ⟨arg, harg, u, hu, hnames⟩ := h
  exact ⟨u, .argument harg hu, hnames⟩

end Parts

mutual

/-- An error of the matcher names a part of the selector that cannot be evaluated. -/
theorem namesPart_of_matchesAt : ∀ (s : Selector) {node : Tree} {ancestry : List Tree},
    s.matchesAt node ancestry = .error e → NamesPart e s
  | .any, _, _, h => by
    rw [matchesAt] at h
    cases h
  | .type _, _, _, h => by
    rw [matchesAt] at h
    cases h
  | .compound parts, _, _, h => by
    rw [matchesAt] at h
    exact .of_compound (namesPart_of_matchesAll parts h)
  | .complex left .child right, _, _, h => by
    rw [matchesAt_child] at h
    rcases andThen_eq_error h with h | h
    · exact .of_right (namesPart_of_matchesAt right h)
    · obtain ⟨parent, above, h⟩ := error_of_atParent h
      exact .of_left (namesPart_of_matchesAt left h)
  | .complex left .descendant right, _, _, h => by
    rw [matchesAt_descendant] at h
    rcases andThen_eq_error h with h | h
    · exact .of_right (namesPart_of_matchesAt right h)
    · obtain ⟨ancestor, above, h⟩ := error_of_someAncestor h
      exact .of_left (namesPart_of_matchesAt left h)
  | .complex left .adjacent right, _, _, h => by
    rw [matchesAt] at h
    cases h
    exact .of_whole (.adjacent left right)
  | .complex left .sibling right, _, _, h => by
    rw [matchesAt] at h
    cases h
    exact .of_whole (.sibling left right)
  | .pseudo .is args, _, _, h => by
    rw [matchesAt] at h
    exact .of_argument (namesPart_of_matchesAny args h)
  | .pseudo .whereAny args, _, _, h => by
    rw [matchesAt] at h
    exact .of_argument (namesPart_of_matchesAny args h)
  | .pseudo .not args, node, ancestry, h => by
    rw [matchesAt] at h
    cases hany : matchesAny args node ancestry with
    | ok b =>
      rw [hany] at h
      cases h
    | error e' =>
      rw [hany] at h
      cases h
      exact .of_argument (namesPart_of_matchesAny args hany)
  | .pseudo .has args, _, _, h => by
    rw [matchesAt] at h
    obtain ⟨d, above, h⟩ := error_of_someDescendant _ h
    exact .of_argument (namesPart_of_matchesAny args h)
  | .pseudo (.other name) args, _, _, h => by
    rw [matchesAt] at h
    cases h
    exact .of_whole (.pseudoClass name args)
  | .attribute path test, _, _, h => by
    rw [matchesAt] at h
    exact .of_whole (names_of_attributeTest h)

/-- An error of a compound comes from one of its parts. -/
theorem namesPart_of_matchesAll : ∀ (parts : List Selector) {node : Tree} {ancestry : List Tree},
    matchesAll parts node ancestry = .error e → ∃ part ∈ parts, NamesPart e part
  | [], _, _, h => by
    rw [matchesAll] at h
    cases h
  | s :: rest, _, _, h => by
    rw [matchesAll_cons] at h
    rw [List.exists_mem_cons_iff]
    rcases andThen_eq_error h with h | h
    · exact Or.inl (namesPart_of_matchesAt s h)
    · exact Or.inr (namesPart_of_matchesAll rest h)

/-- An error of a list of alternatives comes from one of them. -/
theorem namesPart_of_matchesAny : ∀ (args : List Selector) {node : Tree} {ancestry : List Tree},
    matchesAny args node ancestry = .error e → ∃ arg ∈ args, NamesPart e arg
  | [], _, _, h => by
    rw [matchesAny] at h
    cases h
  | s :: rest, _, _, h => by
    rw [matchesAny_cons] at h
    rw [List.exists_mem_cons_iff]
    rcases orElse_eq_error h with h | h
    · exact Or.inl (namesPart_of_matchesAt s h)
    · exact Or.inr (namesPart_of_matchesAny rest h)

end

end Errors

/-! ## Verdicts do not rest on what cannot be evaluated -/

section Replacements

variable {test test' : Test}

/-- Verdicts that are kept at each ancestor are kept on the way up. -/
theorem kept_someAncestor (h : ∀ t above, Kept (test t above) (test' t above)) (ancestry : List Tree) :
    Kept (someAncestor test ancestry) (someAncestor test' ancestry) := by
  induction ancestry with
  | nil => exact Kept.refl _
  | cons t above ih =>
    rw [someAncestor_cons, someAncestor_cons]
    exact (h t above).orElse ih

theorem kept_atParent (h : ∀ t above, Kept (test t above) (test' t above)) (ancestry : List Tree) :
    Kept (atParent test ancestry) (atParent test' ancestry) := by
  cases ancestry with
  | nil => exact Kept.refl _
  | cons parent above => exact h parent above

mutual

/-- Verdicts that are kept at each descendant are kept on the way down. -/
theorem kept_someDescendant (h : ∀ t above, Kept (test t above) (test' t above)) : ∀ (t : Tree) (chain : List Tree),
    Kept (someDescendant test chain t) (someDescendant test' chain t)
  | .node _ children, chain => by
    rw [someDescendant, someDescendant]
    exact kept_someAmong h children chain

theorem kept_someAmong (h : ∀ t above, Kept (test t above) (test' t above)) : ∀ (ts : List Tree) (chain : List Tree),
    Kept (someAmong test chain ts) (someAmong test' chain ts)
  | [], _ => by
    rw [someAmong, someAmong]
    exact Kept.refl _
  | t :: rest, chain => by
    rw [someAmong_cons, someAmong_cons]
    exact (h t chain).orElse ((kept_someDescendant h t (t :: chain)).orElse (kept_someAmong h rest chain))

end

/-- What cannot be evaluated gets no verdict. -/
theorem Unsupported.matchesAt_eq {u : Selector} (h : u.Unsupported) (node : Tree) (ancestry : List Tree) :
    ∃ e, u.matchesAt node ancestry = .error e := by
  obtain ⟨e, hnames⟩ := h
  cases hnames with
  | adjacent left right => exact ⟨_, by rw [matchesAt]⟩
  | sibling left right => exact ⟨_, by rw [matchesAt]⟩
  | pseudoClass name args => exact ⟨_, by rw [matchesAt]⟩
  | operator path symbol literal => exact ⟨_, by rw [matchesAt]; rfl⟩

/-- The verdict of a combinator is kept if those of its sides are: at the node itself for the right side, anywhere for the left
one. -/
theorem kept_complex {left left' right right' : Selector} {node : Tree} {ancestry : List Tree} (c : Combinator)
    (hleft : ∀ t above, Kept (left.matchesAt t above) (left'.matchesAt t above))
    (hright : Kept (right.matchesAt node ancestry) (right'.matchesAt node ancestry)) :
    Kept ((complex left c right).matchesAt node ancestry) ((complex left' c right').matchesAt node ancestry) := by
  cases c with
  | child =>
    rw [matchesAt_child, matchesAt_child]
    exact hright.andThen (kept_atParent hleft ancestry)
  | descendant =>
    rw [matchesAt_descendant, matchesAt_descendant]
    exact hright.andThen (kept_someAncestor hleft ancestry)
  | adjacent =>
    rw [matchesAt]
    exact kept_error _ _
  | sibling =>
    rw [matchesAt]
    exact kept_error _ _

/-- The verdict of a pseudo-class is kept if those of its arguments are, anywhere. -/
theorem kept_pseudo {args args' : List Selector} {node : Tree} {ancestry : List Tree} (kind : PseudoClass)
    (h : ∀ t above, Kept (matchesAny args t above) (matchesAny args' t above)) :
    Kept ((pseudo kind args).matchesAt node ancestry) ((pseudo kind args').matchesAt node ancestry) := by
  cases kind with
  | is =>
    rw [matchesAt, matchesAt]
    exact h node ancestry
  | whereAny =>
    rw [matchesAt, matchesAt]
    exact h node ancestry
  | not =>
    rw [matchesAt, matchesAt]
    exact (h node ancestry).not
  | has =>
    rw [matchesAt, matchesAt]
    exact kept_someDescendant h node []
  | other name =>
    rw [matchesAt]
    exact kept_error _ _

mutual

/-- A verdict stays when parts that cannot be evaluated are replaced. -/
theorem Replaced.kept : ∀ {s s' : Selector}, Replaced s s' → ∀ (node : Tree) (ancestry : List Tree),
    Kept (s.matchesAt node ancestry) (s'.matchesAt node ancestry)
  | _, _, .same s, _, _ => Kept.refl _
  | _, _, .part t hu, node, ancestry => by
    obtain ⟨e, he⟩ := hu.matchesAt_eq node ancestry
    rw [he]
    exact kept_error e _
  | _, _, .compound h, node, ancestry => by
    rw [matchesAt, matchesAt]
    exact h.kept_matchesAll node ancestry
  | _, _, .complex c hleft hright, node, ancestry => kept_complex c hleft.kept (hright.kept node ancestry)
  | _, _, .pseudo kind h, _, _ => kept_pseudo kind h.kept_matchesAny

theorem ReplacedAll.kept_matchesAll : ∀ {parts parts' : List Selector}, ReplacedAll parts parts' →
    ∀ (node : Tree) (ancestry : List Tree), Kept (matchesAll parts node ancestry) (matchesAll parts' node ancestry)
  | _, _, .nil, _, _ => Kept.refl _
  | _, _, .cons hs hrest, node, ancestry => by
    rw [matchesAll_cons, matchesAll_cons]
    exact (hs.kept node ancestry).andThen (hrest.kept_matchesAll node ancestry)

theorem ReplacedAll.kept_matchesAny : ∀ {args args' : List Selector}, ReplacedAll args args' →
    ∀ (node : Tree) (ancestry : List Tree), Kept (matchesAny args node ancestry) (matchesAny args' node ancestry)
  | _, _, .nil, _, _ => Kept.refl _
  | _, _, .cons hs hrest, node, ancestry => by
    rw [matchesAny_cons, matchesAny_cons]
    exact (hs.kept node ancestry).orElse (hrest.kept_matchesAny node ancestry)

end

end Replacements

/-- What cannot be evaluated is never passed over. An error names a part of the selector that cannot be evaluated. A verdict
stays the same whatever such parts are replaced by. And a selector without such parts always gets a verdict. -/
theorem matchesAt_refusals (s : Selector) (node : Tree) (ancestry : List Tree) :
    (∀ e, s.matchesAt node ancestry = .error e → ∃ u : Selector, u.PartOf s ∧ e.Names u) ∧
    (∀ b, s.matchesAt node ancestry = .ok b → ∀ s', Replaced s s' → s'.matchesAt node ancestry = .ok b) ∧
    ((∀ u : Selector, u.PartOf s → ¬u.Unsupported) → ∃ b, s.matchesAt node ancestry = .ok b) := by
  have herror : ∀ e, s.matchesAt node ancestry = .error e → NamesPart e s := fun e => namesPart_of_matchesAt s
  refine ⟨herror, ?_, ?_⟩
  · intro b hb s' hs'
    exact hs'.kept node ancestry b hb
  · intro hnone
    cases hverdict : s.matchesAt node ancestry with
    | ok b => exact ⟨b, rfl⟩
    | error e =>
      obtain ⟨u, hu, hnames⟩ := herror e hverdict
      exact absurd ⟨e, hnames⟩ (hnone u hu)

/-- An alternative after one that holds is not reached, and one after one that does not hold is. -/
theorem matchesAt_refusals_reached :
    (pseudo .is [type "a", pseudo (.other "first") []]).matchesAt (.node { name := "A" } []) [] = .ok true ∧
    (pseudo .is [type "a", complex any .child (type "z")]).matchesAt (.node { name := "A" } []) [] = .ok true ∧
    (pseudo .not [type "b", pseudo (.other "first") []]).matchesAt (.node { name := "A" } []) [] =
      .error (.pseudoClass "first") ∧
    (∃ u : Selector, u.PartOf (pseudo .not [type "b", pseudo (.other "first") []]) ∧
      (MatchError.pseudoClass "first").Names u) ∧
    ∃ b, (pseudo .not [type "b"]).matchesAt (.node { name := "A" } []) [] = .ok b := by
  have hunreached : (pseudo .is [type "a", pseudo (.other "first") []]).matchesAt (.node { name := "A" } []) [] =
      .ok true := by
    cbv
  have hreached : (pseudo .not [type "b", pseudo (.other "first") []]).matchesAt (.node { name := "A" } []) [] =
      .error (.pseudoClass "first") := by
    cbv
  have hreplaced : Replaced (pseudo .is [type "a", pseudo (.other "first") []])
      (pseudo .is [type "a", complex any .child (type "z")]) :=
    .pseudo _ (.cons (.same _) (.cons (.part _ ⟨_, .pseudoClass "first" []⟩) .nil))
  have hnone : ∀ u : Selector, u.PartOf (pseudo .not [type "b"]) → ¬u.Unsupported := by
    rintro u hu ⟨e, he⟩
    cases hu with
    | whole => cases he
    | argument harg hu =>
      cases List.mem_singleton.1 harg
      cases hu
      cases he
  exact ⟨hunreached, (matchesAt_refusals _ _ _).2.1 true hunreached _ hreplaced, hreached,
    (matchesAt_refusals _ _ _).1 _ hreached, (matchesAt_refusals _ _ _).2.2 hnone⟩

end Selector

end RuleWalk
