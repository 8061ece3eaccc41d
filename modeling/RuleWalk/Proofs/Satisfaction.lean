import Mathlib.Data.List.Chain
import RuleWalk.Proofs.Traversal
import RuleWalk.Selector.Match

/-!
# What selectors mean

A selector is a chain of conditions, joined from left to right. A chain holds at a node if its conditions can be placed on
the path from the node to the root: the last one at the node itself, each other one above the one after it, and right above
it where they are joined as parent and child. The matcher decides this for every selector it can evaluate: looking for
ancestors from the nearest on never misses a placement.
-/

namespace RuleWalk

/-! ## Chains of conditions -/

/-- A condition on a node and its ancestors, nearest first. -/
abbrev Condition := Tree → List Tree → Prop

namespace Condition

/-- A condition holds at a place of a path, with the rest of the path for ancestors. The node that the path starts from has
place zero. -/
def At (P : Condition) (path : List Tree) (i : Nat) : Prop :=
  ∃ t above, path.drop i = t :: above ∧ P t above

variable {P : Condition}

@[simp] theorem at_zero {t : Tree} {above : List Tree} : P.At (t :: above) 0 ↔ P t above := by
  constructor
  · rintro ⟨t', above', heq, h⟩
    cases heq
    exact h
  · exact fun h => ⟨t, above, rfl, h⟩

@[simp] theorem at_succ {t : Tree} {path : List Tree} {i : Nat} : P.At (t :: path) (i + 1) ↔ P.At path i :=
  Iff.rfl

theorem not_at_nil {i : Nat} : ¬P.At [] i := by
  rintro ⟨t, above, heq, -⟩
  simp at heq

theorem at_drop {path : List Tree} {i q : Nat} : P.At (path.drop q) i ↔ P.At path (i + q) := by
  rw [At, At, List.drop_drop, Nat.add_comm q i]

theorem At.lt_length {path : List Tree} {i : Nat} (h : P.At path i) : i < path.length := by
  obtain ⟨t, above, heq, -⟩ := h
  have hlength := congrArg List.length heq
  simp only [List.length_drop, List.length_cons] at hlength
  omega

end Condition

/-- Conditions joined from left to right. -/
structure Chain where
  first : Condition
  links : List (Combinator × Condition)

namespace Chain

/-- The conditions of a chain hold at places of a path that come down it, with parent and child next to each other. -/
structure Placed (c : Chain) (path : List Tree) (place : Nat → Nat) : Prop where
  first : c.first.At path (place 0)
  next : ∀ k j P, c.links[k]? = some (j, P) →
    P.At path (place (k + 1)) ∧ place (k + 1) < place k ∧ (j = .child → place k = place (k + 1) + 1)

/-- A chain holds at a node: its conditions have places on the path, and the last one has its place at the node. -/
def Holds (c : Chain) : Condition :=
  fun node ancestry => ∃ place : Nat → Nat, place c.links.length = 0 ∧ c.Placed (node :: ancestry) place

/-- The chain of one condition. -/
def single (P : Condition) : Chain :=
  ⟨P, []⟩

/-- A chain with one more condition. -/
def snoc (c : Chain) (j : Combinator) (P : Condition) : Chain :=
  ⟨c.first, c.links ++ [(j, P)]⟩

@[simp] theorem holds_single {P : Condition} {node : Tree} {ancestry : List Tree} :
    (single P).Holds node ancestry ↔ P node ancestry := by
  constructor
  · rintro ⟨place, hlast, hplaced⟩
    have hfirst := hplaced.first
    rw [show place 0 = 0 from hlast] at hfirst
    exact Condition.at_zero.1 hfirst
  · exact fun h => ⟨fun _ => 0, rfl, Condition.at_zero.2 h, fun k j P hk => by simp [single] at hk⟩

section Placements

variable {c : Chain} {path : List Tree} {place place' : Nat → Nat}

theorem Placed.congr (h : c.Placed path place) (heq : ∀ k ≤ c.links.length, place' k = place k) : c.Placed path place' := by
  refine ⟨?_, fun k j P hk => ?_⟩
  · rw [heq 0 (Nat.zero_le _)]
    exact h.first
  · obtain ⟨hlt, -⟩ := List.getElem?_eq_some_iff.1 hk
    rw [heq k hlt.le, heq (k + 1) hlt]
    exact h.next k j P hk

/-- Places on the end of a path are places on the path. -/
theorem placed_drop {q : Nat} : c.Placed (path.drop q) place ↔ c.Placed path fun k => place k + q := by
  have hshift : ∀ i k, place i < place k ↔ place i + q < place k + q := fun i k => by omega
  have hnext : ∀ i k, place k = place i + 1 ↔ place k + q = place i + q + 1 := fun i k => by omega
  constructor
  · refine fun h => ⟨Condition.at_drop.1 h.first, fun k j P hk => ?_⟩
    obtain ⟨hat, hlt, hchild⟩ := h.next k j P hk
    exact ⟨Condition.at_drop.1 hat, (hshift _ _).1 hlt, fun hj => (hnext _ _).1 (hchild hj)⟩
  · refine fun h => ⟨Condition.at_drop.2 h.first, fun k j P hk => ?_⟩
    obtain ⟨hat, hlt, hchild⟩ := h.next k j P hk
    exact ⟨Condition.at_drop.2 hat, (hshift _ _).2 hlt, fun hj => (hnext _ _).2 (hchild hj)⟩

/-- Places come down the path. -/
theorem Placed.antitone (h : c.Placed path place) {i k : Nat} (hik : i ≤ k) (hk : k ≤ c.links.length) :
    place k ≤ place i := by
  induction k, hik using Nat.le_induction with
  | base => exact Nat.le_refl _
  | succ k _ ih =>
    have hlink := List.getElem?_eq_getElem (Nat.lt_of_succ_le hk)
    exact (h.next k _ _ hlink).2.1.le.trans (ih (Nat.le_of_succ_le hk))

theorem placed_snoc {j : Combinator} {P : Condition} : (c.snoc j P).Placed path place ↔ c.Placed path place ∧
    P.At path (place (c.links.length + 1)) ∧ place (c.links.length + 1) < place c.links.length ∧
    (j = .child → place c.links.length = place (c.links.length + 1) + 1) := by
  constructor
  · refine fun h => ⟨⟨h.first, fun k j' P' hk => ?_⟩, h.next c.links.length j P (by simp [snoc])⟩
    exact h.next k j' P' (by rw [snoc, List.getElem?_append_left (List.getElem?_eq_some_iff.1 hk).1, hk])
  · rintro ⟨h, hlast⟩
    refine ⟨h.first, fun k j' P' hk => ?_⟩
    rw [snoc] at hk
    rcases Nat.lt_trichotomy k c.links.length with hlt | rfl | hgt
    · rw [List.getElem?_append_left hlt] at hk
      exact h.next k j' P' hk
    · rw [List.getElem?_concat_length] at hk
      cases hk
      exact hlast
    · rw [List.getElem?_eq_none (by simpa using hgt)] at hk
      cases hk

/-- A longer chain holds if its last condition does, and what is before it does at an ancestor: at the parent, if they are
joined as parent and child. -/
theorem holds_snoc {j : Combinator} {P : Condition} {node : Tree} {ancestry : List Tree} :
    (c.snoc j P).Holds node ancestry ↔
      P node ancestry ∧ ∃ i, (j = .child → i = 0) ∧ Condition.At c.Holds ancestry i := by
  have hlength : (c.snoc j P).links.length = c.links.length + 1 := by simp [snoc]
  rw [Holds, hlength]
  constructor
  · rintro ⟨place, hlast, hplaced⟩
    obtain ⟨hplaced, hP, hlt, hchild⟩ := placed_snoc.1 hplaced
    rw [hlast] at hP hlt hchild
    refine ⟨Condition.at_zero.1 hP, place c.links.length - 1, fun hj => by rw [hchild hj], ?_⟩
    -- the places of the shorter chain, seen from the one of its last condition
    have hfrom : c.Placed ((node :: ancestry).drop (place c.links.length)) fun k => place k - place c.links.length :=
      placed_drop.2 (hplaced.congr fun k hk => Nat.sub_add_cancel (hplaced.antitone hk (Nat.le_refl _)))
    have hdrop : (node :: ancestry).drop (place c.links.length) = ancestry.drop (place c.links.length - 1) := by
      obtain ⟨i, hi⟩ := Nat.exists_eq_add_of_lt hlt
      rw [hi]
      simp
    have hin : place c.links.length - 1 < ancestry.length := by
      have hle := hplaced.antitone (Nat.zero_le _) (Nat.le_refl _)
      have hfirst := hplaced.first.lt_length
      rw [List.length_cons] at hfirst
      omega
    refine ⟨_, _, List.drop_eq_getElem_cons hin, fun k => place k - place c.links.length, Nat.sub_self _, ?_⟩
    rw [← List.drop_eq_getElem_cons hin, ← hdrop]
    exact hfrom
  · rintro ⟨hP, i, hi, t, above, hdrop, place, hlast, hplaced⟩
    refine ⟨fun k => if k ≤ c.links.length then place k + (i + 1) else 0, by simp, placed_snoc.2 ⟨?_, ?_⟩⟩
    · rw [← hdrop] at hplaced
      have hpath : ancestry.drop i = (node :: ancestry).drop (i + 1) := rfl
      exact (placed_drop.1 (hpath ▸ hplaced)).congr fun k hk => if_pos hk
    · simp only [Nat.le_refl, if_true, if_neg (Nat.not_succ_le_self _), hlast]
      exact ⟨Condition.at_zero.2 hP, by omega, fun hj => by rw [hi hj]⟩

end Placements

end Chain

/-! ## Meaning -/

/-- A node is below another, and these are the ancestors that it has below the other, nearest first. -/
def Tree.Below (top d : Tree) (between : List Tree) : Prop :=
  List.IsChain Tree.ChildOf (d :: (between ++ [top]))

/-- How a value has to stand to a literal to pass a test. -/
def AttrOp.Passes (op : AttrOp) (value : Json) (literal : String) : Prop :=
  match op with
  | .eq => value.equalsLiteral literal
  | .lt => value.compareLiteral? literal = some .lt
  | .le => value.compareLiteral? literal = some .lt ∨ value.compareLiteral? literal = some .eq
  | .gt => value.compareLiteral? literal = some .gt
  | .ge => value.compareLiteral? literal = some .gt ∨ value.compareLiteral? literal = some .eq
  | .other _ => False

namespace Selector

mutual

/-- The chain of conditions that a selector spells out. -/
def chain : Selector → Chain
  | .any => .single fun _ _ => True
  | .type name => .single fun node _ => Text.sameName name node.name
  | .compound parts => .single fun node ancestry => ∀ P ∈ conditions parts, P node ancestry
  | .complex left j right => left.chain.snoc j right.chain.Holds
  | .pseudo .is args => .single fun node ancestry => ∃ P ∈ conditions args, P node ancestry
  | .pseudo .whereAny args => .single fun node ancestry => ∃ P ∈ conditions args, P node ancestry
  | .pseudo .not args => .single fun node ancestry => ¬∃ P ∈ conditions args, P node ancestry
  | .pseudo .has args => .single fun node _ => ∃ d between, node.Below d between ∧ ∃ P ∈ conditions args, P d between
  | .pseudo (.other _) _ => .single fun _ _ => False
  | .attribute path none => .single fun node _ => ∃ value, node.label.resolve? path = some value ∧ value.isNull = false
  | .attribute path (some (op, literal)) =>
    .single fun node _ => ∃ value, node.label.resolve? path = some value ∧ op.Passes value literal

/-- What the selectors of a list ask for. -/
def conditions : List Selector → List Condition
  | [] => []
  | s :: rest => s.chain.Holds :: conditions rest

end

/-- A node with the given ancestors, nearest first, satisfies a selector. -/
def Satisfies (s : Selector) : Condition :=
  s.chain.Holds

mutual

/-- Whether a selector has no construct that cannot be evaluated, however deep. -/
def supported : Selector → Bool
  | .any => true
  | .type _ => true
  | .compound parts => supportedAll parts
  | .complex left .child right => left.supported && right.supported
  | .complex left .descendant right => left.supported && right.supported
  | .complex _ .adjacent _ => false
  | .complex _ .sibling _ => false
  | .pseudo .is args => supportedAll args
  | .pseudo .whereAny args => supportedAll args
  | .pseudo .not args => supportedAll args
  | .pseudo .has args => supportedAll args
  | .pseudo (.other _) _ => false
  | .attribute _ (some (.other _, _)) => false
  | .attribute _ _ => true

/-- Whether no selector of a list has a construct that cannot be evaluated. -/
def supportedAll : List Selector → Bool
  | [] => true
  | s :: rest => s.supported && supportedAll rest

end

/-! ## Verdicts -/

/-- A verdict is given, and says whether something is so. -/
inductive Decides : Except MatchError Bool → Prop → Prop
  | yes {P : Prop} : P → Decides (.ok true) P
  | no {P : Prop} : ¬P → Decides (.ok false) P

theorem Decides.congr {verdict : Except MatchError Bool} {P Q : Prop} (h : Decides verdict P) (hiff : P ↔ Q) :
    Decides verdict Q := by
  cases h with
  | yes h => exact .yes (hiff.1 h)
  | no h => exact .no fun hq => h (hiff.2 hq)

theorem decides_of_iff {b : Bool} {P : Prop} (h : b = true ↔ P) : Decides (.ok b) P := by
  cases b with
  | true => exact .yes (h.1 rfl)
  | false => exact .no fun hp => nomatch h.2 hp

theorem Decides.not {verdict : Except MatchError Bool} {P : Prop} (h : Decides verdict P) :
    Decides (verdict.map Bool.not) ¬P := by
  cases h with
  | yes h => exact .no fun hn => hn h
  | no h => exact .yes h

theorem Decides.single {verdict : Except MatchError Bool} {P : Condition} {node : Tree} {ancestry : List Tree}
    (h : Decides verdict (P node ancestry)) : Decides verdict ((Chain.single P).Holds node ancestry) :=
  h.congr Chain.holds_single.symm

section Search

variable {test : Test} {P : Condition}

/-- Asking ancestors from the nearest on decides whether the condition holds at any of them. -/
theorem decides_someAncestor (h : ∀ t above, Decides (test t above) (P t above)) (ancestry : List Tree) :
    Decides (someAncestor test ancestry) (∃ i, P.At ancestry i) := by
  induction ancestry with
  | nil => exact .no fun ⟨_, hat⟩ => Condition.not_at_nil hat
  | cons t above ih =>
    rw [someAncestor]
    have ht := h t above
    revert ht
    generalize test t above = verdict
    rintro (ht | ht)
    · exact .yes ⟨0, Condition.at_zero.2 ht⟩
    · refine ih.congr ⟨fun ⟨i, hat⟩ => ⟨i + 1, Condition.at_succ.2 hat⟩, ?_⟩
      rintro ⟨i, hat⟩
      cases i with
      | zero => exact absurd (Condition.at_zero.1 hat) ht
      | succ i => exact ⟨i, Condition.at_succ.1 hat⟩

/-- What is below a node is a child of it or below one. -/
theorem exists_below_iff {label : Label} {children : List Tree} {Q : Tree → List Tree → Prop} :
    (∃ d between, (Tree.node label children).Below d between ∧ Q d between) ↔
      ∃ t ∈ children, Q t [] ∨ ∃ d between, t.Below d between ∧ Q d (between ++ [t]) := by
  constructor
  · rintro ⟨d, between, hbelow, hQ⟩
    rcases List.eq_nil_or_concat between with rfl | ⟨between, t, rfl⟩
    · have hchild : d.ChildOf (.node label children) := by simpa [Tree.Below] using hbelow
      exact ⟨d, hchild, Or.inl hQ⟩
    · rw [List.concat_eq_append] at hbelow hQ
      rw [Tree.Below, List.append_assoc, ← List.cons_append] at hbelow
      obtain ⟨hbelow, hchild, -⟩ := List.isChain_append_cons_cons.1 hbelow
      exact ⟨t, hchild, Or.inr ⟨d, between, hbelow, hQ⟩⟩
  · rintro ⟨t, ht, hQ | ⟨d, between, hbelow, hQ⟩⟩
    · have hchild : t.ChildOf (.node label children) := ht
      exact ⟨t, [], by simpa [Tree.Below] using hchild, hQ⟩
    · refine ⟨d, between ++ [t], ?_, hQ⟩
      rw [Tree.Below, List.append_assoc, ← List.cons_append]
      exact List.isChain_append_cons_cons.2 ⟨hbelow, ht, List.isChain_singleton _⟩

mutual

/-- Asking what is below a node decides whether the condition holds anywhere there. -/
theorem decides_someDescendant (h : ∀ t above, Decides (test t above) (P t above)) (t : Tree) (above : List Tree) :
    Decides (someDescendant test above t) (∃ d between, t.Below d between ∧ P d (between ++ above)) := by
  cases t with
  | node label children =>
    rw [someDescendant]
    refine (decides_someAmong h children above).congr ?_
    rw [exists_below_iff (Q := fun d between => P d (between ++ above))]
    simp only [List.nil_append, List.append_assoc, List.singleton_append]

theorem decides_someAmong (h : ∀ t above, Decides (test t above) (P t above)) (ts : List Tree) (above : List Tree) :
    Decides (someAmong test above ts)
      (∃ t ∈ ts, P t above ∨ ∃ d between, t.Below d between ∧ P d (between ++ t :: above)) := by
  cases ts with
  | nil => exact .no fun ⟨_, ht, _⟩ => absurd ht List.not_mem_nil
  | cons t rest =>
    rw [someAmong]
    have ht := h t above
    revert ht
    generalize test t above = verdict
    rintro (ht | ht)
    · exact .yes ⟨t, List.mem_cons_self, Or.inl ht⟩
    · have hbelow := decides_someDescendant h t (t :: above)
      revert hbelow
      generalize someDescendant test (t :: above) t = verdict
      rintro (hbelow | hbelow)
      · exact .yes ⟨t, List.mem_cons_self, Or.inr hbelow⟩
      · refine (decides_someAmong h rest above).congr ?_
        rw [List.exists_mem_cons_iff]
        exact (or_iff_right fun hor => hor.elim ht hbelow).symm

end

end Search

theorem any_compareLiteral_iff {value : Option Json} {literal : String} {p : Ordering → Bool} :
    (value.bind (Json.compareLiteral? · literal)).any p ↔
      ∃ v, value = some v ∧ ∃ order, v.compareLiteral? literal = some order ∧ p order := by
  cases value with
  | none => simp
  | some v => simp [Option.any_eq_true]

theorem decides_attributeTest (node : Tree) (path : String) (test : Option (AttrOp × String))
    (h : (Selector.attribute path test).supported = true) (ancestry : List Tree) :
    Decides (attributeTest node path test) ((Selector.attribute path test).Satisfies node ancestry) := by
  unfold Satisfies attributeTest
  cases test with
  | none =>
    rw [chain]
    refine .single (decides_of_iff ?_)
    simp [Option.any_eq_true]
  | some test =>
    obtain ⟨op, literal⟩ := test
    rw [chain]
    refine .single ?_
    cases op with
    | other symbol => simp [supported] at h
    | eq => exact decides_of_iff (by simp [AttrOp.Passes, Option.any_eq_true])
    | lt => exact decides_of_iff (by simp [any_compareLiteral_iff, AttrOp.Passes, Ordering.isLT_iff_eq_lt])
    | le =>
      refine decides_of_iff (any_compareLiteral_iff.trans ?_)
      simp [AttrOp.Passes, Ordering.isLE_iff_eq_lt_or_eq_eq, and_or_left, exists_or]
    | gt => exact decides_of_iff (by simp [any_compareLiteral_iff, AttrOp.Passes, Ordering.isGT_iff_eq_gt])
    | ge =>
      refine decides_of_iff (any_compareLiteral_iff.trans ?_)
      simp [AttrOp.Passes, Ordering.isGE_iff_eq_gt_or_eq_eq, and_or_left, exists_or]

section Joined

variable {left right : Selector} {node : Tree} {ancestry : List Tree}
  (hright : Decides (right.matchesAt node ancestry) (right.Satisfies node ancestry))
  (hleft : ∀ t above, Decides (left.matchesAt t above) (left.Satisfies t above))

include hright hleft

theorem decides_child : Decides ((complex left .child right).matchesAt node ancestry)
    ((complex left .child right).Satisfies node ancestry) := by
  rw [Satisfies, chain]
  refine Decides.congr ?_ Chain.holds_snoc.symm
  revert hright
  cases ancestry with
  | nil =>
    rw [matchesAt]
    generalize right.matchesAt node [] = verdict
    rintro (hright | hright)
    · refine .no ?_
      rintro ⟨-, i, -, hat⟩
      exact Condition.not_at_nil hat
    · exact .no fun hboth => hright hboth.1
  | cons parent above =>
    rw [matchesAt]
    generalize right.matchesAt node (parent :: above) = verdict
    rintro (hright | hright)
    · refine (hleft parent above).congr ⟨fun hleft => ?_, ?_⟩
      · exact ⟨hright, 0, fun _ => rfl, Condition.at_zero.2 hleft⟩
      · rintro ⟨-, i, hi, hat⟩
        cases hi rfl
        exact Condition.at_zero.1 hat
    · exact .no fun hboth => hright hboth.1

theorem decides_descendant : Decides ((complex left .descendant right).matchesAt node ancestry)
    ((complex left .descendant right).Satisfies node ancestry) := by
  rw [Satisfies, chain, matchesAt]
  refine Decides.congr ?_ Chain.holds_snoc.symm
  revert hright
  generalize right.matchesAt node ancestry = verdict
  rintro (hright | hright)
  · refine (decides_someAncestor hleft ancestry).congr ⟨?_, ?_⟩
    · rintro ⟨i, hat⟩
      exact ⟨hright, i, by simp, hat⟩
    · rintro ⟨-, i, -, hat⟩
      exact ⟨i, hat⟩
  · exact .no fun hboth => hright hboth.1

end Joined

mutual

/-- The matcher decides what a selector means. -/
theorem decides_matchesAt : ∀ (s : Selector), s.supported = true → ∀ (node : Tree) (ancestry : List Tree),
    Decides (s.matchesAt node ancestry) (s.Satisfies node ancestry)
  | .any, _, node, ancestry => by
    rw [matchesAt, Satisfies, chain]
    exact .single (.yes trivial)
  | .type name, _, node, ancestry => by
    rw [matchesAt, Satisfies, chain]
    exact .single (decides_of_iff Iff.rfl)
  | .compound parts, h, node, ancestry => by
    rw [supported] at h
    rw [matchesAt, Satisfies, chain]
    exact .single (decides_matchesAll parts h node ancestry)
  | .complex left .child right, h, node, ancestry => by
    rw [supported, Bool.and_eq_true] at h
    exact decides_child (decides_matchesAt right h.2 node ancestry) (decides_matchesAt left h.1)
  | .complex left .descendant right, h, node, ancestry => by
    rw [supported, Bool.and_eq_true] at h
    exact decides_descendant (decides_matchesAt right h.2 node ancestry) (decides_matchesAt left h.1)
  | .complex _ .adjacent _, h, _, _ => by simp [supported] at h
  | .complex _ .sibling _, h, _, _ => by simp [supported] at h
  | .pseudo .is args, h, node, ancestry => by
    rw [supported] at h
    rw [matchesAt, Satisfies, chain]
    exact .single (decides_matchesAny args h node ancestry)
  | .pseudo .whereAny args, h, node, ancestry => by
    rw [supported] at h
    rw [matchesAt, Satisfies, chain]
    exact .single (decides_matchesAny args h node ancestry)
  | .pseudo .not args, h, node, ancestry => by
    rw [supported] at h
    rw [matchesAt, Satisfies, chain]
    exact .single (decides_matchesAny args h node ancestry).not
  | .pseudo .has args, h, node, ancestry => by
    rw [supported] at h
    rw [matchesAt, Satisfies, chain]
    refine .single ((decides_someDescendant (decides_matchesAny args h) node []).congr ?_)
    simp only [List.append_nil]
  | .pseudo (.other _) _, h, _, _ => by simp [supported] at h
  | .attribute path test, h, node, ancestry => by
    rw [matchesAt]
    exact decides_attributeTest node path test h ancestry

theorem decides_matchesAll : ∀ (parts : List Selector), supportedAll parts = true →
    ∀ (node : Tree) (ancestry : List Tree),
    Decides (matchesAll parts node ancestry) (∀ P ∈ conditions parts, P node ancestry)
  | [], _, node, ancestry => by
    rw [matchesAll, conditions]
    exact .yes nofun
  | s :: rest, h, node, ancestry => by
    rw [supportedAll, Bool.and_eq_true] at h
    rw [matchesAll, conditions, List.forall_mem_cons]
    have hs := decides_matchesAt s h.1 node ancestry
    revert hs
    generalize s.matchesAt node ancestry = verdict
    rintro (hs | hs)
    · exact (decides_matchesAll rest h.2 node ancestry).congr (and_iff_right hs).symm
    · exact .no fun hall => hs hall.1

theorem decides_matchesAny : ∀ (args : List Selector), supportedAll args = true →
    ∀ (node : Tree) (ancestry : List Tree),
    Decides (matchesAny args node ancestry) (∃ P ∈ conditions args, P node ancestry)
  | [], _, node, ancestry => by
    rw [matchesAny, conditions]
    exact .no fun ⟨_, hP, _⟩ => absurd hP List.not_mem_nil
  | s :: rest, h, node, ancestry => by
    rw [supportedAll, Bool.and_eq_true] at h
    rw [matchesAny, conditions, List.exists_mem_cons_iff]
    have hs := decides_matchesAt s h.1 node ancestry
    revert hs
    generalize s.matchesAt node ancestry = verdict
    rintro (hs | hs)
    · exact .yes (Or.inl hs)
    · exact (decides_matchesAny rest h.2 node ancestry).congr (or_iff_right hs).symm

end

/-- The matcher decides the meaning of every selector that it can evaluate: it always comes to a verdict, and says yes exactly
if the node satisfies the selector. What a node has below it does not depend on what is above it. -/
theorem matchesAt_decides {s : Selector} (h : s.supported = true) (node : Tree) (ancestry : List Tree) :
    (∃ verdict, s.matchesAt node ancestry = .ok verdict ∧ (verdict = true ↔ s.Satisfies node ancestry)) ∧
    ∀ args, s = .pseudo .has args → ∀ other, s.Satisfies node other ↔ s.Satisfies node ancestry := by
  constructor
  · have hs := decides_matchesAt s h node ancestry
    revert hs
    generalize s.matchesAt node ancestry = verdict
    rintro (hs | hs)
    · exact ⟨true, rfl, iff_of_true rfl hs⟩
    · exact ⟨false, rfl, iff_of_false Bool.false_ne_true hs⟩
  · rintro args rfl other
    rw [Satisfies, chain, Chain.holds_single, Chain.holds_single]

/-- The nearest ancestor of a type need not be the one that the rest of the chain is found at. -/
theorem matchesAt_decides_farther :
    (complex (complex (type "a") .child (type "b")) .descendant (type "c")).Satisfies (.node { name := "c" } [])
      [.node { name := "b" } [], .node { name := "x" } [], .node { name := "b" } [], .node { name := "a" } []] := by
  obtain ⟨⟨verdict, hverdict, hiff⟩, -⟩ := matchesAt_decides
    (s := complex (complex (type "a") .child (type "b")) .descendant (type "c")) rfl (.node { name := "c" } [])
    [.node { name := "b" } [], .node { name := "x" } [], .node { name := "b" } [], .node { name := "a" } []]
  have htrue : (complex (complex (type "a") .child (type "b")) .descendant (type "c")).matchesAt (.node { name := "c" } [])
      [.node { name := "b" } [], .node { name := "x" } [], .node { name := "b" } [], .node { name := "a" } []] =
        .ok true := by
    cbv
  exact hiff.1 (Except.ok.inj (hverdict.symm.trans htrue))

end Selector

end RuleWalk
