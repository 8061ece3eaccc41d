/-!
# Selectors

A selector describes nodes of a syntax tree: by type, by attributes, by what stands around them and by what they contain.
Constructs that can be written but not evaluated are kept in the tree, so that it is the matcher that refuses them.
-/

namespace RuleWalk

/-- How two neighbouring compounds relate. Only `child` and `descendant` can be evaluated. -/
inductive Combinator where
  | child
  | descendant
  | adjacent
  | sibling
deriving DecidableEq, Repr

/-- The mark of a combinator; a descendant has only the blank between its sides. -/
def Combinator.symbol : Combinator → String
  | .child => ">"
  | .descendant => " "
  | .adjacent => "+"
  | .sibling => "~"

/-- A pseudo-class. Only the four that take a list of selectors can be evaluated. -/
inductive PseudoClass where
  | is
  | whereAny
  | not
  | has
  | other (name : String)
deriving DecidableEq, Repr

/-- The name of a pseudo-class. -/
def PseudoClass.name : PseudoClass → String
  | .is => "is"
  | .whereAny => "where"
  | .not => "not"
  | .has => "has"
  | .other name => name

/-- An operator between an attribute and a literal. Only the comparisons can be evaluated. -/
inductive AttrOp where
  | eq
  | lt
  | le
  | gt
  | ge
  | other (symbol : String)
deriving DecidableEq, Repr

/-- The text of an operator. -/
def AttrOp.symbol : AttrOp → String
  | .eq => "="
  | .lt => "<"
  | .le => "<="
  | .gt => ">"
  | .ge => ">="
  | .other symbol => symbol

/-- A selector. An attribute without a test asks for its presence. -/
inductive Selector where
  | any
  | type (name : String)
  | compound (parts : List Selector)
  | complex (left : Selector) (combinator : Combinator) (right : Selector)
  | pseudo (kind : PseudoClass) (args : List Selector)
  | attribute (path : String) (test : Option (AttrOp × String))
deriving Inhabited

namespace Selector

mutual

/-- Whether two selectors are the same. -/
def same : Selector → Selector → Bool
  | .any, .any => true
  | .type a, .type b => a == b
  | .compound a, .compound b => sameList a b
  | .complex l c r, .complex l' c' r' => same l l' && decide (c = c') && same r r'
  | .pseudo k a, .pseudo k' a' => decide (k = k') && sameList a a'
  | .attribute p t, .attribute p' t' => decide (p = p') && decide (t = t')
  | _, _ => false

/-- Whether two lists hold the same selectors in the same order. -/
def sameList : List Selector → List Selector → Bool
  | [], [] => true
  | a :: as, b :: bs => same a b && sameList as bs
  | _, _ => false

end

mutual

/-- Selectors that are the same are equal. -/
theorem eq_of_same : ∀ (a b : Selector), same a b = true → a = b
  | .any, b, h => by cases b <;> simp_all [same]
  | .type _, b, h => by cases b <;> simp_all [same]
  | .compound as, b, h => by
    cases b <;> simp only [same, Bool.false_eq_true] at h
    rw [eq_of_sameList as _ h]
  | .complex l _ r, b, h => by
    cases b <;> simp only [same, Bool.false_eq_true, Bool.and_eq_true, decide_eq_true_eq] at h
    rw [eq_of_same l _ h.1.1, eq_of_same r _ h.2, h.1.2]
  | .pseudo _ as, b, h => by
    cases b <;> simp only [same, Bool.false_eq_true, Bool.and_eq_true, decide_eq_true_eq] at h
    rw [eq_of_sameList as _ h.2, h.1]
  | .attribute _ _, b, h => by cases b <;> simp_all [same]

theorem eq_of_sameList : ∀ (as bs : List Selector), sameList as bs = true → as = bs
  | [], bs, h => by cases bs <;> simp_all [sameList]
  | a :: as, bs, h => by
    cases bs <;> simp only [sameList, Bool.false_eq_true, Bool.and_eq_true] at h
    rw [eq_of_same a _ h.1, eq_of_sameList as _ h.2]

end

mutual

/-- Every selector is the same as itself. -/
theorem same_self : ∀ a : Selector, same a a = true
  | .any => by simp [same]
  | .type _ => by simp [same]
  | .compound as => by simp [same, sameList_self as]
  | .complex l _ r => by simp [same, same_self l, same_self r]
  | .pseudo _ as => by simp [same, sameList_self as]
  | .attribute _ _ => by simp [same]

theorem sameList_self : ∀ as : List Selector, sameList as as = true
  | [] => by simp [sameList]
  | a :: as => by simp [sameList, same_self a, sameList_self as]

end

theorem same_iff {a b : Selector} : same a b = true ↔ a = b :=
  ⟨eq_of_same a b, fun h => h ▸ same_self a⟩

instance : DecidableEq Selector := fun _ _ => decidable_of_iff _ same_iff

end Selector

end RuleWalk
