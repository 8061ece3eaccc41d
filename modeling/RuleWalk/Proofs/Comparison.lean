import RuleWalk.Proofs.ByteOrder
import RuleWalk.Proofs.Numerals
import RuleWalk.Selector.Match

/-!
# Comparing attributes with literals

A number is compared with a literal as a signed word, as an unsigned word or as a double, whichever is the first that holds
both. For two integers the doubles are only reached when they lie on different sides of zero, so integers always compare as
what they are. Equality has a way of its own for literals that are no number, the printed text; but a printed number is a
number, so this way never disagrees with the order.
-/

namespace RuleWalk

open Numeral

/-! ## Numbers -/

namespace Number

variable {n : Number} {literal : String}

theorem compareLiteral?_of_signed {a b : Int} (ha : n.signed? = some a)
    (hb : Numeral.signed? (Text.trim literal.toList) = some b) : n.compareLiteral? literal = some (compare a b) := by
  simp [compareLiteral?, ha, hb]

theorem compareLiteral?_of_unsigned {a b : Nat}
    (hsigned : n.signed? = none ∨ Numeral.signed? (Text.trim literal.toList) = none) (ha : n.unsigned? = some a)
    (hb : Numeral.unsigned? (Text.trim literal.toList) = some b) : n.compareLiteral? literal = some (compare a b) := by
  rcases hsigned with h | h
  · simp [compareLiteral?, h, ha, hb]
  · simp [compareLiteral?, h, ha, hb]

theorem compareLiteral?_of_double {d : Double}
    (hsigned : n.signed? = none ∨ Numeral.signed? (Text.trim literal.toList) = none)
    (hunsigned : n.unsigned? = none ∨ Numeral.unsigned? (Text.trim literal.toList) = none)
    (hd : Numeral.double? (Text.trim literal.toList) = some d) : n.compareLiteral? literal = n.toDouble.compare? d := by
  rcases hsigned with h | h <;> rcases hunsigned with h' | h'
  · simp [compareLiteral?, h, h', hd]
  · simp [compareLiteral?, h, h', hd]
  · simp [compareLiteral?, h, h', hd]
  · simp [compareLiteral?, h, h', hd]

/-- An integer that a word of 64 bits holds, signed or not. -/
def IsWord (n : Int) : Prop :=
  -2 ^ 63 ≤ n ∧ n ≤ 2 ^ 64 - 1

theorem fitsSigned_iff {n : Int} : Numeral.fitsSigned n = true ↔ -2 ^ 63 ≤ n ∧ n < 2 ^ 63 := by
  simp only [Numeral.fitsSigned, Bool.and_eq_true, decide_eq_true_eq]
  omega

theorem fitsUnsigned_iff {n : Int} : Numeral.fitsUnsigned n = true ↔ 0 ≤ n ∧ n < 2 ^ 64 := by
  simp only [Numeral.fitsUnsigned, Bool.and_eq_true, decide_eq_true_eq]
  omega

theorem compare_toNat {n m : Int} (hn : 0 ≤ n) (hm : 0 ≤ m) : compare n.toNat m.toNat = compare n m := by
  rcases Int.lt_trichotomy n m with h | h | h
  · rw [Int.compare_eq_lt.2 h, Nat.compare_eq_lt.2 (by omega)]
  · rw [Int.compare_eq_eq.2 h, Nat.compare_eq_eq.2 (by omega)]
  · rw [Int.compare_eq_gt.2 h, Nat.compare_eq_gt.2 (by omega)]

theorem signed?_int (n : Int) : (int n).signed? = if fitsSigned n then some n else none :=
  rfl

theorem unsigned?_int (n : Int) : (int n).unsigned? = if fitsUnsigned n then some n.toNat else none :=
  rfl

/-- Integers that lie on different sides of zero compare with numerals as doubles do. -/
theorem compareLiteral?_of_sides {n m : Int} (hliteral : Spells (Text.trim literal.toList) m)
    (hsigned : (int n).signed? = none ∨ Numeral.signed? (Text.trim literal.toList) = none)
    (hunsigned : (int n).unsigned? = none ∨ Numeral.unsigned? (Text.trim literal.toList) = none)
    (hne : compare n 0 ≠ compare m 0) : (int n).compareLiteral? literal = some (compare n m) := by
  obtain ⟨d, hd, hside⟩ := hliteral.double?_eq
  rw [compareLiteral?_of_double hsigned hunsigned hd]
  exact Double.compare?_of_sides (Double.compare?_ofInt n) hside hne

/-- Integers compare with integer numerals by value. -/
theorem compareLiteral?_int {n m : Int} (hn : IsWord n) (hm : IsWord m)
    (hliteral : Spells (Text.trim literal.toList) m) : (int n).compareLiteral? literal = some (compare n m) := by
  unfold IsWord at hn hm
  by_cases hboth : fitsSigned n = true ∧ fitsSigned m = true
  · apply compareLiteral?_of_signed
    · rw [signed?_int, if_pos hboth.1]
    · rw [hliteral.signed?_eq, if_pos hboth.2]
  have hsigned : (int n).signed? = none ∨ Numeral.signed? (Text.trim literal.toList) = none := by
    rw [signed?_int, hliteral.signed?_eq]
    by_cases hfits : fitsSigned n = true
    · exact Or.inr (if_neg fun h => hboth ⟨hfits, h⟩)
    · exact Or.inl (if_neg hfits)
  rw [fitsSigned_iff, fitsSigned_iff] at hboth
  by_cases hneg : n < 0
  · -- then the literal is too large for a signed word, and so not on the side of the number
    refine compareLiteral?_of_sides hliteral hsigned (Or.inl ?_) ?_
    · rw [unsigned?_int, if_neg (by rw [fitsUnsigned_iff]; omega)]
    · rw [Ne, compare_eq_compare_iff]
      omega
  have hword : (int n).unsigned? = some n.toNat := by
    rw [unsigned?_int, if_pos (fitsUnsigned_iff.2 (by omega))]
  rcases hliteral.unsigned?_eq with hunsigned | ⟨hle, hunsigned⟩
  · by_cases hnegative : m < 0
    · refine compareLiteral?_of_sides hliteral hsigned (Or.inr ?_) ?_
      · rw [hunsigned, if_neg (by rw [fitsUnsigned_iff]; omega)]
      · rw [Ne, compare_eq_compare_iff]
        omega
    · rw [if_pos (fitsUnsigned_iff.2 (by omega))] at hunsigned
      rw [compareLiteral?_of_unsigned hsigned hword hunsigned, compare_toNat (by omega) (by omega)]
  · -- a literal with a minus sign, and the number is too large for a signed word
    refine compareLiteral?_of_sides hliteral hsigned (Or.inr hunsigned) ?_
    rw [Ne, compare_eq_compare_iff]
    omega

theorem toDouble_ne_nan (n : Number) : n.toDouble ≠ .nan := by
  cases n with
  | int n => exact Double.ofInt_ne_nan n
  | real d => simp [toDouble]

/-- A number can be compared with its own text. -/
theorem exists_compareLiteral?_text (n : Number) : ∃ order, n.compareLiteral? n.text = some order := by
  obtain ⟨d, hd, hne⟩ := n.double?_text
  simp only [compareLiteral?, hd]
  split
  · exact ⟨_, rfl⟩
  · split
    · exact ⟨_, rfl⟩
    · exact Double.exists_compare? n.toDouble_ne_nan hne

end Number

/-! ## Values -/

namespace Json

/-- Equality is what the order says it is: also where a number is compared by its text. -/
theorem equalsLiteral_eq {value : Json} (h : (∃ n, value = .number n) ∨ ∃ s, value = .string s) (literal : String) :
    value.equalsLiteral literal = (value.compareLiteral? literal).any Ordering.isEq := by
  rcases h with ⟨n, rfl⟩ | ⟨s, rfl⟩
  · simp only [equalsLiteral, compareLiteral?]
    cases horder : n.compareLiteral? literal with
    | some order => rfl
    | none =>
      have hne : n.text ≠ literal := by
        rintro rfl
        obtain ⟨order, hsome⟩ := n.exists_compareLiteral?_text
        rw [horder] at hsome
        cases hsome
      simpa using hne
  · rw [Bool.eq_iff_iff]
    simp [equalsLiteral, compareLiteral?]

end Json

namespace Selector

/-- The verdict of a test of an attribute against a literal. -/
def verdict (node : Tree) (ancestry : List Tree) (path literal : String) (op : AttrOp) : Except MatchError Bool :=
  (Selector.attribute path (some (op, literal))).matchesAt node ancestry

/-- What the five tests of an attribute against a literal say, told by three of them. -/
structure Compares (node : Tree) (ancestry : List Tree) (path literal : String) (less equal greater : Bool) : Prop where
  lt : verdict node ancestry path literal .lt = .ok less
  eq : verdict node ancestry path literal .eq = .ok equal
  gt : verdict node ancestry path literal .gt = .ok greater
  le : verdict node ancestry path literal .le = .ok (less || equal)
  ge : verdict node ancestry path literal .ge = .ok (greater || equal)

section Verdicts

variable {node : Tree} {ancestry : List Tree} {path literal : String} {value : Json}

/-- What the tests of a number or a string say depends only on how it stands to the literal. -/
theorem compares_of_order {order : Option Ordering} (hvalue : node.label.resolve? path = some value)
    (h : (∃ n, value = .number n) ∨ ∃ s, value = .string s) (horder : value.compareLiteral? literal = order) :
    Compares node ancestry path literal (order.any Ordering.isLT) (order.any Ordering.isEq) (order.any Ordering.isGT) := by
  have heq := Json.equalsLiteral_eq h literal
  rw [horder] at heq
  have hle : order.any Ordering.isLE = (order.any Ordering.isLT || order.any Ordering.isEq) := by
    rcases order with _ | _ | _ | _ <;> rfl
  have hge : order.any Ordering.isGE = (order.any Ordering.isGT || order.any Ordering.isEq) := by
    rcases order with _ | _ | _ | _ <;> rfl
  constructor
  · simp [verdict, matchesAt, attributeTest, hvalue, horder]
  · simp [verdict, matchesAt, attributeTest, hvalue, heq]
  · simp [verdict, matchesAt, attributeTest, hvalue, horder]
  · simp [verdict, matchesAt, attributeTest, hvalue, horder, hle]
  · simp [verdict, matchesAt, attributeTest, hvalue, horder, hge]

/-- The tests of an integer that compares with a literal as with another integer. -/
theorem compares_int {n m : Int} (hvalue : node.label.resolve? path = some (.number (.int n)))
    (horder : (Number.int n).compareLiteral? literal = some (compare n m)) :
    Compares node ancestry path literal (decide (n < m)) (decide (n = m)) (decide (m < n)) := by
  have hless : (compare n m).isLT = decide (n < m) := by
    rw [Bool.eq_iff_iff, Ordering.isLT_iff_eq_lt, Int.compare_eq_lt, decide_eq_true_iff]
  have hequal : (compare n m).isEq = decide (n = m) := by
    rw [Bool.eq_iff_iff, Ordering.isEq_iff_eq_eq, Int.compare_eq_eq, decide_eq_true_iff]
  have hgreater : (compare n m).isGT = decide (m < n) := by
    rw [Bool.eq_iff_iff, Ordering.isGT_iff_eq_gt, Int.compare_eq_gt, decide_eq_true_iff]
  have htests : Compares node ancestry path literal _ _ _ := compares_of_order hvalue (Or.inl ⟨_, rfl⟩) horder
  rwa [Option.any_some, Option.any_some, Option.any_some, hless, hequal, hgreater] at htests

theorem compares_string {s : String} {order : Ordering} (hvalue : node.label.resolve? path = some (.string s))
    (horder : compare s literal = order) :
    Compares node ancestry path literal order.isLT order.isEq order.isGT :=
  compares_of_order hvalue (Or.inr ⟨s, rfl⟩) (congrArg some horder)

end Verdicts

/-- Comparisons of attributes with literals. Integers compare with integer numerals by value, whatever words hold them. For
numbers and strings at most one of less, equal and greater holds, and the other two tests are made of these. For strings
exactly one holds, by the order of bytes. -/
theorem comparisons_exact (node : Tree) (ancestry : List Tree) (path literal : String) :
    (∀ n m : Int, node.label.resolve? path = some (.number (.int n)) → Number.IsWord n →
      Spells (Text.trim literal.toList) m → Number.IsWord m →
      verdict node ancestry path literal .eq = .ok (decide (n = m)) ∧
      verdict node ancestry path literal .lt = .ok (decide (n < m)) ∧
      verdict node ancestry path literal .le = .ok (decide (n ≤ m)) ∧
      verdict node ancestry path literal .gt = .ok (decide (n > m)) ∧
      verdict node ancestry path literal .ge = .ok (decide (n ≥ m))) ∧
    (∀ value, node.label.resolve? path = some value → ((∃ n, value = .number n) ∨ ∃ s, value = .string s) →
      ∃ less equal greater : Bool, Compares node ancestry path literal less equal greater ∧
        (less && equal) = false ∧ (less && greater) = false ∧ (equal && greater) = false) ∧
    ∀ s, node.label.resolve? path = some (.string s) →
      Text.bytes s < Text.bytes literal ∧ Compares node ancestry path literal true false false ∨
      Text.bytes s = Text.bytes literal ∧ Compares node ancestry path literal false true false ∨
      Text.bytes literal < Text.bytes s ∧ Compares node ancestry path literal false false true := by
  refine ⟨?_, ?_, ?_⟩
  · intro n m hvalue hn hliteral hm
    have htests : Compares node ancestry path literal _ _ _ :=
      compares_int hvalue (Number.compareLiteral?_int hn hm hliteral)
    refine ⟨htests.eq, htests.lt, ?_, htests.gt, ?_⟩
    · rw [htests.le]
      simp [Int.le_iff_lt_or_eq]
    · rw [htests.ge]
      simp [Int.le_iff_lt_or_eq, eq_comm]
  · intro value hvalue h
    refine ⟨_, _, _, compares_of_order hvalue h rfl, ?_⟩
    rcases value.compareLiteral? literal with _ | _ | _ | _ <;> decide
  · intro s hvalue
    rcases lt_trichotomy s literal with h | h | h
    · exact Or.inl ⟨Text.bytes_lt_iff.2 h, compares_string hvalue (compare_lt_iff_lt.2 h)⟩
    · exact Or.inr (Or.inl ⟨congrArg Text.bytes h, compares_string hvalue (compare_eq_iff_eq.2 h)⟩)
    · exact Or.inr (Or.inr ⟨Text.bytes_lt_iff.2 h, compares_string hvalue (compare_gt_iff_gt.2 h)⟩)

/-- No word holds both the greatest unsigned word and a negative literal, and a literal may have blanks, a sign and zeros. -/
theorem comparisons_exact_mixed :
    Spells (Text.trim " -007 ".toList) (-7) ∧
    verdict (.node { name := "n", attributes := some [("max", .number (.int 18446744073709551615))] } []) [] "max" " -007 "
      .gt = .ok true ∧
    Text.bytes "z" < Text.bytes "é" ∧
    Compares (.node { name := "n", attributes := some [("key", .string "é")] } []) [] "key" "z" false false true := by
  have hliteral : Spells (Text.trim " -007 ".toList) (-7) := by
    have htrim : Text.trim " -007 ".toList = ['-', '0', '0', '7'] := by
      cbv
    rw [htrim]
    exact Spells.minus ⟨by simp, by simp⟩
  have hbytes : Text.bytes "z" < Text.bytes "é" := Text.bytes_lt_iff.2 (by decide)
  refine ⟨hliteral, ?_, hbytes, ?_⟩
  · exact ((comparisons_exact _ [] "max" " -007 ").1 18446744073709551615 (-7) (by cbv) ⟨by decide, by decide⟩ hliteral
      ⟨by decide, by decide⟩).2.2.2.1
  · rcases (comparisons_exact (.node { name := "n", attributes := some [("key", .string "é")] } []) [] "key" "z").2.2 "é"
      (by cbv) with h | h | h
    · exact absurd hbytes (lt_asymm h.1)
    · exact absurd hbytes h.1.not_gt
    · exact h.2

end Selector

end RuleWalk
