import Mathlib
import RuleWalk.Selector.Attribute

/-!
# Numerals and doubles

A conversion to a double keeps the sign and zero, whatever it rounds away, so numbers on different sides of zero compare
right as doubles. An integer numeral is read with its value by every reader whose range holds it. And a number that was
printed is always a numeral again, one that is read as some number.
-/

namespace RuleWalk

/-- Two pairs of integers compare alike if they stand alike. -/
theorem compare_eq_compare_iff {a b c d : Int} : compare a b = compare c d ↔ (a < b ↔ c < d) ∧ (a = b ↔ c = d) := by
  constructor
  · intro h
    rw [← Int.compare_eq_lt, ← Int.compare_eq_eq, h, Int.compare_eq_lt, Int.compare_eq_eq]
    exact ⟨Iff.rfl, Iff.rfl⟩
  · rintro ⟨hlt, heq⟩
    rcases Int.lt_trichotomy a b with h | h | h
    · rw [Int.compare_eq_lt.2 h, Int.compare_eq_lt.2 (hlt.1 h)]
    · rw [Int.compare_eq_eq.2 h, Int.compare_eq_eq.2 (heq.1 h)]
    · have hgt : d < c := by omega
      rw [Int.compare_eq_gt.2 h, Int.compare_eq_gt.2 hgt]

theorem lt_eq_compare {n m : Int} (h : n < m) : some Ordering.lt = some (compare n m) := by
  rw [Int.compare_eq_lt.2 h]

theorem gt_eq_compare {n m : Int} (h : m < n) : some Ordering.gt = some (compare n m) := by
  rw [Int.compare_eq_gt.2 h]

/-- Which side of zero a signed number is on depends on its sign and on whether it is zero, not on its size. -/
theorem compare_signed_congr (neg : Bool) {k l : Nat} (h : k = 0 ↔ l = 0) :
    compare (if neg then -(k : Int) else k) 0 = compare (if neg then -(l : Int) else l) 0 := by
  rw [compare_eq_compare_iff]
  split <;> omega

/-! ## Doubles on the two sides of zero -/

namespace Double

/-- Positive zero. -/
def zero : Double := .finite ⟨false, 0⟩

/-- A finite double is on the side of zero that its units are on. -/
theorem compare?_finite_zero (d : Dyadic) : (finite d).compare? zero = some (compare d.toInt 0) := by
  simp [compare?, zero, Dyadic.toInt]

theorem compare?_infinite_zero (neg : Bool) {num : Nat} (h : 0 < num) :
    (infinite neg).compare? zero = some (compare (if neg then -(num : Int) else num) 0) := by
  cases neg with
  | true => exact lt_eq_compare (show -(num : Int) < 0 by omega)
  | false => exact gt_eq_compare (show (0 : Int) < num by omega)

theorem le_roundDiv (num den : Nat) : num / den ≤ roundDiv num den := by
  simp only [roundDiv]
  split_ifs <;> omega

theorem roundDiv_zero {den : Nat} (h : 0 < den) : roundDiv 0 den = 0 := by
  simp [roundDiv, h]

theorem twoTo_pos (k : Nat) : 0 < twoTo k :=
  Nat.two_pow_pos k

/-- Of a whole number of units there is always something left above the bits that are left out. -/
theorem twoTo_droppedBits_le {units : Nat} (h : units ≠ 0) : twoTo (droppedBits units) ≤ units := by
  have hlog : droppedBits units ≤ units.log2 := by
    unfold droppedBits precision
    omega
  calc twoTo (droppedBits units) ≤ 2 ^ units.log2 := Nat.pow_le_pow_right (by omega) hlog
    _ ≤ units := Nat.log2_self_le h

/-- A whole number of units rounded to the bits that a double keeps. -/
def rounded (units : Nat) : Nat :=
  roundDiv units (twoTo (droppedBits units)) * twoTo (droppedBits units)

/-- Rounding makes nothing zero that is not zero. -/
theorem rounded_eq_zero_iff {units : Nat} : rounded units = 0 ↔ units = 0 := by
  constructor
  · intro h
    by_contra hne
    have hfits : 1 ≤ units / twoTo (droppedBits units) :=
      (Nat.one_le_div_iff (twoTo_pos _)).2 (twoTo_droppedBits_le hne)
    have hround := le_roundDiv units (twoTo (droppedBits units))
    rcases Nat.mul_eq_zero.1 h with h | h
    · omega
    · exact absurd h (twoTo_pos _).ne'
  · rintro rfl
    rw [rounded, roundDiv_zero (twoTo_pos _), Nat.zero_mul]

/-- A natural number is rounded to the nearest double, or is too large for one. -/
theorem ofRatio_one (neg : Bool) (num : Nat) : ofRatio neg num 1 =
    if rounded (num * twoTo unitBits) < overflowUnits then .finite ⟨neg, rounded (num * twoTo unitBits)⟩
    else .infinite neg := by
  unfold ofRatio rounded
  generalize overflowUnits = bound
  simp only [Nat.div_one, Nat.one_mul]

/-- Rounding a whole number keeps its side of zero. -/
theorem compare?_ofRatio_one (neg : Bool) (num : Nat) :
    (ofRatio neg num 1).compare? zero = some (compare (if neg then -(num : Int) else num) 0) := by
  have hzero : rounded (num * twoTo unitBits) = 0 ↔ num = 0 := by
    rw [rounded_eq_zero_iff, Nat.mul_eq_zero, or_iff_left (twoTo_pos _).ne']
  have hover : 0 < overflowUnits := twoTo_pos _
  rw [ofRatio_one]
  generalize rounded (num * twoTo unitBits) = units at hzero
  generalize overflowUnits = bound at hover
  split
  · rw [compare?_finite_zero]
    exact congrArg some (compare_signed_congr neg hzero)
  · exact compare?_infinite_zero neg (by omega)

/-- An integer and its double are on the same side of zero. -/
theorem compare?_ofInt (n : Int) : (ofInt n).compare? zero = some (compare n 0) := by
  have hn : (if decide (n < 0) then -(n.natAbs : Int) else n.natAbs) = n := by
    simp only [decide_eq_true_eq]
    split <;> omega
  rw [ofInt, compare?_ofRatio_one, hn]

/-- A whole decimal and its double are on the same side of zero. -/
theorem compare?_ofDecimal (neg : Bool) (digits : Nat) :
    (ofDecimal neg digits 0).compare? zero = some (compare (if neg then -(digits : Int) else digits) 0) := by
  rcases Nat.eq_zero_or_pos digits with rfl | hdigits
  · have hzero : ofDecimal neg 0 0 = .finite ⟨neg, 0⟩ := by
      simp [ofDecimal]
    rw [hzero, compare?_finite_zero]
    rfl
  · have hwhole : ofDecimal neg digits 0 =
        if (400 : Int) < (Nat.toDigits 10 digits).length then .infinite neg else ofRatio neg digits 1 := by
      have hsize : ¬((Nat.toDigits 10 digits).length : Int) < -400 := by omega
      simp [ofDecimal, hdigits.ne', hsize, tenTo]
    rw [hwhole]
    split
    · exact compare?_infinite_zero neg hdigits
    · exact compare?_ofRatio_one neg digits

theorem neg_of_infinite {n : Int} (h : (infinite true).compare? zero = some (compare n 0)) : n < 0 := by
  have hlt : Ordering.lt = compare n 0 := Option.some.inj h
  exact Int.compare_eq_lt.1 hlt.symm

theorem pos_of_infinite {n : Int} (h : (infinite false).compare? zero = some (compare n 0)) : 0 < n := by
  have hgt : Ordering.gt = compare n 0 := Option.some.inj h
  exact Int.compare_eq_gt.1 hgt.symm

/-- Numbers on different sides of zero compare right as doubles. -/
theorem compare?_of_sides {a b : Double} {n m : Int} (ha : a.compare? zero = some (compare n 0))
    (hb : b.compare? zero = some (compare m 0)) (hne : compare n 0 ≠ compare m 0) : a.compare? b = some (compare n m) := by
  rw [Ne, compare_eq_compare_iff] at hne
  match a, b with
  | .nan, _ => cases ha
  | _, .nan => cases hb
  | .finite u, .finite v =>
    rw [compare?_finite_zero, Option.some.injEq, compare_eq_compare_iff] at ha hb
    refine congrArg some (compare_eq_compare_iff.2 ?_)
    omega
  | .finite u, .infinite true =>
    have hm := neg_of_infinite hb
    exact gt_eq_compare (by omega)
  | .finite u, .infinite false =>
    have hm := pos_of_infinite hb
    exact lt_eq_compare (by omega)
  | .infinite true, .finite v =>
    have hn := neg_of_infinite ha
    exact lt_eq_compare (by omega)
  | .infinite false, .finite v =>
    have hn := pos_of_infinite ha
    exact gt_eq_compare (by omega)
  | .infinite true, .infinite true =>
    have hn := neg_of_infinite ha
    have hm := neg_of_infinite hb
    omega
  | .infinite true, .infinite false =>
    have hn := neg_of_infinite ha
    have hm := pos_of_infinite hb
    exact lt_eq_compare (by omega)
  | .infinite false, .infinite true =>
    have hn := pos_of_infinite ha
    have hm := neg_of_infinite hb
    exact gt_eq_compare (by omega)
  | .infinite false, .infinite false =>
    have hn := pos_of_infinite ha
    have hm := pos_of_infinite hb
    omega

/-- A quotient is a number. -/
theorem ofRatio_ne_nan (neg : Bool) (num den : Nat) : ofRatio neg num den ≠ .nan := by
  simp only [ofRatio]
  generalize overflowUnits = bound
  split <;> simp

theorem ofInt_ne_nan (n : Int) : ofInt n ≠ .nan := by
  rw [ofInt]
  exact ofRatio_ne_nan _ _ _

theorem ofDecimal_ne_nan (neg : Bool) (digits : Nat) (exponent : Int) : ofDecimal neg digits exponent ≠ .nan := by
  simp only [ofDecimal]
  split_ifs
  · simp
  · simp
  · exact ofRatio_ne_nan _ _ _
  · exact ofRatio_ne_nan _ _ _

/-- Numbers can be compared. -/
theorem exists_compare? {a b : Double} (ha : a ≠ .nan) (hb : b ≠ .nan) : ∃ order, a.compare? b = some order := by
  cases a <;> cases b <;> simp_all [compare?]

end Double

/-! ## Integer numerals -/

namespace Numeral

/-- A run of decimal digits that is not empty. -/
def IsDigits (cs : List Char) : Prop :=
  cs ≠ [] ∧ ∀ c ∈ cs, c.isDigit = true

/-- A text is an integer numeral with an optional sign, and this is its value. -/
inductive Spells : List Char → Int → Prop
  | unsigned {cs : List Char} : IsDigits cs → Spells cs (Nat.ofDigitChars 10 cs 0)
  | plus {cs : List Char} : IsDigits cs → Spells ('+' :: cs) (Nat.ofDigitChars 10 cs 0)
  | minus {cs : List Char} : IsDigits cs → Spells ('-' :: cs) (-(Nat.ofDigitChars 10 cs 0 : Int))

variable {cs : List Char} {m : Int}

/-- Digits are read as the number that they write. -/
theorem natural?_of_isDigits (h : IsDigits cs) : natural? cs = some (Nat.ofDigitChars 10 cs 0) := by
  obtain ⟨hne, hdigits⟩ := h
  have hall : (!cs.isEmpty && cs.all Char.isDigit) = true := by
    simpa [hne] using hdigits
  rw [natural?, if_pos hall]
  rfl

/-- Digits have no sign in front. -/
theorem sign_of_isDigits (h : IsDigits cs) (rest : List Char) : sign (cs ++ rest) = (false, cs ++ rest) := by
  obtain ⟨hne, hdigits⟩ := h
  cases cs with
  | nil => exact absurd rfl hne
  | cons c cs =>
    have hc : c.isDigit = true := hdigits c List.mem_cons_self
    rw [List.cons_append]
    unfold sign
    split
    · rename_i heq
      obtain rfl := (List.cons.inj heq).1
      cases hc
    · rename_i heq
      obtain rfl := (List.cons.inj heq).1
      cases hc
    · rfl

/-- An integer numeral is a sign and a run of digits, and its value is that of the run with the sign. -/
theorem Spells.parts (h : Spells cs m) : ∃ neg digits, sign cs = (neg, digits) ∧ IsDigits digits ∧
    m = if neg then -(Nat.ofDigitChars 10 digits 0 : Int) else Nat.ofDigitChars 10 digits 0 := by
  cases h with
  | unsigned h =>
    have hsign := sign_of_isDigits h []
    rw [List.append_nil] at hsign
    exact ⟨false, cs, hsign, h, rfl⟩
  | plus h => exact ⟨false, _, rfl, h, rfl⟩
  | minus h => exact ⟨true, _, rfl, h, rfl⟩

/-- A signed word is read from every integer numeral in its range. -/
theorem Spells.signed?_eq (h : Spells cs m) : signed? cs = if fitsSigned m then some m else none := by
  obtain ⟨neg, digits, hsign, hdigits, rfl⟩ := h.parts
  simp [signed?, hsign, natural?_of_isDigits hdigits]

/-- An unsigned word is read from every integer numeral in its range that has no minus sign. -/
theorem Spells.unsigned?_eq (h : Spells cs m) :
    unsigned? cs = (if fitsUnsigned m then some m.toNat else none) ∨ m ≤ 0 ∧ unsigned? cs = none := by
  obtain ⟨neg, digits, hsign, hdigits, rfl⟩ := h.parts
  cases neg with
  | true => exact Or.inr ⟨by simp, by simp [unsigned?, hsign, natural?_of_isDigits hdigits]⟩
  | false => exact Or.inl (by simp [unsigned?, hsign, natural?_of_isDigits hdigits])

/-! ## Decimal numerals -/

/-- An exponent as it is printed: none at all, or a letter, a sign and digits. -/
inductive IsExponent : List Char → Prop
  | absent : IsExponent []
  | signed {c : Char} {digits : List Char} : c = '-' ∨ c = '+' → IsDigits digits → IsExponent ('e' :: c :: digits)

/-- A numeral without a sign as it is printed: digits, perhaps a point and more digits, and an exponent. -/
inductive Printed : List Char → Prop
  | whole {digits exponent : List Char} : IsDigits digits → IsExponent exponent → Printed (digits ++ exponent)
  | point {digits fraction exponent : List Char} : IsDigits digits → (∀ c ∈ fraction, c.isDigit = true) →
    IsExponent exponent → Printed (digits ++ '.' :: (fraction ++ exponent))

/-- An exponent can be read. -/
theorem IsExponent.exponent?_eq (h : IsExponent cs) : ∃ n, exponent? cs = some n := by
  cases h with
  | absent => exact ⟨0, rfl⟩
  | signed hc hdigits =>
    rcases hc with rfl | rfl
    · exact ⟨_, by simp [exponent?, sign, natural?_of_isDigits hdigits]; rfl⟩
    · exact ⟨_, by simp [exponent?, sign, natural?_of_isDigits hdigits]; rfl⟩

/-- A run of digits ends where an exponent begins. -/
theorem IsExponent.run_eq (h : IsExponent cs) {digits : List Char} (hdigits : ∀ c ∈ digits, c.isDigit = true) :
    (digits ++ cs).takeWhile Char.isDigit = digits ∧ (digits ++ cs).dropWhile Char.isDigit = cs := by
  rw [List.takeWhile_append_of_pos hdigits, List.dropWhile_append_of_pos hdigits]
  cases h with
  | absent => simp
  | signed => simp

section Reading

variable {digits fraction exponent : List Char} {neg : Bool} {n : Int}

/-- A decimal without a point is read as its digits, scaled by its exponent. -/
theorem double?_whole (hsign : sign cs = (neg, digits ++ exponent)) (hdigits : IsDigits digits)
    (hexponent : IsExponent exponent) (hn : exponent? exponent = some n) :
    double? cs = some (.ofDecimal neg (digitsFrom 0 digits) n) := by
  obtain ⟨htake, hdrop⟩ := hexponent.run_eq hdigits.2
  cases hexponent with
  | absent =>
    simp only [List.append_nil] at htake hdrop hsign
    simp [double?, hsign, htake, hdrop, hn, hdigits.1]
  | signed => simp [double?, hsign, htake, hdrop, hn, hdigits.1]

/-- A decimal with a point is read as its digits, scaled by its exponent less the length of its fraction. -/
theorem double?_point (hsign : sign cs = (neg, digits ++ '.' :: (fraction ++ exponent))) (hdigits : IsDigits digits)
    (hfraction : ∀ c ∈ fraction, c.isDigit = true) (hexponent : IsExponent exponent) (hn : exponent? exponent = some n) :
    double? cs = some (.ofDecimal neg (digitsFrom 0 (digits ++ fraction)) (n - fraction.length)) := by
  have hbefore : (digits ++ '.' :: (fraction ++ exponent)).takeWhile Char.isDigit = digits := by
    simp [List.takeWhile_append_of_pos hdigits.2]
  have hafter : (digits ++ '.' :: (fraction ++ exponent)).dropWhile Char.isDigit = '.' :: (fraction ++ exponent) := by
    simp [List.dropWhile_append_of_pos hdigits.2]
  obtain ⟨htake, hdrop⟩ := hexponent.run_eq hfraction
  simp [double?, hsign, hbefore, hafter, htake, hdrop, hn, hdigits.1]

end Reading

/-- A double is read from every integer numeral, on the same side of zero. -/
theorem Spells.double?_eq (h : Spells cs m) :
    ∃ d, double? cs = some d ∧ d.compare? .zero = some (compare m 0) := by
  obtain ⟨neg, digits, hsign, hdigits, rfl⟩ := h.parts
  rw [← List.append_nil digits] at hsign
  exact ⟨_, double?_whole hsign hdigits .absent rfl, Double.compare?_ofDecimal neg _⟩

/-- A number is read from what is printed, also after a sign. -/
theorem Printed.double?_eq {body : List Char} {neg : Bool} (h : Printed body) (hsign : sign cs = (neg, body)) :
    ∃ d, double? cs = some d ∧ d ≠ .nan := by
  cases h with
  | whole hdigits hexponent =>
    obtain ⟨n, hn⟩ := hexponent.exponent?_eq
    exact ⟨_, double?_whole hsign hdigits hexponent hn, Double.ofDecimal_ne_nan _ _ _⟩
  | point hdigits hfraction hexponent =>
    obtain ⟨n, hn⟩ := hexponent.exponent?_eq
    exact ⟨_, double?_point hsign hdigits hfraction hexponent hn, Double.ofDecimal_ne_nan _ _ _⟩

end Numeral

/-! ## Numbers as they are printed -/

open Numeral

theorem isDigits_toDigits (n : Nat) : IsDigits (Nat.toDigits 10 n) :=
  ⟨Nat.toDigits_ne_nil, fun _ hc => Nat.isDigit_of_mem_toDigits (by omega) (by omega) hc⟩

theorem isDigit_of_mem_replicate {k : Nat} {c : Char} (h : c ∈ List.replicate k '0') : c.isDigit = true := by
  rw [List.eq_of_mem_replicate h]
  rfl

namespace Decimal

variable {digits fraction : List Char}

theorem isDigits_take (h : IsDigits digits) {k : Nat} (hk : 0 < k) : IsDigits (digits.take k) := by
  refine ⟨?_, fun c hc => h.2 c (List.mem_of_mem_take hc)⟩
  rw [Ne, List.take_eq_nil_iff]
  exact fun hnil => hnil.elim hk.ne' h.1

/-- Digits after digits are digits. -/
theorem isDigits_append (h : IsDigits digits) (hfraction : ∀ c ∈ fraction, c.isDigit = true) :
    IsDigits (digits ++ fraction) := by
  refine ⟨fun hnil => h.1 (List.append_eq_nil_iff.1 hnil).1, fun c hc => ?_⟩
  exact (List.mem_append.1 hc).elim (h.2 c) (hfraction c)

/-- Digits with a point among them have the form of a printed number. -/
theorem printed_positional (h : IsDigits digits) (hfraction : ∀ c ∈ fraction, c.isDigit = true) :
    Printed (digits ++ '.' :: fraction) := by
  simpa using Printed.point h hfraction .absent

/-- A decimal is printed as a numeral. -/
theorem printed_text (d : Decimal) : Printed d.text := by
  have hdigits := isDigits_toDigits d.digits
  unfold Decimal.text
  generalize Nat.toDigits 10 d.digits = digits at hdigits
  simp only
  generalize (digits.length : Int) - 1 + d.exponent = leading
  have hdrop : ∀ k, ∀ c ∈ digits.drop k, c.isDigit = true := fun k c hc => hdigits.2 c (List.mem_of_mem_drop hc)
  have hzeros : ∀ k, ∀ c ∈ List.replicate k '0', c.isDigit = true := fun k c => isDigit_of_mem_replicate
  split
  · split
    · have hzero : IsDigits ['0'] := isDigits_toDigits 0
      refine printed_positional hzero fun c hc => ?_
      exact (List.mem_append.1 hc).elim (hzeros _ c) (hdigits.2 c)
    · split
      · exact printed_positional (isDigits_append hdigits (hzeros _)) (hzeros 1)
      · exact printed_positional (isDigits_take hdigits (by omega)) (hdrop _)
  · have hexponent : IsExponent ('e' :: (if leading < 0 then '-' else '+') :: Nat.toDigits 10 leading.natAbs) := by
      refine .signed ?_ (isDigits_toDigits _)
      split
      · exact Or.inl rfl
      · exact Or.inr rfl
    have hfirst : IsDigits (digits.take 1) := isDigits_take hdigits (by omega)
    split
    · simpa using Printed.whole hfirst hexponent
    · simpa using Printed.point hfirst (hdrop 1) hexponent

end Decimal

/-- A number is printed as a numeral, with a minus sign in front of it or without one. -/
theorem Number.printed_text (n : Number) : ∃ body, Printed body ∧ (n.text.toList = body ∨ n.text.toList = '-' :: body) := by
  cases n with
  | int n =>
    refine ⟨Nat.toDigits 10 n.natAbs, by simpa using Printed.whole (isDigits_toDigits n.natAbs) .absent, ?_⟩
    rw [Number.text, String.toList_ofList, Number.intText]
    split
    · exact Or.inr rfl
    · exact Or.inl rfl
  | real d =>
    refine ⟨if d.units = 0 then ['0', '.', '0'] else (Decimal.shortest d.units).text, ?_, ?_⟩
    · split
      · exact Decimal.printed_positional (isDigits_toDigits 0) (isDigits_toDigits 0).2
      · exact Decimal.printed_text _
    · rw [Number.text, String.toList_ofList, Dyadic.text]
      split
      · exact Or.inr rfl
      · exact Or.inl rfl

namespace Numeral

/-- A printed body has no sign in front. -/
theorem Printed.sign_eq {body : List Char} (h : Printed body) : sign body = (false, body) := by
  cases h with
  | whole hdigits => exact sign_of_isDigits hdigits _
  | point hdigits => exact sign_of_isDigits hdigits _

/-! ## No white space -/

theorem isWhiteSpace_of_isDigit {c : Char} (h : c.isDigit = true) : Text.isWhiteSpace c = false := by
  have hrange : 48 ≤ c.toNat ∧ c.toNat ≤ 57 := by
    simpa [Char.isDigit, UInt32.le_iff_toNat_le] using h
  simp only [Text.isWhiteSpace, Bool.or_eq_false_iff, Bool.and_eq_false_iff, decide_eq_false_iff_not, beq_eq_false_iff_ne]
  omega

theorem IsExponent.isWhiteSpace_eq {cs : List Char} (h : IsExponent cs) : ∀ c ∈ cs, Text.isWhiteSpace c = false := by
  intro c hc
  cases h with
  | absent => exact absurd hc List.not_mem_nil
  | signed hsign hdigits =>
    rcases List.mem_cons.1 hc with rfl | hc
    · rfl
    · rcases List.mem_cons.1 hc with rfl | hc
      · rcases hsign with rfl | rfl <;> rfl
      · exact isWhiteSpace_of_isDigit (hdigits.2 c hc)

/-- There are no blanks in a printed number. -/
theorem Printed.isWhiteSpace_eq {cs : List Char} (h : Printed cs) : ∀ c ∈ cs, Text.isWhiteSpace c = false := by
  intro c hc
  cases h with
  | whole hdigits hexponent =>
    rcases List.mem_append.1 hc with hc | hc
    · exact isWhiteSpace_of_isDigit (hdigits.2 c hc)
    · exact hexponent.isWhiteSpace_eq c hc
  | point hdigits hfraction hexponent =>
    rcases List.mem_append.1 hc with hc | hc
    · exact isWhiteSpace_of_isDigit (hdigits.2 c hc)
    · rcases List.mem_cons.1 hc with rfl | hc
      · rfl
      · rcases List.mem_append.1 hc with hc | hc
        · exact isWhiteSpace_of_isDigit (hfraction c hc)
        · exact hexponent.isWhiteSpace_eq c hc

end Numeral

/-- A text without white space is left as it is. -/
theorem Text.trim_eq_self {cs : List Char} (h : ∀ c ∈ cs, Text.isWhiteSpace c = false) : Text.trim cs = cs := by
  have hskip : ∀ {ds : List Char}, (∀ c ∈ ds, Text.isWhiteSpace c = false) → ds.dropWhile Text.isWhiteSpace = ds := by
    intro ds hds
    cases ds with
    | nil => rfl
    | cons c ds => simp [hds c List.mem_cons_self]
  rw [Text.trim, hskip h, hskip (by simpa using h), List.reverse_reverse]

/-- A number is read from what was printed. -/
theorem Number.double?_text (n : Number) : ∃ d, double? (Text.trim n.text.toList) = some d ∧ d ≠ .nan := by
  obtain ⟨body, hbody, htext⟩ := n.printed_text
  have hspace := hbody.isWhiteSpace_eq
  rcases htext with htext | htext
  · rw [htext, Text.trim_eq_self hspace]
    exact hbody.double?_eq hbody.sign_eq
  · have hsigned : ∀ c ∈ '-' :: body, Text.isWhiteSpace c = false := List.forall_mem_cons.2 ⟨rfl, hspace⟩
    have hsign : sign ('-' :: body) = (true, body) := rfl
    rw [htext, Text.trim_eq_self hsigned]
    exact hbody.double?_eq hsign

end RuleWalk
