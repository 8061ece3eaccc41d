import RuleWalk.Proofs.Grammar
import RuleWalk.Proofs.Lists
import RuleWalk.Selector.Printer

/-!
# Selectors and their texts

A selector is printed with blanks around its combinators, with its values in quotes and with the names of its pseudo-classes in
lower case. A reader that is given this text takes the selector from it again, provided that quoting leaves the values as they
are: the reader ends a value at the next quote and knows no escapes. Conversely a selector that is read from its own text has
only such values. Both are proved along the derivation of the selector, once for each construct of the grammar.
-/

namespace RuleWalk

namespace Selector

open Text Reader

mutual

/-- The values of all attribute tests in a selector. -/
def values : Selector → List String
  | .any => []
  | .type _ => []
  | .compound parts => valuesOf parts
  | .complex left _ right => left.values ++ right.values
  | .pseudo _ args => valuesOf args
  | .attribute _ none => []
  | .attribute _ (some (_, value)) => [value]

/-- The values of all attribute tests in some selectors. -/
def valuesOf : List Selector → List String
  | [] => []
  | s :: rest => s.values ++ valuesOf rest

end

/-- The last simple selector of the rightmost compound. -/
def lastSimple? : Selector → Option Selector
  | .complex _ _ right => right.lastSimple?
  | .compound parts => parts.getLast?
  | s => some s

/-- The characters of a selector's text. -/
def chars (s : Selector) : List Char :=
  s.text.toList

/-- The text between the two sides of a combinator. -/
def between : Combinator → List Char
  | .descendant => [' ']
  | j => ' ' :: (j.symbol.toList ++ [' '])

/-- The text of the arguments after the first. -/
def listed (more : List Selector) : List Char :=
  more.flatMap fun s => ',' :: ' ' :: s.chars

/-- One more argument is written after a comma and a blank. -/
theorem listed_cons (s : Selector) (more : List Selector) :
    listed (s :: more) = ',' :: ' ' :: (s.chars ++ listed more) := by
  simp [listed]

/-- The text of arguments; there is none without arguments. -/
def inParentheses : List Selector → List Char
  | [] => []
  | first :: more => '(' :: (first.chars ++ (listed more ++ [')']))

@[simp] theorem chars_any : any.chars = ['*'] := by
  simp [chars, text]

@[simp] theorem chars_type (name : String) : (type name).chars = name.toList := by
  simp [chars, text]

/-- Simple selectors are written one after the other, with nothing between them. -/
theorem toList_textAll (parts : List Selector) : (textAll parts).toList = parts.flatMap chars := by
  induction parts with
  | nil => simp [textAll]
  | cons s rest ih => simp [textAll, ih, chars]

@[simp] theorem chars_compound (parts : List Selector) : (compound parts).chars = parts.flatMap chars := by
  rw [chars, text, toList_textAll]

/-- The two sides of a combinator are written with the combinator between them. -/
@[simp] theorem chars_complex (left : Selector) (j : Combinator) (right : Selector) :
    (complex left j right).chars = left.chars ++ (between j ++ right.chars) := by
  cases j <;> simp [chars, text, between, Combinator.symbol]

/-- The text of a list of arguments, its first one apart. -/
theorem toList_joinWith (first : Selector) (more : List Selector) :
    (joinWith ", " (texts (first :: more))).toList = first.chars ++ listed more := by
  induction more generalizing first with
  | nil => simp [texts, joinWith, chars, listed]
  | cons second more ih =>
    have h := ih second
    simp only [texts, joinWith, String.toList_append, listed, List.flatMap_cons] at h ⊢
    rw [h]
    simp [chars]

@[simp] theorem chars_pseudo (kind : PseudoClass) (args : List Selector) :
    (pseudo kind args).chars = ':' :: (kind.name.toList ++ inParentheses args) := by
  cases args with
  | nil => simp [chars, text, inParentheses]
  | cons first more =>
    rw [chars, text]
    · simp [toList_joinWith, inParentheses]
    · simp

@[simp] theorem chars_present (path : String) : (Selector.attribute path none).chars = '[' :: (path.toList ++ [']']) := by
  simp [chars, text]

/-- A test is written without blanks, its value in quotes. -/
@[simp] theorem chars_tested (path : String) (op : AttrOp) (value : String) :
    (Selector.attribute path (some (op, value))).chars =
      '[' :: (path.toList ++ (op.symbol.toList ++ '"' :: (value.toList.flatMap quoteChar ++ ['"', ']']))) := by
  simp [chars, text, quoted]

/-! ## Values in quotes -/

/-- A value that is written between quotes as it stands. -/
def Plain (value : String) : Prop :=
  quoted value = "\"" ++ value ++ "\""

/-- The digits of an escape are no quotes. -/
theorem quote_not_mem_hexDigits (n : Nat) : '"' ∉ hexDigits n := by
  have hdigit : ∀ d < 16, Nat.digitChar d ≠ '"' := by decide
  induction n using Nat.strong_induction_on with
  | h n ih =>
    unfold hexDigits at ih ⊢
    by_cases hn : n < 16
    · rw [Nat.toDigits_of_lt_base hn, List.mem_singleton]
      exact (hdigit n hn).symm
    · rw [Nat.toDigits_of_base_le (by decide) (by omega), List.mem_append, List.mem_singleton]
      rintro (h | h)
      · exact ih (n / 16) (by omega) h
      · exact hdigit _ (Nat.mod_lt n (by decide)) h.symm

/-- Quoting a character makes no quote of anything else. -/
theorem eq_quote_of_mem_quoteChar {c : Char} (h : '"' ∈ quoteChar c) : c = '"' := by
  by_contra hne
  unfold quoteChar at h
  rw [if_neg hne] at h
  split_ifs at h <;> simp [quote_not_mem_hexDigits, Ne.symm hne] at h

theorem quoteChar_quote : quoteChar '"' = ['\\', '"'] := by decide

/-- A character is written as it stands, and is no quote then, or its written form is longer. -/
theorem quoteChar_cases (c : Char) : (quoteChar c = [c] ∧ c ≠ '"') ∨ 2 ≤ (quoteChar c).length := by
  unfold quoteChar
  split_ifs with hquote
  case neg => exact Or.inl ⟨rfl, hquote⟩
  all_goals exact Or.inr (by simp)

/-- Quoting never makes a text shorter, so it leaves a text as it is only if it leaves each character. -/
theorem length_le_flatMap_quoteChar (cs : List Char) : cs.length ≤ (cs.flatMap quoteChar).length := by
  induction cs with
  | nil => exact Nat.le_refl _
  | cons c rest ih =>
    rw [List.flatMap_cons, List.length_append, List.length_cons]
    rcases quoteChar_cases c with ⟨hc, -⟩ | hc
    · rw [hc, List.length_singleton]
      omega
    · omega

/-- Text that is written as it stands has no quote in it. -/
theorem quote_not_mem_of_flatMap {cs : List Char} (h : cs.flatMap quoteChar = cs) : '"' ∉ cs := by
  induction cs with
  | nil => exact List.not_mem_nil
  | cons c rest ih =>
    rw [List.flatMap_cons] at h
    have hlength := congrArg List.length h
    have hrest := length_le_flatMap_quoteChar rest
    rw [List.length_append, List.length_cons] at hlength
    rcases quoteChar_cases c with ⟨hc, hne⟩ | hc
    · rw [hc, List.singleton_append, List.cons.injEq] at h
      exact List.not_mem_cons_of_ne_of_not_mem (Ne.symm hne) (ih h.2)
    · omega

/-- A text without a quote is written without one. -/
theorem quote_not_mem_flatMap {cs : List Char} (h : '"' ∉ cs) : '"' ∉ cs.flatMap quoteChar := by
  intro hmem
  obtain ⟨c, hc, hquote⟩ := List.mem_flatMap.1 hmem
  exact h (eq_quote_of_mem_quoteChar hquote ▸ hc)

/-- A value is plain if quoting leaves all its characters. -/
theorem plain_iff {value : String} : Plain value ↔ value.toList.flatMap quoteChar = value.toList := by
  rw [Plain, quoted, ← String.toList_inj]
  simp

namespace Grammar

/-! ## What the reader makes of a printed text -/

/-- Two splittings of a text at the first occurrence of a character are one. -/
theorem split_at_unique {c : Char} {front front' rest rest' : List Char} (h : c ∉ front) (h' : c ∉ front')
    (heq : front ++ c :: rest = front' ++ c :: rest') : front = front' ∧ rest = rest' := by
  have hspan : ∀ {front rest : List Char}, c ∉ front → (front ++ c :: rest).takeWhile (· != c) = front := by
    intro front rest hnot
    refine (takeWhile_run (fun d hd => ?_) fun d hd => by simp_all).1
    exact bne_iff_ne.2 fun hdc => hnot (hdc ▸ hd)
  obtain rfl : front = front' := by rw [← hspan h, heq, hspan h']
  exact ⟨rfl, (List.cons.inj (List.append_cancel_left heq)).2⟩

/-- The last occurrence of a character leaves the same text after it. -/
theorem split_at_last {c : Char} {front front' back back' : List Char} (h : c ∉ back) (h' : c ∉ back')
    (heq : front ++ c :: back = front' ++ c :: back') : back = back' := by
  have hreverse := congrArg List.reverse heq
  simp only [List.reverse_append, List.reverse_cons, List.append_assoc, List.singleton_append] at hreverse
  exact List.reverse_inj.1 (split_at_unique (by simpa using h) (by simpa using h') hreverse).1

/-- A text that starts with something else than a blank. -/
def Solid (cs : List Char) : Prop :=
  ∃ c tail, cs = c :: tail ∧ isSpace c = false

/-- Only the first character counts, so more text may follow. -/
theorem Solid.append {cs : List Char} (h : Solid cs) (x : List Char) : Solid (cs ++ x) := by
  obtain ⟨c, tail, rfl, hc⟩ := h
  exact ⟨c, tail ++ x, rfl, hc⟩

/-- No blanks are read where none are written. -/
theorem Blanks.eq_of_solid {cs rest x : List Char} (h : Blanks cs rest) (hsolid : Solid (cs ++ x)) : cs = rest := by
  obtain ⟨blanks, hblanks, rfl⟩ := h
  cases blanks with
  | nil => rfl
  | cons b blanks =>
    obtain ⟨c, tail, heq, hc⟩ := hsolid
    obtain ⟨rfl, -⟩ := List.cons.inj heq
    rw [hblanks b List.mem_cons_self] at hc
    cases hc

/-- A character that is written without blanks before it is read without blanks. -/
theorem Blanks.cancel_char {cs rest x y : List Char} {c : Char} (h : Blanks cs (c :: rest)) (hc : isSpace c = false)
    (heq : cs ++ x = c :: y) : rest ++ x = y := by
  rw [h.eq_of_solid (x := x) ⟨c, y, heq, hc⟩] at heq
  exact (List.cons.inj heq).2

/-- A token that is written without blanks before it is read without blanks. -/
theorem Blanks.cancel {cs token rest x y : List Char} (h : Blanks cs (token ++ rest)) (htoken : Solid token)
    (heq : cs ++ x = token ++ y) : rest ++ x = y := by
  have hcs := h.eq_of_solid (heq ▸ htoken.append y)
  rw [hcs, List.append_assoc] at heq
  exact List.append_cancel_left heq

/-- Of one blank that is written just this one is read. -/
theorem Blanks.skip {cs rest x z : List Char} (h : Blanks cs rest) (hrest : Solid rest) (hz : Solid z)
    (heq : cs ++ x = ' ' :: z) : rest ++ x = z := by
  obtain ⟨blanks, hblanks, rfl⟩ := h
  cases blanks with
  | nil =>
    obtain ⟨c, tail, rfl, hc⟩ := hrest
    obtain ⟨rfl, -⟩ := List.cons.inj heq
    cases hc
  | cons b blanks =>
    rw [List.cons_append, List.cons_append, List.cons.injEq] at heq
    have hmore : Blanks (blanks ++ rest) rest := ⟨blanks, fun c hc => hblanks c (List.mem_cons_of_mem b hc), rfl⟩
    rw [← heq.2, hmore.eq_of_solid (heq.2 ▸ hz)]

/-- A path starts with no blank. -/
theorem solid_of_isPath {path : List Char} (h : IsPath path) : Solid path := by
  cases path with
  | nil => exact absurd h not_isPath_nil
  | cons c tail =>
    exact ⟨c, tail, rfl, isSpace_of_startsCompound (startsCompound_of_isNameStart (isPath_cons_iff.1 h).1)⟩

/-- A symbol starts with no blank. -/
theorem solid_of_isOperator {symbol : List Char} (h : IsOperator symbol) : Solid symbol := by
  rcases isOperator_iff.1 h with ⟨c, hc, rfl⟩ | ⟨c, hc, rfl⟩
  · simp only [List.mem_cons, List.not_mem_nil, or_false] at hc
    exact ⟨c, [], rfl, by rcases hc with rfl | rfl | rfl <;> rfl⟩
  · simp only [List.mem_cons, List.not_mem_nil, or_false] at hc
    exact ⟨c, ['='], rfl, by rcases hc with rfl | rfl | rfl | rfl | rfl | rfl | rfl | rfl <;> rfl⟩

/-- A run with a closing bracket in it and no quote is not the beginning of an escaped quote. -/
theorem ne_escaped_quote {inner x y : List Char} (hclose : ']' ∈ inner) (hquote : '"' ∉ inner) :
    inner ++ x ≠ '\\' :: '"' :: y := by
  intro heq
  cases inner with
  | nil => exact absurd hclose List.not_mem_nil
  | cons a inner =>
    rw [List.cons_append, List.cons.injEq] at heq
    obtain ⟨rfl, heq⟩ := heq
    cases inner with
    | nil => exact absurd hclose (by decide)
    | cons b inner =>
      rw [List.cons_append, List.cons.injEq] at heq
      obtain ⟨rfl, -⟩ := heq
      exact hquote (by simp)

/-- If a value is read from its quoted form, it is plain. -/
theorem Value.of_own_text {cs value rest rest' x y : List Char} (h : Value cs value rest)
    (hclose : Blanks rest (']' :: rest')) (heq : cs ++ x = '"' :: (value.flatMap quoteChar ++ '"' :: y)) :
    value.flatMap quoteChar = value ∧ rest ++ x = y := by
  cases h with
  | quoted _ hvalue =>
    simp only [List.cons_append, List.append_assoc, List.cons.injEq] at heq
    obtain ⟨rfl, heq⟩ := heq
    obtain ⟨hplain, hrest⟩ := split_at_unique hvalue (quote_not_mem_flatMap hvalue) heq
    exact ⟨hplain.symm, hrest⟩
  | bare hopen hne _ =>
    -- the value would be the quote that opens the quoted form and go on, but an escaped quote follows
    cases value with
    | nil => exact absurd rfl hne
    | cons q value =>
      simp only [List.cons_append, List.cons.injEq] at heq
      obtain ⟨rfl, heq⟩ := heq
      have hmem : ']' ∈ value ++ rest := by
        obtain ⟨blanks, -, rfl⟩ := hclose
        simp
      rw [List.flatMap_cons, quoteChar_quote] at heq
      exact absurd heq (ne_escaped_quote hmem (hopen '"' (value ++ rest) rfl (Or.inl rfl)))

/-! ## First characters -/

/-- A selector's text starts with the character that it was read from first. -/
theorem Simple.starts {cs rest : List Char} {s : Selector} (h : Simple cs s rest) :
    ∃ c, startsCompound c ∧ cs.head? = some c ∧ s.chars.head? = some c := by
  cases h with
  | any => exact ⟨'*', rfl, rfl, by simp⟩
  | type hname =>
    obtain ⟨rfl, hname, -⟩ := hname
    rename_i name
    cases name with
    | nil => exact absurd hname id
    | cons c tail => exact ⟨c, startsCompound_of_isNameStart hname.1, rfl, by simp⟩
  | present => exact ⟨'[', rfl, rfl, by simp⟩
  | tested => exact ⟨'[', rfl, rfl, by simp⟩
  | pseudo => exact ⟨':', rfl, rfl, by simp⟩
  | @nested _ _ _ _ _ args =>
    refine ⟨':', rfl, rfl, ?_⟩
    cases args <;> simp

/-- The text of a compound starts as the compound was read, since its first part does. -/
theorem Compound.starts {cs rest : List Char} {s : Selector} (h : Compound cs s rest) :
    ∃ c, startsCompound c ∧ cs.head? = some c ∧ s.chars.head? = some c := by
  cases h with
  | single hs => exact hs.starts
  | several hs _ =>
    obtain ⟨c, hc, hcs, hchars⟩ := hs.starts
    exact ⟨c, hc, hcs, by simp [hchars]⟩

/-- The text of a chain goes on from the text of what it starts with. -/
theorem Links.chars_eq {cs rest : List Char} {left s : Selector} (h : Links cs left s rest) :
    ∃ t, s.chars = left.chars ++ t := by
  induction h using Links.induction with
  | none => exact ⟨[], by simp⟩
  | @more _ _ _ _ right j _ _ _ ih =>
    obtain ⟨t, ht⟩ := ih
    exact ⟨between j ++ (right.chars ++ t), by simp [ht]⟩

/-- The text of a chain starts as the chain was read. -/
theorem Complex.starts {cs rest : List Char} {s : Selector} (h : Complex cs s rest) :
    ∃ c, startsCompound c ∧ cs.head? = some c ∧ s.chars.head? = some c := by
  cases h with
  | chain hfirst hlinks =>
    obtain ⟨c, hc, hcs, hchars⟩ := hfirst.starts
    obtain ⟨t, ht⟩ := hlinks.chars_eq
    exact ⟨c, hc, hcs, by simp [ht, hchars]⟩

/-! ## A text that gives its own selector -/

/-- What starts a compound is no blank. -/
theorem solid_of_starts {cs : List Char} {c : Char} (hc : startsCompound c) (h : cs.head? = some c) : Solid cs := by
  obtain ⟨tail, rfl⟩ := List.head?_eq_some_iff.1 h
  exact ⟨c, tail, rfl, isSpace_of_startsCompound hc⟩

/-- What may begin a name may continue one. -/
theorem isNameChar_of_isNameStart {c : Char} (h : isNameStart c) : isNameChar c := by
  simp only [isNameStart, isNameChar, Char.isAlphanum, Bool.or_eq_true] at h ⊢
  rcases h with (h | h) | h <;> simp [h]

/-- All characters of a name may stand in a name. -/
theorem IsName.isNameChar {name : List Char} (h : IsName name) : ∀ c ∈ name, isNameChar c := by
  cases name with
  | nil => exact nofun
  | cons c tail => exact List.forall_mem_cons.2 ⟨isNameChar_of_isNameStart h.1, h.2⟩

/-- A character that no name has is in no name. -/
theorem IsName.not_mem {name : List Char} (h : IsName name) {c : Char} (hc : Text.isNameChar c = false) : c ∉ name := by
  intro hmem
  rw [h.isNameChar c hmem] at hc
  cases hc

/-- The pseudo-classes with arguments have names that can be read. -/
theorem Nests.isName {name : List Char} {kind : PseudoClass} (h : Nests name kind) : IsName kind.name.toList := by
  obtain ⟨hkind, -⟩ := h
  simp only [List.mem_cons, List.not_mem_nil, or_false] at hkind
  rcases hkind with rfl | rfl | rfl | rfl <;> exact ⟨rfl, List.all_eq_true.1 rfl⟩

/-- A joiner that is read from its printed form takes just that. -/
theorem Joiner.of_own_text {cs rest x z : List Char} {j : Combinator} (h : Joiner cs j rest) (hrest : Solid rest)
    (hz : Solid z) (heq : cs ++ x = between j ++ z) : rest ++ x = z := by
  cases h with
  | @explicit _ mid _ c _ hc hcs hmid =>
    have hspace := (symbols_spec _ hc).1
    have hbetween : between j = [' ', c, ' '] := by
      simp only [symbols, List.mem_cons, Prod.mk.injEq, List.not_mem_nil, or_false] at hc
      rcases hc with ⟨rfl, rfl⟩ | ⟨rfl, rfl⟩ | ⟨rfl, rfl⟩ <;> rfl
    rw [hbetween] at heq
    have hsymbol := hcs.skip ⟨c, mid, rfl, hspace⟩ ⟨c, ' ' :: z, rfl, hspace⟩ heq
    exact hmid.skip hrest hz (List.cons.inj hsymbol).2
  | @blank c cs _ hc hcs =>
    obtain ⟨blanks, hblanks, rfl⟩ := hcs
    have hall : Blanks (c :: (blanks ++ rest)) rest := ⟨c :: blanks, List.forall_mem_cons.2 ⟨hc, hblanks⟩, rfl⟩
    exact hall.skip hrest hz heq

/-- Arguments are read from a parenthesis and are written with one. -/
theorem Arguments.opens {cs rest : List Char} {args : List Selector} (h : Arguments cs args rest) :
    ∃ inside inside', cs = '(' :: inside ∧ inParentheses args = '(' :: inside' := by
  cases h with
  | list => exact ⟨_, _, rfl, rfl⟩

mutual

/-- A selector that is read from a beginning of its own text has taken all of it, and its values are plain. -/
theorem Simple.of_own_text {cs rest x y : List Char} {s : Selector} (heq : cs ++ x = s.chars ++ y) :
    Simple cs s rest → (∀ v ∈ s.values, Plain v) ∧ rest ++ x = y
  | .any => ⟨by simp [values], by simpa using heq⟩
  | .type hname => by
    obtain ⟨rfl, -, -⟩ := hname
    exact ⟨by simp [values], by simpa using heq⟩
  | .present h₁ hpath hclose => by
    obtain ⟨rfl, hpath, -⟩ := hpath
    simp only [chars_present, String.toList_ofList, List.cons_append, List.cons.injEq, true_and, List.append_assoc,
      List.nil_append] at heq
    have hend := h₁.cancel (solid_of_isPath hpath) heq
    exact ⟨by simp [values], hclose.cancel_char rfl hend⟩
  | .tested h₁ hpath h₂ hop h₃ hvalue hclose => by
    obtain ⟨rfl, hpath, -⟩ := hpath
    obtain ⟨-, rfl, hsymbol, -⟩ := hop
    simp only [chars_tested, String.toList_ofList, List.cons_append, List.cons.injEq, true_and, List.append_assoc,
      List.nil_append] at heq
    have htest := h₁.cancel (solid_of_isPath hpath) heq
    have hquote := h₂.cancel (solid_of_isOperator hsymbol) htest
    obtain rfl := h₃.eq_of_solid (x := x) ⟨'"', _, hquote, rfl⟩
    obtain ⟨hplain, hend⟩ := hvalue.of_own_text hclose hquote
    refine ⟨?_, hclose.cancel_char rfl hend⟩
    simpa [values, plain_iff] using hplain
  | .pseudo hname _ => by
    obtain ⟨rfl, -, -⟩ := hname
    exact ⟨by simp [values, valuesOf], by simpa [PseudoClass.name, inParentheses] using heq⟩
  | .nested hname hkind hargs => by
    obtain ⟨rfl, hname, -⟩ := hname
    obtain ⟨inside, inside', hmid, hprinted⟩ := hargs.opens
    simp only [chars_pseudo, List.cons_append, List.cons.injEq, true_and, List.append_assoc] at heq
    -- both names end at the parenthesis
    have hinside := heq
    rw [hmid, hprinted] at hinside
    obtain ⟨hkindName, -⟩ := split_at_unique (hname.not_mem rfl) (hkind.isName.not_mem rfl) hinside
    rw [hkindName] at heq
    exact hargs.of_own_text (List.append_cancel_left heq)

theorem Simples.of_own_text {cs rest x y : List Char} {parts : List Selector} (heq : cs ++ x = parts.flatMap chars ++ y) :
    Simples cs parts rest → (∀ v ∈ valuesOf parts, Plain v) ∧ rest ++ x = y
  | .one hs => by
    obtain ⟨hplain, hend⟩ := hs.of_own_text (by simpa using heq)
    exact ⟨by simpa [valuesOf] using hplain, hend⟩
  | .more hs hparts => by
    obtain ⟨hplain, hrest⟩ := hs.of_own_text (by simpa using heq)
    obtain ⟨hplains, hend⟩ := hparts.of_own_text hrest
    exact ⟨List.forall_mem_append.2 ⟨hplain, hplains⟩, hend⟩

theorem Compound.of_own_text {cs rest x y : List Char} {s : Selector} (heq : cs ++ x = s.chars ++ y) :
    Compound cs s rest → (∀ v ∈ s.values, Plain v) ∧ rest ++ x = y
  | .single hs => hs.of_own_text heq
  | .several hs hparts => by
    obtain ⟨hplain, hrest⟩ := hs.of_own_text (by simpa using heq)
    obtain ⟨hplains, hend⟩ := hparts.of_own_text hrest
    exact ⟨List.forall_mem_append.2 ⟨hplain, hplains⟩, hend⟩

/-- The links of a chain take the text that the chain adds to its left side, provided that this side has plain values. -/
theorem Links.of_own_text {cs rest x y t : List Char} {left s : Selector} (hs : s.chars = left.chars ++ t)
    (heq : cs ++ x = t ++ y) (hleft : ∀ v ∈ left.values, Plain v) :
    Links cs left s rest → (∀ v ∈ s.values, Plain v) ∧ rest ++ x = y
  | .none => by
    obtain rfl : t = [] := List.self_eq_append_right.1 hs
    exact ⟨hleft, heq⟩
  | .more hj hright hlinks => by
    obtain ⟨t', ht'⟩ := hlinks.chars_eq
    rw [ht', chars_complex, List.append_assoc, List.append_assoc] at hs
    obtain rfl := List.append_cancel_left hs
    obtain ⟨c, hc, hcs, hchars⟩ := hright.starts
    rw [List.append_assoc, List.append_assoc] at heq
    have hmid := hj.of_own_text (solid_of_starts hc hcs) ((solid_of_starts hc hchars).append _) heq
    obtain ⟨hplain, hrest⟩ := hright.of_own_text hmid
    exact hlinks.of_own_text ht' hrest (List.forall_mem_append.2 ⟨hleft, hplain⟩)

theorem Complex.of_own_text {cs rest x y : List Char} {s : Selector} (heq : cs ++ x = s.chars ++ y) :
    Complex cs s rest → (∀ v ∈ s.values, Plain v) ∧ rest ++ x = y
  | .chain hfirst hlinks => by
    obtain ⟨t, ht⟩ := hlinks.chars_eq
    rw [ht, List.append_assoc] at heq
    obtain ⟨hplain, hrest⟩ := hfirst.of_own_text heq
    exact hlinks.of_own_text ht hrest hplain

/-- The arguments after the first take the text that lists them. -/
theorem More.of_own_text {cs rest x y : List Char} {args : List Selector} (heq : cs ++ x = listed args ++ y) :
    More cs args rest → (∀ v ∈ valuesOf args, Plain v) ∧ rest ++ x = y
  | .none => ⟨by simp [valuesOf], by simpa [listed] using heq⟩
  | @More.more _ _ _ _ _ s args hcomma hblanks hs hargs => by
    rw [listed_cons, List.cons_append, List.cons_append, List.append_assoc] at heq
    have hblank := hcomma.cancel_char rfl heq
    obtain ⟨c, hc, hcs, hchars⟩ := hs.starts
    have hstart := hblanks.skip (solid_of_starts hc hcs) ((solid_of_starts hc hchars).append _) hblank
    obtain ⟨hplain, hrest⟩ := hs.of_own_text hstart
    obtain ⟨hplains, hend⟩ := hargs.of_own_text hrest
    exact ⟨List.forall_mem_append.2 ⟨hplain, hplains⟩, hend⟩

theorem Arguments.of_own_text {cs rest x y : List Char} {args : List Selector} (heq : cs ++ x = inParentheses args ++ y) :
    Arguments cs args rest → (∀ v ∈ valuesOf args, Plain v) ∧ rest ++ x = y
  | .list hblanks hfirst hmore hclose => by
    simp only [inParentheses, List.cons_append, List.cons.injEq, true_and, List.append_assoc, List.nil_append] at heq
    obtain ⟨c, hc, -, hchars⟩ := hfirst.starts
    rw [hblanks.eq_of_solid (heq ▸ (solid_of_starts hc hchars).append _)] at heq
    obtain ⟨hplain, hrest⟩ := hfirst.of_own_text heq
    obtain ⟨hplains, hend⟩ := hmore.of_own_text hrest
    exact ⟨List.forall_mem_append.2 ⟨hplain, hplains⟩, hclose.cancel_char rfl hend⟩

end

/-! ## Printed text is read back -/

/-- No name goes on with a text. -/
def Apart (cs : List Char) : Prop :=
  ∀ c ∈ cs.head?, isNameChar c = false

/-- What follows is told from a name by its first character. -/
theorem apart_cons {c : Char} {cs : List Char} (h : isNameChar c = false) : Apart (c :: cs) := by
  intro c' hc'
  cases hc'
  exact h

/-- A simple selector whose text ends in a name. -/
def endsInName : Selector → Bool
  | .type _ => true
  | .pseudo _ [] => true
  | _ => false

theorem Blanks.refl (cs : List Char) : Blanks cs cs :=
  ⟨[], nofun, rfl⟩

/-- One blank may stand between two things. -/
theorem Blanks.one (cs : List Char) : Blanks (' ' :: cs) cs :=
  ⟨[' '], by simp [isSpace], rfl⟩

/-- A token is the longest if none of its kind has the next character in it. -/
theorem longest_of_head {IsToken : List Char → Prop} {p : Char → Bool} (hall : ∀ token, IsToken token → ∀ c ∈ token, p c)
    {token rest : List Char} (htoken : IsToken token) (hrest : ∀ c ∈ rest.head?, p c = false) :
    Longest IsToken (token ++ rest) token rest := by
  refine ⟨rfl, htoken, fun longer hlonger hbegins => ?_⟩
  have hle := length_le_takeWhile hbegins (hall longer hlonger)
  rwa [(takeWhile_run (hall token htoken) hrest).1] at hle

/-- A name is the longest where no name goes on. -/
theorem longest_name {name rest : List Char} (h : IsName name) (hrest : Apart rest) :
    Longest IsName (name ++ rest) name rest :=
  longest_of_head (fun _ hname => hname.isNameChar) h hrest

/-- The tail of a path holds dots and name characters only. -/
theorem Dotted.mem {cs : List Char} (h : Dotted cs) : ∀ c ∈ cs, isNameChar c || c == '.' := by
  induction cs with
  | nil => exact nofun
  | cons c cs ih =>
    refine List.forall_mem_cons.2 ⟨?_, ih h.2⟩
    rcases h.1 with hc | ⟨rfl, -⟩
    · simp [hc]
    · rfl

/-- A path is the longest where neither a dot nor a name character follows. -/
theorem longest_path {path rest : List Char} (h : IsPath path)
    (hrest : ∀ c ∈ rest.head?, (isNameChar c || c == '.') = false) : Longest IsPath (path ++ rest) path rest := by
  refine longest_of_head (fun path hpath => ?_) h hrest
  cases path with
  | nil => exact nofun
  | cons c tail =>
    obtain ⟨hc, htail⟩ := isPath_cons_iff.1 hpath
    exact List.forall_mem_cons.2 ⟨by simp [isNameChar_of_isNameStart hc], htail.mem⟩

/-- A name goes on with any name character. -/
theorem IsName.concat {name : List Char} {c : Char} (h : IsName name) (hc : Text.isNameChar c) : IsName (name ++ [c]) := by
  cases name with
  | nil => exact absurd h id
  | cons first more => exact ⟨h.1, List.forall_mem_append.2 ⟨h.2, by simpa using hc⟩⟩

/-- No name goes on after a longest name. -/
theorem Longest.apart {cs name rest : List Char} (h : Longest IsName cs name rest) : Apart rest := by
  intro c hc
  by_contra hname
  obtain ⟨tail, rfl⟩ := List.head?_eq_some_iff.1 hc
  have hlonger := h.isToken.concat (by simpa using hname)
  have hle := h.longest (name ++ [c]) hlonger ⟨tail, by simp [h.split]⟩
  rw [List.length_append, List.length_singleton] at hle
  omega

/-- No name goes on after a simple selector that ends in one. -/
theorem Simple.apart {cs rest : List Char} {s : Selector} (h : Simple cs s rest) (hs : endsInName s) : Apart rest := by
  cases h with
  | type hname => exact hname.apart
  | pseudo hname _ => exact hname.apart
  | nested _ _ hargs => cases hargs; cases hs
  | any => cases hs
  | present => cases hs
  | tested => cases hs

/-- The text of a run of simple selectors starts as the run was read. -/
theorem Simples.starts {cs rest : List Char} {parts : List Selector} (h : Simples cs parts rest) :
    ∃ c, startsCompound c ∧ cs.head? = some c ∧ (parts.flatMap chars).head? = some c := by
  cases h with
  | one hs => simpa using hs.starts
  | more hs _ =>
    obtain ⟨c, hc, hcs, hchars⟩ := hs.starts
    exact ⟨c, hc, hcs, by simp [hchars]⟩

/-- After a name the text of the next simple selector begins like what it was read from, so the name does not go on. -/
theorem Simples.apart {cs rest : List Char} {parts : List Selector} (h : Simples cs parts rest) (hcs : Apart cs)
    (x : List Char) : Apart (parts.flatMap chars ++ x) := by
  obtain ⟨c, -, hhead, hchars⟩ := h.starts
  intro c' hc'
  rw [List.head?_append, hchars] at hc'
  exact hcs c' (by rw [hhead]; exact hc')

/-- A chain has the values of its left side among its own. -/
theorem Links.values_subset {cs rest : List Char} {left s : Selector} (h : Links cs left s rest) :
    ∀ v ∈ left.values, v ∈ s.values := by
  induction h using Links.induction with
  | none => exact fun _ hv => hv
  | more _ _ _ ih => exact fun v hv => ih v (List.mem_append_left _ hv)

/-- The printed form of a combinator is read as this combinator. -/
theorem joiner_between (j : Combinator) (z : List Char) : Joiner (between j ++ z) j z := by
  cases j with
  | child => exact .explicit (c := '>') (by decide) (.one _) (.one z)
  | descendant => exact .blank rfl (.refl z)
  | adjacent => exact .explicit (c := '+') (by decide) (.one _) (.one z)
  | sibling => exact .explicit (c := '~') (by decide) (.one _) (.one z)

/-- No name goes on with the printed form of a combinator. -/
theorem apart_between (j : Combinator) (z : List Char) : Apart (between j ++ z) := by
  cases j <;> simp [Apart, between] <;> decide

/-- The printed name of a pseudo-class stands for it. -/
theorem nests_self {name : List Char} {kind : PseudoClass} (h : Nests name kind) : Nests kind.name.toList kind :=
  ⟨h.1, by simp [sameName]⟩

/-- A printed symbol is read as its operator if no `=` follows. -/
theorem operator_symbol {op : AttrOp} {rest : List Char} (h : op ∈ operators) (hrest : ∀ tail, rest ≠ '=' :: tail) :
    Operator (op.symbol.toList ++ rest) op rest := by
  refine ⟨h, ?_⟩
  have hsymbol : IsOperator op.symbol.toList := ⟨op, h, rfl⟩
  rcases isOperator_iff.1 hsymbol with ⟨c, -, heq⟩ | ⟨c, -, heq⟩
  · rw [heq] at hsymbol ⊢
    exact longest_symbol hsymbol fun tail htail => absurd htail (hrest tail)
  · rw [heq] at hsymbol ⊢
    exact longest_symbol_eq hsymbol

/-- No path goes on with a symbol. -/
theorem operator_head {symbol rest : List Char} (h : IsOperator symbol) :
    ∀ c ∈ (symbol ++ rest).head?, (isNameChar c || c == '.') = false := by
  rcases isOperator_iff.1 h with ⟨c, hc, rfl⟩ | ⟨c, hc, rfl⟩
  · simp only [List.mem_cons, List.not_mem_nil, or_false] at hc
    rcases hc with rfl | rfl | rfl <;> simp [isNameChar]
  · simp only [List.mem_cons, List.not_mem_nil, or_false] at hc
    rcases hc with rfl | rfl | rfl | rfl | rfl | rfl | rfl | rfl <;> simp [isNameChar]

mutual

/-- The text of a simple selector with plain values is read back, whatever follows that does not go on with its name. -/
theorem Simple.printed {cs rest rest' : List Char} {s : Selector} (hplain : ∀ v ∈ s.values, Plain v)
    (hrest : endsInName s → Apart rest') : Simple cs s rest → Simple (s.chars ++ rest') s rest'
  | .any => by
    rw [chars_any]
    exact .any
  | .type hname => by
    rw [chars_type, String.toList_ofList]
    exact .type (longest_name hname.isToken (hrest rfl))
  | .present _ hpath _ => by
    simp only [chars_present, String.toList_ofList, List.cons_append, List.append_assoc]
    exact .present (.refl _) (longest_path hpath.isToken (by simp; decide)) (.refl _)
  | .tested _ hpath _ hop _ _ _ => by
    have hvalue := plain_iff.1 (hplain _ List.mem_cons_self)
    rw [String.toList_ofList] at hvalue
    simp only [chars_tested, String.toList_ofList, List.cons_append, List.append_assoc, List.nil_append, hvalue]
    exact .tested (.refl _) (longest_path hpath.isToken (operator_head hop.2.isToken)) (.refl _)
      (operator_symbol hop.1 (by simp)) (.refl _) (.quoted (Or.inl rfl) (quote_not_mem_of_flatMap hvalue)) (.refl _)
  | .pseudo hname hother => by
    simp only [chars_pseudo, PseudoClass.name, String.toList_ofList, inParentheses, List.append_nil, List.cons_append]
    exact .pseudo (longest_name hname.isToken (hrest rfl)) hother
  | .nested _ hkind hargs => by
    obtain ⟨-, inside', -, hopens⟩ := hargs.opens
    rw [chars_pseudo, List.cons_append, List.append_assoc]
    refine .nested (longest_name hkind.isName ?_) (nests_self hkind) (hargs.printed hplain rest')
    rw [hopens]
    exact apart_cons rfl

theorem Simples.printed {cs rest rest' : List Char} {parts : List Selector} (hplain : ∀ v ∈ valuesOf parts, Plain v)
    (hrest : Apart rest') : Simples cs parts rest → Simples (parts.flatMap chars ++ rest') parts rest'
  | .one hs => by
    rw [List.flatMap_singleton]
    exact .one (hs.printed (fun v hv => hplain v (List.mem_append_left _ hv)) fun _ => hrest)
  | .more hs hparts => by
    obtain ⟨hfirst, hmore⟩ := List.forall_mem_append.1 hplain
    rw [List.flatMap_cons, List.append_assoc]
    exact .more (hs.printed hfirst fun hname => hparts.apart (hs.apart hname) rest') (hparts.printed hmore hrest)

theorem Compound.printed {cs rest rest' : List Char} {s : Selector} (hplain : ∀ v ∈ s.values, Plain v)
    (hrest : Apart rest') : Compound cs s rest → Compound (s.chars ++ rest') s rest'
  | .single hs => .single (hs.printed hplain fun _ => hrest)
  | .several hs hparts => by
    obtain ⟨hfirst, hmore⟩ := List.forall_mem_append.1 hplain
    rw [chars_compound, List.flatMap_cons, List.append_assoc]
    exact .several (hs.printed hfirst fun hname => hparts.apart (hs.apart hname) rest') (hparts.printed hmore hrest)

/-- The links of a chain are read back from the text that they add, which goes on with no name. -/
theorem Links.printed {cs rest rest' t : List Char} {left s : Selector} (hs : s.chars = left.chars ++ t)
    (hplain : ∀ v ∈ s.values, Plain v) (hrest : Apart rest') :
    Links cs left s rest → Links (t ++ rest') left s rest' ∧ Apart (t ++ rest')
  | .none => by
    obtain rfl : t = [] := List.self_eq_append_right.1 hs
    exact ⟨.none, hrest⟩
  | .more _ hright hlinks => by
    obtain ⟨t', ht'⟩ := hlinks.chars_eq
    obtain ⟨hmore, hnext⟩ := hlinks.printed ht' hplain hrest
    rw [ht', chars_complex, List.append_assoc, List.append_assoc] at hs
    obtain rfl := List.append_cancel_left hs
    have hvalues := fun v hv => hplain v (hlinks.values_subset v (List.mem_append_right _ hv))
    rw [List.append_assoc, List.append_assoc]
    exact ⟨.more (joiner_between _ _) (hright.printed hvalues hnext) hmore, apart_between _ _⟩

/-- The text of a chain with plain values is read back in front of anything that goes on with no name. -/
theorem Complex.printed {cs rest rest' : List Char} {s : Selector} (hplain : ∀ v ∈ s.values, Plain v)
    (hrest : Apart rest') : Complex cs s rest → Complex (s.chars ++ rest') s rest'
  | .chain hfirst hlinks => by
    obtain ⟨t, ht⟩ := hlinks.chars_eq
    obtain ⟨hmore, hnext⟩ := hlinks.printed ht hplain hrest
    rw [ht, List.append_assoc]
    exact .chain (hfirst.printed (fun v hv => hplain v (hlinks.values_subset v hv)) hnext) hmore

/-- The arguments after the first are read back, each from after its comma. -/
theorem More.printed {cs rest rest' : List Char} {args : List Selector} (hplain : ∀ v ∈ valuesOf args, Plain v)
    (hrest : Apart rest') : More cs args rest → More (listed args ++ rest') args rest' ∧ Apart (listed args ++ rest')
  | .none => ⟨.none, hrest⟩
  | .more _ _ hs hargs => by
    obtain ⟨hfirst, hmore⟩ := List.forall_mem_append.1 hplain
    obtain ⟨hprinted, hnext⟩ := hargs.printed hmore hrest
    rw [listed_cons, List.cons_append, List.cons_append, List.append_assoc]
    exact ⟨.more (.refl _) (.one _) (hs.printed hfirst hnext) hprinted, apart_cons rfl⟩

/-- Arguments are read back in front of anything: their text ends in a parenthesis. -/
theorem Arguments.printed {cs rest : List Char} {args : List Selector} (hplain : ∀ v ∈ valuesOf args, Plain v)
    (rest' : List Char) :
    Arguments cs args rest → Arguments (inParentheses args ++ rest') args rest'
  | .list _ hfirst hmore _ => by
    obtain ⟨hplainFirst, hplainMore⟩ := List.forall_mem_append.1 hplain
    obtain ⟨hprinted, hnext⟩ := hmore.printed hplainMore (apart_cons rfl : Apart (')' :: rest'))
    simp only [inParentheses, List.cons_append, List.append_assoc, List.nil_append]
    exact .list (.refl _) (hfirst.printed hplainFirst hnext) hprinted (.refl _)

end

end Grammar

end Selector

end RuleWalk
