import Mathlib
import RuleWalk.Proofs.ByteOrder
import RuleWalk.Tree.Source

/-!
# Positions in a source

The table of a source lists the places just after its line breaks, and these are the places just after the bytes that break a
line: no other character has such a byte. So the lines passed at an offset are told by the bytes before it, and positions
grow with their offsets. A position can as well be found by a search in the table; no subtraction and no look-up fails there,
because the table is increasing and starts at zero.
-/

namespace RuleWalk

/-! ## Line breaks as bytes -/

namespace Text

/-- The byte that ends a line. -/
def breakByte : Nat := 10

/-- The offsets just after the breaks among the first bytes of a text. -/
def breaksBefore (text : String) (offset : Nat) : List Nat :=
  ((bytes text).take offset).findIdxs (· == breakByte) 1

theorem length_charBytes (c : Char) : (charBytes c).length = c.utf8Size := by
  rw [charBytes, List.length_map, String.length_utf8EncodeChar]

/-- Only the line feed has the byte. -/
theorem breakByte_not_mem_charBytes {c : Char} (h : c ≠ '\n') : breakByte ∉ charBytes c := by
  have hcode : c.toNat ≠ 10 := by
    intro hc
    exact h (Char.toNat_inj.1 hc)
  rw [charBytes_eq, breakByte]
  split_ifs <;> simp only [List.mem_cons, List.not_mem_nil, or_false] <;> omega

theorem mem_breaksBefore {text : String} {offset b : Nat} :
    b ∈ breaksBefore text offset ↔ ∃ k, k < offset ∧ (bytes text)[k]? = some breakByte ∧ b = k + 1 := by
  rw [breaksBefore, List.mem_findIdxs_iff_getElem_sub_pos]
  constructor
  · rintro ⟨hb, hlt, hbyte⟩
    rw [List.getElem_take, beq_iff_eq] at hbyte
    rw [List.length_take] at hlt
    exact ⟨b - 1, by omega, List.getElem?_eq_some_iff.2 ⟨by omega, hbyte⟩, by omega⟩
  · rintro ⟨k, hk, hbyte, rfl⟩
    obtain ⟨hlt, hbyte⟩ := List.getElem?_eq_some_iff.1 hbyte
    refine ⟨by omega, by rw [List.length_take]; omega, ?_⟩
    simp [hbyte]

theorem length_breaksBefore (text : String) (offset : Nat) :
    (breaksBefore text offset).length = ((bytes text).take offset).count breakByte :=
  List.length_findIdxs

/-- The breaks before an offset come first among those before a later one. -/
theorem breaksBefore_prefix (text : String) {offset later : Nat} (h : offset ≤ later) :
    breaksBefore text offset <+: breaksBefore text later := by
  have htake : (bytes text).take offset = ((bytes text).take later).take offset := by
    rw [List.take_take, Nat.min_eq_left h]
  rw [breaksBefore, htake, List.findIdxs_take]
  exact List.take_prefix _ _

/-- The last line passed at an offset starts at zero if no break comes before, and else just after the last break before. -/
theorem getLastD_breaksBefore (text : String) (offset : Nat) :
    (∀ k < offset, (bytes text)[k]? ≠ some breakByte) ∧ (breaksBefore text offset).getLastD 0 = 0 ∨
    ∃ k, IsGreatest {k | k < offset ∧ (bytes text)[k]? = some breakByte} k ∧
      (breaksBefore text offset).getLastD 0 = k + 1 := by
  have hmem : ∀ k < offset, (bytes text)[k]? = some breakByte → k + 1 ∈ breaksBefore text offset := by
    intro k hk hbyte
    exact mem_breaksBefore.2 ⟨k, hk, hbyte, rfl⟩
  rcases List.eq_nil_or_concat (breaksBefore text offset) with hnil | ⟨before, b, hb⟩
  · left
    refine ⟨?_, by simp [hnil]⟩
    intro k hk hbyte
    have := hmem k hk hbyte
    simp [hnil] at this
  · right
    rw [List.concat_eq_append] at hb
    obtain ⟨k, hk, hbyte, rfl⟩ := mem_breaksBefore.1 (by simp [hb] : b ∈ breaksBefore text offset)
    refine ⟨k, ⟨⟨hk, hbyte⟩, ?_⟩, by simp [hb]⟩
    rintro other ⟨hother, hbyte'⟩
    have hsorted : (breaksBefore text offset).Pairwise (· < ·) := List.pairwise_findIdxs
    have hother := hmem other hother hbyte'
    rw [hb] at hother hsorted
    rcases List.mem_append.1 hother with hother | hother
    · have := (List.pairwise_append.1 hsorted).2.2 _ hother _ (List.mem_singleton_self _)
      omega
    · have := List.mem_singleton.1 hother
      omega

end Text

open Text

namespace Source

/-- The breaks by characters are the breaks by bytes. -/
theorem lineBreaks_eq (offset : Nat) (cs : List Char) :
    lineBreaks offset cs = (cs.flatMap charBytes).findIdxs (· == breakByte) (offset + 1) := by
  induction cs generalizing offset with
  | nil => rfl
  | cons c cs ih =>
    have hnext : offset + 1 + (charBytes c).length = offset + c.utf8Size + 1 := by
      rw [length_charBytes]
      omega
    rw [lineBreaks, List.flatMap_cons, List.findIdxs_append, hnext, ← ih]
    by_cases hc : c = '\n'
    · subst hc
      rfl
    · have hnone : (charBytes c).findIdxs (· == breakByte) (offset + 1) = [] := by
        rw [List.findIdxs_eq_nil_iff]
        intro byte hbyte
        have hne : byte ≠ breakByte := by
          rintro rfl
          exact breakByte_not_mem_charBytes hc hbyte
        simpa using hne
      simp [hc, hnone]

theorem lineStarts_ofText (text : String) :
    (ofText text).lineStarts = 0 :: (bytes text).findIdxs (· == breakByte) 1 := by
  rw [ofText, lineBreaks_eq, bytes_eq_flatMap]

theorem sorted_lineStarts (text : String) : (ofText text).lineStarts.Pairwise (· < ·) := by
  rw [lineStarts_ofText, List.pairwise_cons]
  refine ⟨?_, List.pairwise_findIdxs⟩
  intro b hb
  exact List.ge_of_mem_findIdxs b hb

/-- The lines passed at an offset end where the first one starts that is ahead. -/
theorem takeWhile_of_sides {passed ahead : List Nat} {offset : Nat} (hpassed : ∀ b ∈ passed, b ≤ offset)
    (hahead : ∀ b ∈ ahead, offset < b) : (passed ++ ahead).takeWhile (· ≤ offset) = passed := by
  have hnone : ahead.takeWhile (· ≤ offset) = [] := by
    rw [List.takeWhile_eq_nil_iff]
    intro hpos
    have := hahead _ (List.getElem_mem hpos)
    simpa using this
  rw [List.takeWhile_append_of_pos (by simpa using hpassed), hnone, List.append_nil]

/-- The lines passed at an offset are the first one and those after the breaks before it. -/
theorem takeWhile_lineStarts (text : String) (offset : Nat) :
    (ofText text).lineStarts.takeWhile (· ≤ offset) = 0 :: breaksBefore text offset := by
  have htable : (ofText text).lineStarts = (0 :: breaksBefore text offset) ++
      ((bytes text).drop offset).findIdxs (· == breakByte) (1 + ((bytes text).take offset).length) := by
    rw [lineStarts_ofText, breaksBefore, List.cons_append, ← List.findIdxs_append, List.take_append_drop]
  rw [htable]
  apply takeWhile_of_sides
  · intro b hb
    rcases List.mem_cons.1 hb with rfl | hb
    · exact Nat.zero_le offset
    · obtain ⟨k, hk, -, rfl⟩ := mem_breaksBefore.1 hb
      exact hk
  · intro b hb
    obtain ⟨hge, hlt, -⟩ := List.mem_findIdxs_iff_getElem_sub_pos.1 hb
    rw [List.length_drop] at hlt
    rw [List.length_take] at hge
    omega

/-- Where an offset lies: the number of lines passed, and how far the last of them starts before it. -/
theorem position_ofText (text : String) (offset : Nat) :
    (ofText text).position offset =
      ⟨1 + ((bytes text).take offset).count breakByte, offset - (breaksBefore text offset).getLastD 0⟩ := by
  have hlast : (0 :: breaksBefore text offset).getLastD 0 = (breaksBefore text offset).getLastD 0 := by
    cases breaksBefore text offset <;> rfl
  rw [position, takeWhile_lineStarts, List.length_cons, length_breaksBefore, hlast, Nat.add_comm]

/-- The column counts from the last break before an offset, or from the start of the text if there is none. -/
theorem column_ofText (text : String) (offset : Nat) :
    (∀ k < offset, (bytes text)[k]? ≠ some breakByte) ∧ ((ofText text).position offset).column = offset ∨
    ∃ k, IsGreatest {k | k < offset ∧ (bytes text)[k]? = some breakByte} k ∧
      ((ofText text).position offset).column = offset - (k + 1) := by
  rw [position_ofText]
  rcases getLastD_breaksBefore text offset with ⟨hnone, hlast⟩ | ⟨k, hk, hlast⟩
  · exact Or.inl ⟨hnone, by rw [hlast, Nat.sub_zero]⟩
  · exact Or.inr ⟨k, hk, by rw [hlast]⟩

/-- Positions grow with their offsets, line before column. -/
theorem position_strictMono (text : String) :
    StrictMono fun offset => toLex (((ofText text).position offset).line, ((ofText text).position offset).column) := by
  intro offset later hlt
  have hbreaks := breaksBefore_prefix text hlt.le
  have hle : (breaksBefore text offset).getLastD 0 ≤ offset := by
    rcases getLastD_breaksBefore text offset with ⟨-, hlast⟩ | ⟨k, ⟨⟨hk, -⟩, -⟩, hlast⟩
    · omega
    · omega
  simp only [position_ofText, ← length_breaksBefore, Prod.Lex.toLex_lt_toLex]
  rcases hbreaks.length_le.lt_or_eq with hline | hline
  · left
    omega
  · -- no break lies between the two, so they are in one line
    right
    rw [← hbreaks.eq_of_length hline]
    omega

/-! ## Positions by a search -/

/-- What a search in a sorted list gives: the index of a hit, and on a miss the index at which the value can be put in. -/
structure Searches (search : List Nat → Nat → Except Nat Nat) : Prop where
  hit {xs : List Nat} {x i : Nat} (sorted : xs.Pairwise (· ≤ ·)) (found : search xs x = .ok i) : xs[i]? = some x
  miss {xs : List Nat} {x i : Nat} (sorted : xs.Pairwise (· ≤ ·)) (missed : search xs x = .error i) :
    x ∉ xs ∧ i ≤ xs.length ∧ (xs.take i ++ x :: xs.drop i).Pairwise (· ≤ ·)

/-- The position of an offset by a search in the table of lines: that of a hit, or the one before the place of a miss. Nothing
comes out if a difference is negative or the table has no such line. -/
def searched? (search : List Nat → Nat → Except Nat Nat) (s : Source) (offset : Nat) : Option Position := do
  let line ← match search s.lineStarts offset with
    | .ok line => some line
    | .error next => next.psub 1
  let start ← s.lineStarts[line]?
  let column ← offset.psub start
  return ⟨line + 1, column⟩

/-- In an increasing table the line of an offset is the last one that starts no later. -/
theorem position_of_line {s : Source} (hsorted : s.lineStarts.Pairwise (· < ·)) {offset line start : Nat}
    (hstart : s.lineStarts[line]? = some start) (hle : start ≤ offset)
    (hahead : ∀ b ∈ s.lineStarts.drop (line + 1), offset < b) : s.position offset = ⟨line + 1, offset - start⟩ := by
  obtain ⟨hline, rfl⟩ := List.getElem?_eq_some_iff.1 hstart
  have hpassed : ∀ b ∈ s.lineStarts.take (line + 1), b ≤ offset := by
    intro b hb
    obtain ⟨i, hi, rfl⟩ := List.mem_take_iff_getElem.1 hb
    rcases Nat.lt_or_ge i line with hlt | hge
    · exact (List.pairwise_iff_getElem.1 hsorted i line _ _ hlt).le.trans hle
    · obtain rfl : i = line := by omega
      exact hle
  have htable := takeWhile_of_sides hpassed hahead
  rw [List.take_append_drop] at htable
  rw [position, htable, List.length_take, Nat.min_eq_left hline, List.take_succ_eq_append_getElem hline,
    List.getLastD_concat]

/-- A search finds the position in a table that is increasing and starts at zero. -/
theorem searched?_of_sorted {search : List Nat → Nat → Except Nat Nat} (hsearch : Searches search) {s : Source}
    (hsorted : s.lineStarts.Pairwise (· < ·)) (hzero : s.lineStarts[0]? = some 0) (offset : Nat) :
    s.searched? search offset = some (s.position offset) := by
  have hle : s.lineStarts.Pairwise (· ≤ ·) := hsorted.imp Nat.le_of_lt
  cases hfound : search s.lineStarts offset with
  | ok line =>
    have hstart := hsearch.hit hle hfound
    have hahead : ∀ b ∈ s.lineStarts.drop (line + 1), offset < b := by
      obtain ⟨hline, heq⟩ := List.getElem?_eq_some_iff.1 hstart
      intro b hb
      obtain ⟨i, hi, rfl⟩ := List.mem_drop_iff_getElem.1 hb
      have := List.pairwise_iff_getElem.1 hsorted line (line + 1 + i) hline (by omega) (by omega)
      omega
    have hcolumn : offset.psub offset = some 0 := Nat.psub_eq_some.2 (Nat.zero_add offset)
    rw [position_of_line hsorted hstart le_rfl hahead, Nat.sub_self]
    simp [searched?, hfound, hstart, hcolumn]
  | error next =>
    obtain ⟨hmem, hnext, hput⟩ := hsearch.miss hle hfound
    have hsides := List.pairwise_append.1 hput
    have hahead : ∀ b ∈ s.lineStarts.drop next, offset < b := by
      intro b hb
      have hle := (List.pairwise_cons.1 hsides.2.1).1 b hb
      have hne : b ≠ offset := by
        rintro rfl
        exact hmem (List.mem_of_mem_drop hb)
      omega
    -- the place of a miss is not the first: the table has zero there, which no offset precedes
    cases next with
    | zero =>
      have := hahead 0 (List.mem_of_getElem? hzero)
      omega
    | succ line =>
      obtain ⟨start, hstart⟩ : ∃ start, s.lineStarts[line]? = some start :=
        ⟨_, List.getElem?_eq_getElem hnext⟩
      have hbelow : start ≤ offset := by
        obtain ⟨hline, rfl⟩ := List.getElem?_eq_some_iff.1 hstart
        apply hsides.2.2 _ _ _ List.mem_cons_self
        exact List.mem_take_iff_getElem.2 ⟨line, by omega, rfl⟩
      have hcolumn : offset.psub start = some (offset - start) := Nat.psub_eq_some.2 (Nat.sub_add_cancel hbelow)
      rw [position_of_line hsorted hstart hbelow hahead]
      simp [searched?, hfound, hstart, hcolumn]

/-! ## Searching by halves -/

/-- Halves a window of a list until one place is left, keeping the half that has the last value up to the one sought. -/
def narrow (xs : List Nat) (x base size : Nat) : Nat :=
  if 1 < size then
    if x < xs.getD (base + size / 2) 0 then narrow xs x base (size - size / 2)
    else narrow xs x (base + size / 2) (size - size / 2)
  else base
termination_by size

/-- A search by halves. -/
def bisect (xs : List Nat) (x : Nat) : Except Nat Nat :=
  let base := narrow xs x 0 xs.length
  match xs[base]? with
  | none => .error 0
  | some y => if y = x then .ok base else if y < x then .error (base + 1) else .error base

/-- A window of a list in which to go on: its first value is not too large, if it is not the first of all, and all values behind
it are. -/
structure Window (xs : List Nat) (x base size : Nat) : Prop where
  nonempty : 0 < size
  fits : base + size ≤ xs.length
  low : base ≠ 0 → xs.getD base 0 ≤ x
  high : ∀ i, base + size ≤ i → i < xs.length → x < xs.getD i 0

theorem window_whole {xs : List Nat} (h : 0 < xs.length) (x : Nat) : Window xs x 0 xs.length :=
  ⟨h, by omega, by simp, by omega⟩

theorem getD_le_getD {xs : List Nat} (hsorted : xs.Pairwise (· ≤ ·)) {i j : Nat} (hij : i ≤ j) (hj : j < xs.length) :
    xs.getD i 0 ≤ xs.getD j 0 := by
  rw [List.getD_eq_getElem _ _ hj, List.getD_eq_getElem _ _ (by omega)]
  rcases hij.lt_or_eq with hlt | rfl
  · exact List.pairwise_iff_getElem.1 hsorted i j _ _ hlt
  · exact le_rfl

theorem Window.left {xs : List Nat} (hsorted : xs.Pairwise (· ≤ ·)) {x base size : Nat} (h : Window xs x base size)
    (hsize : 1 < size) (hmid : x < xs.getD (base + size / 2) 0) : Window xs x base (size - size / 2) := by
  obtain ⟨-, hfits, hlow, -⟩ := h
  refine ⟨by omega, by omega, hlow, ?_⟩
  intro i hi hlen
  exact hmid.trans_le (getD_le_getD hsorted (by omega) hlen)

theorem Window.right {xs : List Nat} {x base size : Nat} (h : Window xs x base size) (hsize : 1 < size)
    (hmid : ¬x < xs.getD (base + size / 2) 0) : Window xs x (base + size / 2) (size - size / 2) := by
  obtain ⟨-, hfits, -, hhigh⟩ := h
  refine ⟨by omega, by omega, fun _ => Nat.not_lt.1 hmid, ?_⟩
  intro i hi hlen
  exact hhigh i (by omega) hlen

/-- Halving ends in a window of one place. -/
theorem Window.narrow {xs : List Nat} (hsorted : xs.Pairwise (· ≤ ·)) {x base size : Nat} (h : Window xs x base size) :
    Window xs x (narrow xs x base size) 1 := by
  fun_induction Source.narrow xs x base size with
  | case1 base size hsize hmid ih => exact ih (h.left hsorted hsize hmid)
  | case2 base size hsize hmid ih => exact ih (h.right hsize hmid)
  | case3 base size hsize =>
    have hone : size = 1 := by have := h.nonempty; omega
    exact hone ▸ h

/-- A value has its place in a sorted list where all before is smaller and all behind is larger. -/
theorem place_of_sides {xs : List Nat} (hsorted : xs.Pairwise (· ≤ ·)) {x i : Nat} (hi : i ≤ xs.length)
    (hbelow : ∀ j < i, xs.getD j 0 < x) (habove : ∀ j, i ≤ j → j < xs.length → x < xs.getD j 0) :
    x ∉ xs ∧ i ≤ xs.length ∧ (xs.take i ++ x :: xs.drop i).Pairwise (· ≤ ·) := by
  have hbefore : ∀ y ∈ xs.take i, y < x := by
    intro y hy
    obtain ⟨j, hj, rfl⟩ := List.mem_take_iff_getElem.1 hy
    have := hbelow j (by omega)
    rwa [List.getD_eq_getElem _ _ (by omega)] at this
  have hbehind : ∀ y ∈ xs.drop i, x < y := by
    intro y hy
    obtain ⟨j, hj, rfl⟩ := List.mem_drop_iff_getElem.1 hy
    have := habove (i + j) (by omega) (by omega)
    rwa [List.getD_eq_getElem _ _ (by omega)] at this
  refine ⟨?_, hi, ?_⟩
  · intro hx
    rw [← List.take_append_drop i xs, List.mem_append] at hx
    rcases hx with hx | hx
    · exact lt_irrefl x (hbefore x hx)
    · exact lt_irrefl x (hbehind x hx)
  · rw [List.pairwise_append, List.pairwise_cons]
    refine ⟨hsorted.sublist (List.take_sublist i xs), ⟨fun y hy => (hbehind y hy).le,
      hsorted.sublist (List.drop_sublist i xs)⟩, ?_⟩
    intro y hy z hz
    rcases List.mem_cons.1 hz with rfl | hz
    · exact (hbefore y hy).le
    · exact ((hbefore y hy).trans (hbehind z hz)).le

/-- The search by halves is a search. -/
theorem searches_bisect : Searches bisect where
  hit {xs x i} _ found := by
    unfold bisect at found
    dsimp only at found
    split at found
    · cases found
    · rename_i y hy
      split_ifs at found with heq
      cases found
      rw [hy, heq]
  miss {xs x i} sorted missed := by
    unfold bisect at missed
    dsimp only at missed
    split at missed
    · -- only an empty list has no place left
      rename_i hnone
      cases missed
      have hempty : ¬0 < xs.length := by
        intro hlen
        have hfits := ((window_whole hlen x).narrow sorted).fits
        have := List.getElem?_eq_none_iff.1 hnone
        omega
      have hnil : xs = [] := List.eq_nil_of_length_eq_zero (by omega)
      simp [hnil]
    · rename_i y hy
      obtain ⟨hbase, hvalue⟩ := List.getElem?_eq_some_iff.1 hy
      obtain ⟨-, hfits, hlow, hhigh⟩ := (window_whole (by omega) x).narrow sorted
      rw [← List.getD_eq_getElem _ 0 hbase] at hvalue
      split_ifs at missed with heq hlt
      · cases missed
        refine place_of_sides sorted (by omega) ?_ hhigh
        intro j hj
        have := getD_le_getD sorted (by omega : j ≤ Source.narrow xs x 0 xs.length) hbase
        omega
      · -- a value that is too large is left only at the first place
        cases missed
        have hzero : Source.narrow xs x 0 xs.length = 0 := by
          by_contra hne
          have := hlow hne
          omega
        rw [hzero] at hvalue hbase ⊢
        refine place_of_sides sorted (by omega) (by omega) ?_
        intro j _ hj
        have := getD_le_getD sorted (Nat.zero_le j) hj
        omega

/-- Positions are exact at every offset of every text, and past its end. The line is one more than the number of breaks before
the offset; the column counts from the last of them, or from zero if there is none. A search in the table of lines gives the
same position: it is never a miss at the first place, what it gives is in the table, and its line starts no later than the
offset. There is one line more than there are breaks. Positions grow strictly with their offsets, so no two offsets share
one. -/
theorem position_exact {search : List Nat → Nat → Except Nat Nat} (hsearch : Searches search) (text : String) :
    (∀ offset, ((ofText text).position offset).line = 1 + ((bytes text).take offset).count breakByte) ∧
    (∀ offset, (∀ k < offset, (bytes text)[k]? ≠ some breakByte) ∧ ((ofText text).position offset).column = offset ∨
      ∃ k, IsGreatest {k | k < offset ∧ (bytes text)[k]? = some breakByte} k ∧
        ((ofText text).position offset).column = offset - (k + 1)) ∧
    (∀ offset, (ofText text).searched? search offset = some ((ofText text).position offset)) ∧
    (ofText text).lineCount = 1 + (bytes text).count breakByte ∧
    (StrictMono fun offset => toLex (((ofText text).position offset).line, ((ofText text).position offset).column)) ∧
    Function.Injective (ofText text).position := by
  have hmono := position_strictMono text
  refine ⟨?_, column_ofText text, ?_, ?_, hmono, ?_⟩
  · intro offset
    rw [position_ofText]
  · intro offset
    have hzero : (ofText text).lineStarts[0]? = some 0 := by rw [lineStarts_ofText]; rfl
    exact searched?_of_sorted hsearch (sorted_lineStarts text) hzero offset
  · rw [lineCount, lineStarts_ofText, List.length_cons, List.length_findIdxs, Nat.add_comm]
    rfl
  · intro offset other heq
    exact hmono.injective (by simp only [heq])

/-- A text with a character of two bytes, a blank line and a break at its end, searched at the start of a line, on the blank
line and past the end. -/
theorem position_exact_blank_line : Searches bisect ∧
    (ofText "é\n\nb\n").searched? bisect 3 = some ⟨2, 0⟩ ∧
    (ofText "é\n\nb\n").searched? bisect 5 = some ⟨3, 1⟩ ∧
    (ofText "é\n\nb\n").searched? bisect 9 = some ⟨4, 3⟩ ∧
    ((bytes "é\n\nb\n").take 9).count breakByte = 3 ∧
    1 + (bytes "é\n\nb\n").count breakByte = 4 := by
  obtain ⟨hline, -, hsearched, hcount, -⟩ := position_exact searches_bisect "é\n\nb\n"
  have hpast : ((ofText "é\n\nb\n").position 9).line = 4 := by decide
  refine ⟨searches_bisect, (hsearched 3).trans (by decide), (hsearched 5).trans (by decide), (hsearched 9).trans (by decide),
    ?_, hcount.symm.trans (by decide)⟩
  have := hline 9
  omega

end Source

end RuleWalk
