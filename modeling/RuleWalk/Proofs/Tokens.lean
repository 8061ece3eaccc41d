import Mathlib.Data.List.TakeWhile
import RuleWalk.Selector.Reader

/-!
# The tokens of selectors

Names, paths and operators are read by longest match: the reader of a kind of token finds the one token of the kind that is
not the beginning of a longer one there, and finds nothing only where no token of the kind starts. Blanks may stand in any
number. A value in quotes ends at the next quote of its kind; where there is none, the quote is a character like others.
-/

namespace RuleWalk.Selector

open Text

namespace Grammar

/-! ## Longest matches -/

/-- A token at the start of a text that is not the beginning of a longer one there, and the text after it. -/
structure Longest (IsToken : List Char → Prop) (cs token rest : List Char) : Prop where
  split : cs = token ++ rest
  isToken : IsToken token
  longest : ∀ longer, IsToken longer → longer <+: cs → longer.length ≤ token.length

section Longest

variable {IsToken : List Char → Prop} {cs token token' rest rest' : List Char}

/-- At the start of a text there is at most one longest token of a kind. -/
theorem Longest.unique (h : Longest IsToken cs token rest) (h' : Longest IsToken cs token' rest') :
    token = token' ∧ rest = rest' := by
  have hle := h.longest token' h'.isToken ⟨rest', h'.split.symm⟩
  have hge := h'.longest token h.isToken ⟨rest, h.split.symm⟩
  exact List.append_inj (h.split.symm.trans h'.split) (Nat.le_antisymm hge hle)

/-- A reader that gives nothing but longest tokens, and something wherever a token starts, finds the longest tokens. -/
theorem Longest.iff_of_reader {reader : List Char → Option (List Char × List Char)}
    (hsome : ∀ cs token rest, reader cs = some (token, rest) → Longest IsToken cs token rest)
    (hnone : ∀ cs token, reader cs = none → IsToken token → ¬token <+: cs) :
    reader cs = some (token, rest) ↔ Longest IsToken cs token rest := by
  refine ⟨hsome cs token rest, fun h => ?_⟩
  cases hread : reader cs with
  | none => exact absurd ⟨rest, h.split.symm⟩ (hnone cs token hread h.isToken)
  | some pair =>
    obtain ⟨token', rest'⟩ := pair
    obtain ⟨rfl, rfl⟩ := h.unique (hsome cs token' rest' hread)
    rfl

end Longest

/-! ## Names -/

/-- A name: a character that may begin one, and any number that may continue it. -/
def IsName : List Char → Prop
  | [] => False
  | c :: tail => isNameStart c ∧ ∀ x ∈ tail, isNameChar x

/-- A run of characters of a class is no longer than the longest such run. -/
theorem length_le_takeWhile {p : Char → Bool} {token cs : List Char} (h : token <+: cs) (hall : ∀ c ∈ token, p c) :
    token.length ≤ (cs.takeWhile p).length := by
  obtain ⟨rest, rfl⟩ := h
  rw [List.takeWhile_append_of_pos hall, List.length_append]
  exact Nat.le_add_right _ _

/-- The reader of names finds the longest name. -/
theorem name?_iff {cs name rest : List Char} : Reader.name? cs = some (name, rest) ↔ Longest IsName cs name rest := by
  refine Longest.iff_of_reader (fun cs name rest h => ?_) (fun cs name h hname hbegins => ?_)
  · cases cs with
    | nil => cases h
    | cons c cs =>
      rw [Reader.name?] at h
      split at h
      · rename_i hstart
        cases h
        refine ⟨by simp, ⟨hstart, fun x hx => List.mem_takeWhile_imp hx⟩, fun longer hlonger hbegins => ?_⟩
        cases longer with
        | nil => exact Nat.zero_le _
        | cons c' tail =>
          exact Nat.succ_le_succ (length_le_takeWhile (List.cons_prefix_cons.1 hbegins).2 hlonger.2)
      · cases h
  · cases name with
    | nil => exact hname
    | cons c tail =>
      obtain ⟨rest, rfl⟩ := hbegins
      simp [Reader.name?, hname.1] at h

/-! ## Paths -/

/-- A part of a path after a dot. -/
def IsSegment (cs : List Char) : Prop :=
  cs ≠ [] ∧ ∀ c ∈ cs, isNameChar c

/-- A path: a name and any number of segments, each after a dot. -/
def IsPath (path : List Char) : Prop :=
  ∃ (name : List Char) (segments : List (List Char)), IsName name ∧ (∀ s ∈ segments, IsSegment s) ∧
    path = name ++ segments.flatMap ('.' :: ·)

/-- Name characters, and dots that a name character follows. -/
def Dotted : List Char → Prop
  | [] => True
  | c :: cs => (isNameChar c ∨ (c = '.' ∧ cs.head?.any isNameChar)) ∧ Dotted cs

/-- Name characters may stand in front of the tail of a path. -/
theorem Dotted.append {front back : List Char} (hfront : ∀ c ∈ front, isNameChar c) (hback : Dotted back) :
    Dotted (front ++ back) := by
  induction front with
  | nil => exact hback
  | cons c front ih =>
    exact ⟨Or.inl (hfront c List.mem_cons_self), ih fun c hc => hfront c (List.mem_cons_of_mem _ hc)⟩

/-- Segments, each after its dot, make the tail of a path. -/
theorem dotted_segments {segments : List (List Char)} (h : ∀ s ∈ segments, IsSegment s) :
    Dotted (segments.flatMap ('.' :: ·)) := by
  induction segments with
  | nil => trivial
  | cons s rest ih =>
    obtain ⟨hne, hall⟩ := h s List.mem_cons_self
    rw [List.flatMap_cons, List.cons_append]
    refine ⟨Or.inr ⟨rfl, ?_⟩, Dotted.append hall (ih fun s hs => h s (List.mem_cons_of_mem _ hs))⟩
    cases s with
    | nil => exact absurd rfl hne
    | cons c s => simpa using hall c List.mem_cons_self

/-- The tail of a path splits into what still belongs to the name in front of it and segments. -/
theorem Dotted.exists_segments {tail : List Char} (h : Dotted tail) : ∃ (front : List Char) (segments : List (List Char)),
    (∀ c ∈ front, isNameChar c) ∧ (∀ s ∈ segments, IsSegment s) ∧ tail = front ++ segments.flatMap ('.' :: ·) := by
  induction tail with
  | nil => exact ⟨[], [], nofun, nofun, rfl⟩
  | cons c tail ih =>
    obtain ⟨hc, htail⟩ := h
    obtain ⟨front, segments, hfront, hsegments, rfl⟩ := ih htail
    rcases hc with hc | ⟨rfl, hnext⟩
    · exact ⟨c :: front, segments, List.forall_mem_cons.2 ⟨hc, hfront⟩, hsegments, rfl⟩
    · -- a name character follows the dot, so the front is not empty and makes a segment
      have hne : front ≠ [] := by
        rintro rfl
        cases segments with
        | nil => simp at hnext
        | cons s segments => simp [isNameChar] at hnext
      exact ⟨[], front :: segments, nofun, List.forall_mem_cons.2 ⟨⟨hne, hfront⟩, hsegments⟩, rfl⟩

/-- A path is told character by character: a beginning of a name, and then a dotted tail. -/
theorem isPath_cons_iff {c : Char} {tail : List Char} : IsPath (c :: tail) ↔ isNameStart c ∧ Dotted tail := by
  constructor
  · rintro ⟨name, segments, hname, hsegments, heq⟩
    cases name with
    | nil => exact absurd hname id
    | cons c' tail' =>
      rw [List.cons_append, List.cons.injEq] at heq
      obtain ⟨rfl, rfl⟩ := heq
      exact ⟨hname.1, Dotted.append hname.2 (dotted_segments hsegments)⟩
  · rintro ⟨hstart, htail⟩
    obtain ⟨front, segments, hfront, hsegments, rfl⟩ := htail.exists_segments
    exact ⟨c :: front, segments, ⟨hstart, hfront⟩, hsegments, rfl⟩

theorem not_isPath_nil : ¬IsPath [] := by
  rintro ⟨name, segments, hname, -, heq⟩
  cases name with
  | nil => exact hname
  | cons c tail => cases heq

/-- The tail that is read is dotted, and no dotted tail there is longer. -/
theorem pathTail_spec (cs : List Char) : cs = (Reader.pathTail cs).1 ++ (Reader.pathTail cs).2 ∧
    Dotted (Reader.pathTail cs).1 ∧ ∀ tail, Dotted tail → tail <+: cs → tail.length ≤ (Reader.pathTail cs).1.length := by
  induction cs with
  | nil => exact ⟨rfl, trivial, fun tail _ h => by simp [List.prefix_nil.1 h]⟩
  | cons c cs ih =>
    obtain ⟨hsplit, hdotted, hlongest⟩ := ih
    rw [Reader.pathTail]
    split
    · rename_i hc
      refine ⟨congrArg (c :: ·) hsplit, ⟨?_, hdotted⟩, fun tail htail hbegins => ?_⟩
      · rw [Bool.or_eq_true, Bool.and_eq_true, beq_iff_eq] at hc
        refine hc.imp_right fun ⟨hdot, hnext⟩ => ⟨hdot, ?_⟩
        cases cs with
        | nil => simp at hnext
        | cons c' cs =>
          have hnext' : isNameChar c' := by simpa using hnext
          rw [Reader.pathTail, if_pos (by simp [hnext'])]
          simpa using hnext'
      · cases tail with
        | nil => exact Nat.zero_le _
        | cons c' tail => exact Nat.succ_le_succ (hlongest tail htail.2 (List.cons_prefix_cons.1 hbegins).2)
    · rename_i hc
      refine ⟨rfl, trivial, fun tail htail hbegins => ?_⟩
      cases tail with
      | nil => exact Nat.zero_le _
      | cons c' tail =>
        obtain ⟨rfl, rest, rfl⟩ := List.cons_prefix_cons.1 hbegins
        refine absurd ?_ hc
        rw [Bool.or_eq_true, Bool.and_eq_true, beq_iff_eq]
        refine htail.1.imp_right fun ⟨hdot, hnext⟩ => ⟨hdot, ?_⟩
        cases tail with
        | nil => simp at hnext
        | cons c tail => simpa using hnext

/-- The reader of paths finds the longest path. -/
theorem path?_iff {cs path rest : List Char} : Reader.path? cs = some (path, rest) ↔ Longest IsPath cs path rest := by
  refine Longest.iff_of_reader (fun cs path rest h => ?_) (fun cs path h hpath hbegins => ?_)
  · cases cs with
    | nil => cases h
    | cons c cs =>
      obtain ⟨hsplit, hdotted, hlongest⟩ := pathTail_spec cs
      rw [Reader.path?] at h
      split at h
      · rename_i hstart
        cases h
        refine ⟨congrArg (c :: ·) hsplit, isPath_cons_iff.2 ⟨hstart, hdotted⟩, fun longer hlonger hbegins => ?_⟩
        cases longer with
        | nil => exact Nat.zero_le _
        | cons c' tail =>
          exact Nat.succ_le_succ (hlongest tail (isPath_cons_iff.1 hlonger).2 (List.cons_prefix_cons.1 hbegins).2)
      · cases h
  · cases path with
    | nil => exact not_isPath_nil hpath
    | cons c tail =>
      obtain ⟨rest, rfl⟩ := hbegins
      simp [Reader.path?, (isPath_cons_iff.1 hpath).1] at h

/-! ## Operators -/

/-- The operators that can be written. -/
def operators : List AttrOp :=
  [.eq, .lt, .gt, .le, .ge, .other "!=", .other "~=", .other "|=", .other "^=", .other "$=", .other "*="]

/-- The symbol of an operator. -/
def IsOperator (symbol : List Char) : Prop :=
  ∃ op ∈ operators, symbol = op.symbol.toList

/-- The operator whose symbol is the longest at the start of a text. -/
def Operator (cs : List Char) (op : AttrOp) (rest : List Char) : Prop :=
  op ∈ operators ∧ Longest IsOperator cs op.symbol.toList rest

/-- The symbols, by length: three of one character and eight that end in `=`. -/
theorem isOperator_iff {symbol : List Char} : IsOperator symbol ↔
    (∃ c ∈ ['=', '<', '>'], symbol = [c]) ∨ ∃ c ∈ ['<', '>', '!', '~', '|', '^', '$', '*'], symbol = [c, '='] := by
  simp [IsOperator, operators, AttrOp.symbol, or_assoc]

/-- A symbol of one character is the longest unless `=` follows it. -/
theorem longest_symbol {c : Char} {rest : List Char} (hc : IsOperator [c]) (h : ∀ tail, rest = '=' :: tail → c = '=') :
    Longest IsOperator (c :: rest) [c] rest := by
  refine ⟨rfl, hc, fun longer hlonger hbegins => ?_⟩
  rcases isOperator_iff.1 hlonger with ⟨c', -, rfl⟩ | ⟨c', hc', rfl⟩
  · exact Nat.le_refl _
  · obtain ⟨tail, htail⟩ := hbegins
    simp only [List.cons_append, List.nil_append, List.cons.injEq] at htail
    obtain ⟨rfl, rfl⟩ := htail
    rw [h _ rfl] at hc'
    exact absurd hc' (by decide)

/-- No symbol is longer than two characters. -/
theorem longest_symbol_eq {c : Char} {rest : List Char} (hc : IsOperator [c, '=']) :
    Longest IsOperator (c :: '=' :: rest) [c, '='] rest := by
  refine ⟨rfl, hc, fun longer hlonger _ => ?_⟩
  rcases isOperator_iff.1 hlonger with ⟨c', -, rfl⟩ | ⟨c', -, rfl⟩
  · exact Nat.le_succ 1
  · exact Nat.le_refl _

theorem operator_of_operator? {cs rest : List Char} {op : AttrOp} (h : Reader.operator? cs = some (op, rest)) :
    Operator cs op rest := by
  unfold Reader.operator? at h
  split at h <;> cases h
  · exact ⟨by decide, longest_symbol_eq ⟨.ge, by decide, rfl⟩⟩
  · rename_i hne
    exact ⟨by decide, longest_symbol ⟨.gt, by decide, rfl⟩ fun tail htail => absurd htail (hne tail)⟩
  · exact ⟨by decide, longest_symbol_eq ⟨.le, by decide, rfl⟩⟩
  · rename_i hne
    exact ⟨by decide, longest_symbol ⟨.lt, by decide, rfl⟩ fun tail htail => absurd htail (hne tail)⟩
  · exact ⟨by decide, longest_symbol_eq ⟨.other "!=", by decide, rfl⟩⟩
  · exact ⟨by decide, longest_symbol_eq ⟨.other "~=", by decide, rfl⟩⟩
  · exact ⟨by decide, longest_symbol_eq ⟨.other "|=", by decide, rfl⟩⟩
  · exact ⟨by decide, longest_symbol_eq ⟨.other "^=", by decide, rfl⟩⟩
  · exact ⟨by decide, longest_symbol_eq ⟨.other "$=", by decide, rfl⟩⟩
  · exact ⟨by decide, longest_symbol_eq ⟨.other "*=", by decide, rfl⟩⟩
  · exact ⟨by decide, longest_symbol ⟨.eq, by decide, rfl⟩ fun _ _ => rfl⟩

/-- The reader finds something wherever a symbol starts. -/
theorem operator?_ne_none {cs symbol : List Char} (h : IsOperator symbol) (hbegins : symbol <+: cs) :
    Reader.operator? cs ≠ none := by
  obtain ⟨rest, rfl⟩ := hbegins
  rcases isOperator_iff.1 h with ⟨c, hc, rfl⟩ | ⟨c, hc, rfl⟩
  · simp only [List.mem_cons, List.not_mem_nil, or_false] at hc
    rcases hc with rfl | rfl | rfl <;> cases rest <;> unfold Reader.operator? <;> split <;> simp_all
  · simp only [List.mem_cons, List.not_mem_nil, or_false] at hc
    rcases hc with rfl | rfl | rfl | rfl | rfl | rfl | rfl | rfl <;> simp [Reader.operator?]

/-- Operators that can be written are told by their symbols. -/
theorem operator_inj : ∀ a ∈ operators, ∀ b ∈ operators, a.symbol.toList = b.symbol.toList → a = b := by
  decide

/-- The reader of operators finds the operator with the longest symbol. -/
theorem operator?_iff {cs rest : List Char} {op : AttrOp} : Reader.operator? cs = some (op, rest) ↔ Operator cs op rest := by
  refine ⟨operator_of_operator?, fun ⟨hop, h⟩ => ?_⟩
  cases hread : Reader.operator? cs with
  | none => exact absurd hread (operator?_ne_none h.isToken ⟨rest, h.split.symm⟩)
  | some pair =>
    obtain ⟨op', rest'⟩ := pair
    obtain ⟨hop', h'⟩ := operator_of_operator? hread
    obtain ⟨hsymbol, rfl⟩ := h.unique h'
    rw [operator_inj op hop op' hop' hsymbol]

/-! ## Blanks -/

/-- A text follows any number of blanks. -/
def Blanks (cs rest : List Char) : Prop :=
  ∃ blanks, (∀ c ∈ blanks, isSpace c) ∧ cs = blanks ++ rest

/-- What is skipped are blanks. -/
theorem blanks_spaces (cs : List Char) : Blanks cs (Reader.spaces cs) :=
  ⟨cs.takeWhile isSpace, fun _ hc => List.mem_takeWhile_imp hc, List.takeWhile_append_dropWhile.symm⟩

/-- Blanks in front make no difference to what is left after skipping. -/
theorem Blanks.spaces_eq {cs rest : List Char} (h : Blanks cs rest) : Reader.spaces cs = Reader.spaces rest := by
  obtain ⟨blanks, hblanks, rfl⟩ := h
  exact List.dropWhile_append_of_pos hblanks

theorem spaces_cons {c : Char} {rest : List Char} (hc : isSpace c = false) : Reader.spaces (c :: rest) = c :: rest :=
  List.dropWhile_cons_of_neg (by simp [hc])

theorem Blanks.spaces_eq_cons {cs rest : List Char} {c : Char} (h : Blanks cs (c :: rest)) (hc : isSpace c = false) :
    Reader.spaces cs = c :: rest :=
  h.spaces_eq.trans (spaces_cons hc)

/-- A text is blank if nothing is left of it after skipping. -/
theorem blanks_nil_iff {cs : List Char} : Blanks cs [] ↔ Reader.spaces cs = [] := by
  constructor
  · exact fun h => h.spaces_eq
  · exact fun h => h ▸ blanks_spaces cs

theorem Blanks.length_le {cs rest : List Char} (h : Blanks cs rest) : rest.length ≤ cs.length := by
  obtain ⟨blanks, -, rfl⟩ := h
  simp

/-! ## Values -/

/-- The value of an attribute test: the text up to the next quote, if it opens with a quote that occurs again; and else a run
of characters that are neither blanks nor closing brackets. -/
inductive Value : List Char → List Char → List Char → Prop
  | quoted {q : Char} {text rest : List Char} : q = '"' ∨ q = '\x27' → q ∉ text → Value (q :: (text ++ q :: rest)) text rest
  | bare {text rest : List Char} : (∀ q inner, text ++ rest = q :: inner → q = '"' ∨ q = '\x27' → q ∉ inner) →
      text ≠ [] → (∀ c ∈ text, c ≠ ']' ∧ isSpace c = false) → Value (text ++ rest) text rest

theorem isBare_iff {c : Char} : Reader.isBare c ↔ c ≠ ']' ∧ isSpace c = false := by
  simp [Reader.isBare]

/-- A run that ends where the next character is of another class is what `takeWhile` finds. -/
theorem takeWhile_run {p : Char → Bool} {run rest : List Char} (hrun : ∀ c ∈ run, p c)
    (hrest : ∀ c ∈ rest.head?, p c = false) :
    (run ++ rest).takeWhile p = run ∧ (run ++ rest).dropWhile p = rest := by
  rw [List.takeWhile_append_of_pos hrun, List.dropWhile_append_of_pos hrun]
  cases rest with
  | nil => simp
  | cons c rest => simp [hrest c rfl]

/-- A text is divided at the first occurrence of a character. -/
theorem split_at_first {q : Char} {inner : List Char} (h : q ∈ inner) :
    inner = inner.takeWhile (· != q) ++ q :: (inner.dropWhile (· != q)).tail := by
  induction inner with
  | nil => exact absurd h List.not_mem_nil
  | cons c inner ih =>
    by_cases hc : c = q
    · simp [hc]
    · have hinner := ih ((List.mem_cons.1 h).resolve_left (Ne.symm hc))
      simp only [List.takeWhile_cons, List.dropWhile_cons, bne_iff_ne, ne_eq, hc, not_false_eq_true, if_true,
        List.cons_append]
      rw [← hinner]

/-- What the reader takes as a value is one. -/
theorem value_of_value? {cs text rest : List Char} (h : Reader.value? cs = some (text, rest)) : Value cs text rest := by
  cases cs with
  | nil => cases h
  | cons q inner =>
    rw [Reader.value?] at h
    split at h
    · rename_i hquoted
      cases h
      have hnot : q ∉ inner.takeWhile (· != q) := fun hmem => by simpa using List.mem_takeWhile_imp hmem
      have hvalue : Value (q :: (inner.takeWhile (· != q) ++ q :: (inner.dropWhile (· != q)).tail))
          (inner.takeWhile (· != q)) (inner.dropWhile (· != q)).tail := .quoted hquoted.1 hnot
      rwa [← split_at_first hquoted.2] at hvalue
    · rename_i hplain
      unfold Reader.bareValue? at h
      split at h
      · cases h
      · rename_i hne
        cases h
        rw [List.isEmpty_iff] at hne
        have hsplit : (q :: inner).takeWhile Reader.isBare ++ (q :: inner).dropWhile Reader.isBare = q :: inner :=
          List.takeWhile_append_dropWhile
        have hvalue : Value ((q :: inner).takeWhile Reader.isBare ++ (q :: inner).dropWhile Reader.isBare)
            ((q :: inner).takeWhile Reader.isBare) ((q :: inner).dropWhile Reader.isBare) := by
          refine .bare (fun q' inner' heq hq hmem => ?_) hne fun c hc => isBare_iff.1 (List.mem_takeWhile_imp hc)
          obtain ⟨rfl, rfl⟩ := List.cons.inj (hsplit.symm.trans heq)
          exact hplain ⟨hq, hmem⟩
        rwa [hsplit] at hvalue

/-- The reader finds every value that ends where a bare one has to. -/
theorem value?_of_value {cs text rest : List Char} (h : Value cs text rest)
    (hrest : ∀ c ∈ rest.head?, Reader.isBare c = false) : Reader.value? cs = some (text, rest) := by
  cases h with
  | @quoted q text rest hq htext =>
    have hspan : (text ++ q :: rest).takeWhile (· != q) = text ∧ (text ++ q :: rest).dropWhile (· != q) = q :: rest :=
      takeWhile_run (fun c hc => bne_iff_ne.2 fun heq => htext (heq ▸ hc)) fun c hc => by simp_all
    rw [Reader.value?, if_pos ⟨hq, by simp⟩, hspan.1, hspan.2]
    rfl
  | bare hplain hne htext =>
    have hspan := takeWhile_run (fun c hc => isBare_iff.2 (htext c hc)) hrest
    have hbare : Reader.bareValue? (text ++ rest) = some (text, rest) := by
      rw [Reader.bareValue?, hspan.1, hspan.2, if_neg (by simpa using hne)]
    cases hcs : text ++ rest with
    | nil => exact absurd (List.append_eq_nil_iff.1 hcs).1 hne
    | cons q inner =>
      rw [Reader.value?, if_neg fun hquoted => hplain q inner hcs hquoted.1 hquoted.2, ← hcs, hbare]

theorem Value.length_le {cs text rest : List Char} (h : Value cs text rest) : rest.length ≤ cs.length := by
  cases h with
  | quoted => simp only [List.length_cons, List.length_append]; omega
  | bare => simp

/-! ## Joiners -/

/-- The combinators that are written out. -/
def symbols : List (Char × Combinator) :=
  [('>', .child), ('+', .adjacent), ('~', .sibling)]

/-- What joins two compounds: a combinator that is written out, with any number of blanks around it, or blanks alone. -/
inductive Joiner : List Char → Combinator → List Char → Prop
  | explicit {cs mid rest : List Char} {c : Char} {j : Combinator} :
      (c, j) ∈ symbols → Blanks cs (c :: mid) → Blanks mid rest → Joiner cs j rest
  | blank {c : Char} {cs rest : List Char} : isSpace c → Blanks cs rest → Joiner (c :: cs) .descendant rest

/-- No compound starts with a blank. -/
theorem startsCompound_of_isSpace {c : Char} (h : isSpace c) : Reader.startsCompound c = false := by
  simp only [isSpace, Bool.or_eq_true, beq_iff_eq, or_assoc] at h
  rcases h with rfl | rfl | rfl | rfl | rfl <;> rfl

theorem isSpace_of_startsCompound {c : Char} (h : Reader.startsCompound c) : isSpace c = false := by
  by_contra hspace
  rw [startsCompound_of_isSpace (by simpa using hspace)] at h
  cases h

/-- The written combinators are neither blanks nor beginnings of compounds. -/
theorem symbols_spec : ∀ x ∈ symbols, isSpace x.1 = false ∧ Reader.startsCompound x.1 = false := by
  decide

/-- The reader of written combinators finds exactly those of the table. -/
theorem explicit?_iff {cs rest : List Char} {j : Combinator} :
    Reader.explicit? cs = some (j, rest) ↔ ∃ c, (c, j) ∈ symbols ∧ cs = c :: rest := by
  constructor
  · intro h
    unfold Reader.explicit? at h
    split at h <;> cases h
    · exact ⟨'>', by decide, rfl⟩
    · exact ⟨'+', by decide, rfl⟩
    · exact ⟨'~', by decide, rfl⟩
  · rintro ⟨c, hc, rfl⟩
    simp only [symbols, List.mem_cons, Prod.mk.injEq, List.not_mem_nil, or_false] at hc
    rcases hc with ⟨rfl, rfl⟩ | ⟨rfl, rfl⟩ | ⟨rfl, rfl⟩ <;> rfl

/-- What the reader takes as a joiner is one. -/
theorem joiner_of_joiner? {cs rest : List Char} {j : Combinator} (h : Reader.joiner? cs = some (j, rest)) :
    Joiner cs j rest := by
  unfold Reader.joiner? at h
  split at h
  · rename_i j' mid hexplicit
    cases h
    obtain ⟨c, hc, hcs⟩ := explicit?_iff.1 hexplicit
    exact .explicit hc (hcs ▸ blanks_spaces cs) (blanks_spaces mid)
  · split at h
    · rename_i hblank
      cases h
      rw [Bool.and_eq_true] at hblank
      cases cs with
      | nil => simp at hblank
      | cons c cs =>
        have hc : isSpace c := by simpa using hblank.1
        have hspaces : Reader.spaces (c :: cs) = Reader.spaces cs := List.dropWhile_cons_of_pos hc
        rw [hspaces]
        exact .blank hc (blanks_spaces cs)
    · cases h

/-- Before a compound the reader finds every joiner. -/
theorem joiner?_of_joiner {cs rest : List Char} {j : Combinator} (h : Joiner cs j rest)
    (hrest : rest.head?.any Reader.startsCompound) : Reader.joiner? cs = some (j, rest) := by
  have hspaces : Reader.spaces rest = rest := by
    cases rest with
    | nil => rfl
    | cons c rest => exact spaces_cons (isSpace_of_startsCompound (by simpa using hrest))
  cases h with
  | explicit hc hcs hmid =>
    rw [Reader.joiner?, hcs.spaces_eq_cons (symbols_spec _ hc).1, explicit?_iff.2 ⟨_, hc, rfl⟩]
    dsimp only
    rw [hmid.spaces_eq, hspaces]
  | @blank c cs rest hc hcs =>
    have hcs' : Reader.spaces (c :: cs) = rest := (List.dropWhile_cons_of_pos hc).trans (hcs.spaces_eq.trans hspaces)
    have hnone : Reader.explicit? rest = none := by
      cases hexplicit : Reader.explicit? rest with
      | none => rfl
      | some pair =>
        obtain ⟨c', hc', rfl⟩ := explicit?_iff.1 hexplicit
        have hstarts : Reader.startsCompound c' := by simpa using hrest
        rw [(symbols_spec _ hc').2] at hstarts
        cases hstarts
    rw [Reader.joiner?, hcs', hnone]
    simp [hc, hrest]

/-- No compound starts at a joiner. -/
theorem Joiner.head {cs rest : List Char} {j : Combinator} (h : Joiner cs j rest) :
    cs.head?.any Reader.startsCompound = false := by
  cases h with
  | explicit hc hcs _ =>
    obtain ⟨blanks, hblanks, rfl⟩ := hcs
    cases blanks with
    | nil => simpa using (symbols_spec _ hc).2
    | cons b blanks => simpa using startsCompound_of_isSpace (hblanks b List.mem_cons_self)
  | blank hc _ => simpa using startsCompound_of_isSpace hc

theorem Joiner.length_lt {cs rest : List Char} {j : Combinator} (h : Joiner cs j rest) : rest.length < cs.length := by
  cases h with
  | explicit _ hcs hmid => exact Nat.lt_of_le_of_lt hmid.length_le (Nat.lt_of_lt_of_le (Nat.lt_succ_self _) hcs.length_le)
  | blank _ hcs => exact Nat.lt_succ_of_le hcs.length_le

end Grammar

end RuleWalk.Selector
