import RuleWalk.Proofs.Printing
import RuleWalk.Selector.Pattern

/-!
# Reading stops after a viable beginning

Where reading stops, nothing is wrong yet: the text in front of that place can be completed to one that is read. To see this,
what has been read so far is kept and the rest of the text is replaced by the end of a construct and as many closing
parentheses as are open. What was read in front of a text is also read in front of another if no name goes on with it that
ended before, and if it brings no quotes, since a quote that does not occur again is a character like others.
-/

namespace RuleWalk

/-! ## Byte offsets -/

namespace Text

theorem byteLength_append (front back : List Char) :
    byteLength (front ++ back) = byteLength front + byteLength back := by
  induction front with
  | nil => exact (Nat.zero_add _).symm
  | cons c front ih => rw [List.cons_append, byteLength, byteLength, ih, Nat.add_assoc]

/-- A text can be cut at the byte offset of each of its characters. -/
theorem cutBytes?_append (front back : List Char) :
    cutBytes? (byteLength front) (front ++ back) = some (front, back) := by
  induction front with
  | nil => simp [byteLength, cutBytes?]
  | cons c front ih =>
    obtain ⟨n, hn⟩ : ∃ n, byteLength (c :: front) = n + 1 :=
      Nat.exists_eq_add_one.2 (Nat.lt_of_lt_of_le c.utf8Size_pos (Nat.le_add_right _ _))
    have hrest : n + 1 - c.utf8Size = byteLength front := by
      rw [← hn, byteLength, Nat.add_sub_cancel_left]
    have hle : c.utf8Size ≤ n + 1 := by
      rw [← hn, byteLength]
      exact Nat.le_add_right _ _
    rw [hn, List.cons_append, cutBytes?, if_pos hle, hrest, ih]
    rfl

end Text

namespace Selector

open Text Reader

namespace Grammar

/-! ## Replacing what follows -/

/-- A text without quotes. -/
def Quoteless (cs : List Char) : Prop :=
  '"' ∉ cs ∧ '\x27' ∉ cs

instance (cs : List Char) : Decidable (Quoteless cs) :=
  inferInstanceAs (Decidable ('"' ∉ cs ∧ '\x27' ∉ cs))

/-- Neither kind of quote is in such a text. -/
theorem Quoteless.not_mem {cs : List Char} (h : Quoteless cs) {q : Char} (hq : q = '"' ∨ q = '\x27') : q ∉ cs := by
  rcases hq with rfl | rfl
  · exact h.1
  · exact h.2

/-- A text that can take the place of another after what has been read: no name goes on with it that the other ends, and it
has no quotes that the other has not. -/
structure Replaces (cs cs' : List Char) : Prop where
  apart : Apart cs → Apart cs'
  quotes : ∀ q, q = '"' ∨ q = '\x27' → q ∈ cs' → q ∈ cs

/-- What follows a text may be replaced behind more text in front. -/
theorem Replaces.append {cs cs' : List Char} (h : Replaces cs cs') (front : List Char) :
    Replaces (front ++ cs) (front ++ cs') := by
  refine ⟨fun hapart => ?_, fun q hq hmem => ?_⟩
  · cases front with
    | nil => exact h.apart hapart
    | cons c front => exact hapart
  · rcases List.mem_append.1 hmem with hmem | hmem
    · exact List.mem_append_left _ hmem
    · exact List.mem_append_right _ (h.quotes q hq hmem)

/-- A text without quotes can take the place of another if something before it stays or no name goes on with it. -/
theorem Quoteless.replaces {front more : List Char} (h : Quoteless more) (hapart : front ≠ [] ∨ Apart more)
    (stop : List Char) : Replaces (front ++ stop) (front ++ more) := by
  refine ⟨fun hstop => ?_, fun q hq hmem => ?_⟩
  · cases front with
    | nil => exact hapart.resolve_left fun hne => hne rfl
    | cons c front => exact hstop
  · exact List.mem_append_left _ ((List.mem_append.1 hmem).resolve_right (h.not_mem hq))

/-- What has been read in front of a text is read in front of every text that can take its place. -/
def Replaceable (P : List Char → List Char → Prop) (cs rest : List Char) : Prop :=
  ∃ front, cs = front ++ rest ∧ ∀ rest', Replaces rest rest' → P (front ++ rest') rest'

section Replaceable

variable {P Q : List Char → List Char → Prop} {cs mid rest : List Char}

/-- A construct that is made of one that can be read so can be read so. -/
theorem Replaceable.imp (h : Replaceable P cs rest) (himp : ∀ a b, P a b → Q a b) : Replaceable Q cs rest := by
  obtain ⟨front, rfl, hp⟩ := h
  exact ⟨front, rfl, fun rest' hrest => himp _ _ (hp rest' hrest)⟩

theorem Replaceable.cons (h : Replaceable P cs rest) (c : Char) (himp : ∀ a b, P a b → Q (c :: a) b) :
    Replaceable Q (c :: cs) rest := by
  obtain ⟨front, rfl, hp⟩ := h
  exact ⟨c :: front, rfl, fun rest' hrest => himp _ _ (hp rest' hrest)⟩

/-- Of two constructs one after the other, the second is kept as it stands when what follows it is replaced. -/
theorem Replaceable.comp (h : Replaceable P cs mid) (h' : Replaceable Q mid rest) :
    Replaceable (Relation.Comp P Q) cs rest := by
  obtain ⟨front, rfl, hp⟩ := h
  obtain ⟨front', rfl, hq⟩ := h'
  refine ⟨front ++ front', (List.append_assoc _ _ _).symm, fun rest' hrest => ⟨front' ++ rest', ?_, hq rest' hrest⟩⟩
  rw [List.append_assoc]
  exact hp _ (hrest.append front')

/-- Blanks are read the same whatever follows. -/
theorem Replaceable.of_blanks (h : Blanks cs rest) : Replaceable Blanks cs rest := by
  obtain ⟨blanks, hblanks, rfl⟩ := h
  exact ⟨blanks, rfl, fun _ _ => ⟨blanks, hblanks, rfl⟩⟩

/-- Blanks in front of a character that is part of a construct. -/
theorem Replaceable.of_blanks_char {c : Char} (h : Blanks cs (c :: rest)) :
    Replaceable (fun a b => Blanks a (c :: b)) cs rest := by
  obtain ⟨blanks, hblanks, rfl⟩ := h
  exact ⟨blanks ++ [c], by simp, fun _ _ => ⟨blanks, hblanks, by simp⟩⟩

theorem Replaceable.of_name {name : List Char} (h : Longest IsName cs name rest) :
    Replaceable (Longest IsName · name ·) cs rest :=
  ⟨name, h.split, fun _ hrest => longest_name h.isToken (hrest.apart h.apart)⟩

/-- A joiner takes at least one character and does not depend on what follows it. -/
theorem Joiner.replace {j : Combinator} (h : Joiner cs j rest) :
    ∃ front, front ≠ [] ∧ cs = front ++ rest ∧ ∀ rest', Joiner (front ++ rest') j rest' := by
  cases h with
  | @explicit _ _ _ c _ hc hcs hmid =>
    obtain ⟨blanks, hblanks, rfl⟩ := hcs
    obtain ⟨blanks', hblanks', rfl⟩ := hmid
    refine ⟨blanks ++ c :: blanks', by simp, by simp, fun rest' => ?_⟩
    exact .explicit hc ⟨blanks, hblanks, by simp⟩ ⟨blanks', hblanks', rfl⟩
  | @blank c _ _ hc hcs =>
    obtain ⟨blanks, hblanks, rfl⟩ := hcs
    exact ⟨c :: blanks, List.cons_ne_nil _ _, rfl, fun rest' => .blank hc ⟨blanks, hblanks, rfl⟩⟩

/-- A joiner is read the same whatever follows. -/
theorem Replaceable.of_joiner {j : Combinator} (h : Joiner cs j rest) : Replaceable (Joiner · j ·) cs rest := by
  obtain ⟨front, -, hcs, hkept⟩ := h.replace
  exact ⟨front, hcs, fun rest' _ => hkept rest'⟩

end Replaceable

/-- A value takes at least one character, and one that opens with a quote but does not close it stays as it is if no quotes
are brought in. -/
theorem Value.replaceable {cs value rest : List Char} (h : Value cs value rest) :
    ∃ c front, cs = c :: (front ++ rest) ∧ ∀ rest', Replaces rest rest' → Value (c :: (front ++ rest')) value rest' := by
  cases h with
  | @quoted q _ _ hq hvalue => exact ⟨q, value ++ [q], by simp, fun _ _ => by simpa using Value.quoted hq hvalue⟩
  | bare hplain hne hvalue =>
    cases value with
    | nil => exact absurd rfl hne
    | cons c value =>
      refine ⟨c, value, rfl, fun rest' hrest => .bare (fun q inner heq hq hmem => ?_) hne hvalue⟩
      obtain ⟨rfl, rfl⟩ := List.cons.inj heq
      refine hplain c (value ++ rest) rfl hq (List.mem_append.2 ?_)
      exact (List.mem_append.1 hmem).imp_right (hrest.quotes c hq)

/-- An operator stays the longest if no `=` comes after it that was not there. -/
theorem Operator.replace {cs rest rest' : List Char} {op : AttrOp} (h : Operator cs op rest)
    (hrest : rest'.head? = some '=' → rest.head? = some '=') : Operator (op.symbol.toList ++ rest') op rest' := by
  obtain ⟨hop, hsplit, hsymbol, hlongest⟩ := h
  refine ⟨hop, rfl, hsymbol, fun longer hlonger hbegins => ?_⟩
  rcases isOperator_iff.1 hsymbol with ⟨c, -, heq⟩ | ⟨c, -, heq⟩
  · rcases isOperator_iff.1 hlonger with ⟨c', -, rfl⟩ | ⟨c', -, rfl⟩
    · rw [heq]
      exact Nat.le_refl _
    · -- the longer symbol would have been there before
      obtain ⟨tail, htail⟩ := hbegins
      simp only [heq, List.cons_append, List.nil_append, List.cons.injEq] at htail
      obtain ⟨rfl, rfl⟩ := htail
      obtain ⟨tail', rfl⟩ := List.head?_eq_some_iff.1 (hrest rfl)
      exact hlongest _ hlonger ⟨tail', by simp [hsplit, heq]⟩
  · rcases isOperator_iff.1 hlonger with ⟨c', -, rfl⟩ | ⟨c', -, rfl⟩ <;> simp [heq]

/-- A blank ends a path. -/
theorem isNameChar_of_isSpace {c : Char} (h : isSpace c) : (isNameChar c || c == '.') = false := by
  simp only [isSpace, Bool.or_eq_true, beq_iff_eq, or_assoc] at h
  rcases h with rfl | rfl | rfl | rfl | rfl <;> rfl

/-- Blanks end a path, and so does what ends it without them. -/
theorem head_of_blanks {blanks rest : List Char} (hblanks : ∀ c ∈ blanks, isSpace c)
    (hrest : ∀ c ∈ rest.head?, (isNameChar c || c == '.') = false) :
    ∀ c ∈ (blanks ++ rest).head?, (isNameChar c || c == '.') = false := by
  cases blanks with
  | nil => exact hrest
  | cons b blanks =>
    intro c hc
    obtain rfl : b = c := by simpa using hc
    exact isNameChar_of_isSpace (hblanks b List.mem_cons_self)

section Attributes

variable {blanks blanks' path : List Char} (hblanks : ∀ c ∈ blanks, isSpace c) (hpath : IsPath path)
  (hblanks' : ∀ c ∈ blanks', isSpace c)

include hblanks hpath hblanks'

theorem simple_present (rest : List Char) : Simple ('[' :: (blanks ++ (path ++ (blanks' ++ ']' :: rest))))
    (.attribute (String.ofList path) none) rest :=
  .present ⟨blanks, hblanks, rfl⟩ (longest_path hpath (head_of_blanks hblanks' (by simp; decide))) ⟨blanks', hblanks', rfl⟩

/-- An attribute test with its path, its operator and its value in place, and blanks around each. -/
theorem simple_tested {cs cs₁ cs₂ value cs₃ rest : List Char} {op : AttrOp} (hop : Operator cs op cs₁) (h₁ : Blanks cs₁ cs₂)
    (hvalue : Value cs₂ value cs₃) (h₂ : Blanks cs₃ (']' :: rest)) : Simple ('[' :: (blanks ++ (path ++ (blanks' ++ cs))))
      (.attribute (String.ofList path) (some (op, String.ofList value))) rest := by
  have hends : ∀ c ∈ cs.head?, (isNameChar c || c == '.') = false := by
    rw [hop.2.split]
    exact operator_head hop.2.isToken
  exact .tested ⟨blanks, hblanks, rfl⟩ (longest_path hpath (head_of_blanks hblanks' hends)) ⟨blanks', hblanks', rfl⟩ hop h₁
    hvalue h₂

end Attributes

mutual

/-- What follows a simple selector can be replaced. -/
theorem Simple.replaceable {cs rest : List Char} {s : Selector} : Simple cs s rest → Replaceable (Simple · s ·) cs rest
  | .any => ⟨['*'], rfl, fun _ _ => .any⟩
  | .type hname => (Replaceable.of_name hname).imp fun _ _ => .type
  | @Simple.present _ _ path _ _ h₁ hpath hclose => by
    obtain ⟨blanks, hblanks, rfl⟩ := h₁
    obtain ⟨rfl, hpath, -⟩ := hpath
    obtain ⟨blanks', hblanks', rfl⟩ := hclose
    refine ⟨'[' :: (blanks ++ (path ++ (blanks' ++ [']']))), by simp, fun rest' _ => ?_⟩
    simpa using simple_present hblanks hpath hblanks' rest'
  | @Simple.tested _ _ path _ _ _ _ _ _ _ op h₁ hpath h₂ hop h₃ hvalue hclose => by
    obtain ⟨blanks, hblanks, rfl⟩ := h₁
    obtain ⟨rfl, hpath, -⟩ := hpath
    obtain ⟨blanks', hblanks', rfl⟩ := h₂
    obtain ⟨blanks₁, hblanks₁, rfl⟩ := h₃
    obtain ⟨c, front, rfl, hkept⟩ := hvalue.replaceable
    obtain ⟨blanks₂, hblanks₂, rfl⟩ := hclose
    refine ⟨'[' :: (blanks ++ (path ++ (blanks' ++ (op.symbol.toList ++ (blanks₁ ++ c :: (front ++ (blanks₂ ++ [']']))))))),
      by simp [hop.2.split], fun rest' hrest => ?_⟩
    have hnext : (blanks₁ ++ c :: (front ++ (blanks₂ ++ ']' :: rest'))).head? = some '=' →
        (blanks₁ ++ c :: (front ++ (blanks₂ ++ ']' :: rest))).head? = some '=' := by
      cases blanks₁ <;> exact id
    simpa using simple_tested hblanks hpath hblanks' (hop.replace hnext) ⟨blanks₁, hblanks₁, rfl⟩
      (hkept _ ((hrest.append [']']).append blanks₂)) ⟨blanks₂, hblanks₂, rfl⟩
  | .pseudo hname hother => (Replaceable.of_name hname).cons ':' fun _ _ hname => .pseudo hname hother
  | .nested hname hkind hargs => by
    refine ((Replaceable.of_name hname).comp hargs.replaceable).cons ':' ?_
    rintro _ _ ⟨_, hname, hargs⟩
    exact .nested hname hkind hargs

theorem Simples.replaceable {cs rest : List Char} {parts : List Selector} :
    Simples cs parts rest → Replaceable (Simples · parts ·) cs rest
  | .one hs => hs.replaceable.imp fun _ _ => .one
  | .more hs hparts => by
    refine (hs.replaceable.comp hparts.replaceable).imp ?_
    rintro _ _ ⟨_, hs, hparts⟩
    exact .more hs hparts

theorem Compound.replaceable {cs rest : List Char} {s : Selector} :
    Compound cs s rest → Replaceable (Compound · s ·) cs rest
  | .single hs => hs.replaceable.imp fun _ _ => .single
  | .several hs hparts => by
    refine (hs.replaceable.comp hparts.replaceable).imp ?_
    rintro _ _ ⟨_, hs, hparts⟩
    exact .several hs hparts

/-- The links of a chain are read the same in front of another rest. -/
theorem Links.replaceable {cs rest : List Char} {left s : Selector} :
    Links cs left s rest → Replaceable (Links · left s ·) cs rest
  | .none => ⟨[], rfl, fun _ _ => .none⟩
  | .more hj hright hlinks => by
    refine ((Replaceable.of_joiner hj).comp (hright.replaceable.comp hlinks.replaceable)).imp ?_
    rintro _ _ ⟨_, hj, _, hright, hlinks⟩
    exact .more hj hright hlinks

/-- A chain is read the same in front of another rest. -/
theorem Complex.replaceable {cs rest : List Char} {s : Selector} : Complex cs s rest → Replaceable (Complex · s ·) cs rest
  | .chain hfirst hlinks => by
    refine (hfirst.replaceable.comp hlinks.replaceable).imp ?_
    rintro _ _ ⟨_, hfirst, hlinks⟩
    exact .chain hfirst hlinks

theorem More.replaceable {cs rest : List Char} {args : List Selector} :
    More cs args rest → Replaceable (More · args ·) cs rest
  | .none => ⟨[], rfl, fun _ _ => .none⟩
  | .more hcomma hblanks hs hargs => by
    have hstart := (Replaceable.of_blanks_char hcomma).comp (Replaceable.of_blanks hblanks)
    refine (hstart.comp (hs.replaceable.comp hargs.replaceable)).imp ?_
    rintro _ _ ⟨_, ⟨_, hcomma, hblanks⟩, _, hs, hargs⟩
    exact .more hcomma hblanks hs hargs

/-- A list of arguments is read the same in front of another rest, the closing parenthesis being part of it. -/
theorem Arguments.replaceable {cs rest : List Char} {args : List Selector} :
    Arguments cs args rest → Replaceable (Arguments · args ·) cs rest
  | .list hblanks hfirst hmore hclose => by
    have hinside := hfirst.replaceable.comp (hmore.replaceable.comp (Replaceable.of_blanks_char hclose))
    refine ((Replaceable.of_blanks hblanks).comp hinside).cons '(' ?_
    rintro _ _ ⟨_, hblanks, _, hfirst, _, hmore, hclose⟩
    exact .list hblanks hfirst hmore hclose

end

/-! ## Completing a text -/

/-- Closing parentheses and nothing else. -/
def Closing (cs : List Char) : Prop :=
  ∀ c ∈ cs, c = ')'

theorem Closing.cons {cs : List Char} (h : Closing cs) : Closing (')' :: cs) :=
  List.forall_mem_cons.2 ⟨rfl, h⟩

/-- No name goes on with a closing parenthesis. -/
theorem Closing.apart {cs : List Char} (h : Closing cs) : Apart cs := by
  intro c hc
  rw [h c (List.mem_of_head? hc)]
  rfl

/-- Closing parentheses bring in no quotes. -/
theorem Closing.quoteless {cs more : List Char} (h : Closing cs) (hmore : Quoteless more) : Quoteless (more ++ cs) := by
  have hnot : ∀ q : Char, q ≠ ')' → q ∉ more → q ∉ more ++ cs := fun q hne hq hmem =>
    (List.mem_append.1 hmem).elim hq fun hmem => hne (h q hmem)
  exact ⟨hnot _ (by decide) hmore.1, hnot _ (by decide) hmore.2⟩

/-- A construct has begun in a text and reading it has stopped: what stands before the stop, and something does, can be
completed to such a construct, without quotes and in front of any number of closing parentheses. -/
def Viable {α : Type} (G : List Char → α → List Char → Prop) (cs stop : List Char) : Prop :=
  ∃ front more, front ≠ [] ∧ cs = front ++ stop ∧ Quoteless more ∧
    ∀ closing, Closing closing → ∃ a, G (front ++ (more ++ closing)) a closing

section Viable

variable {α β : Type} {G : List Char → α → List Char → Prop} {H : List Char → β → List Char → Prop}
  {P : List Char → List Char → Prop} {cs mid stop : List Char}

/-- A construct that is made of one that can be completed can be completed. -/
theorem Viable.imp (h : Viable G cs stop) (himp : ∀ cs a rest, G cs a rest → ∃ b, H cs b rest) : Viable H cs stop := by
  obtain ⟨front, more, hfront, rfl, hmore, hg⟩ := h
  refine ⟨front, more, hfront, rfl, hmore, fun closing hclosing => ?_⟩
  obtain ⟨a, ha⟩ := hg closing hclosing
  exact himp _ a _ ha

/-- A construct that starts with what has been read and goes on with one that can be completed. -/
theorem Viable.after (h : Viable G mid stop) (hread : Replaceable P cs mid)
    (himp : ∀ cs mid a rest, P cs mid → G mid a rest → ∃ b, H cs b rest) : Viable H cs stop := by
  obtain ⟨front', more, hfront', rfl, hmore, hg⟩ := h
  obtain ⟨front, rfl, hp⟩ := hread
  refine ⟨front ++ front', more, by simp [hfront'], (List.append_assoc _ _ _).symm, hmore, fun closing hclosing => ?_⟩
  obtain ⟨a, ha⟩ := hg closing hclosing
  rw [List.append_assoc]
  exact himp _ _ a _ (hp _ ((hclosing.quoteless hmore).replaces (Or.inl hfront') stop)) ha

/-- A construct that is completed in front of a closing parenthesis can take this in. -/
theorem Viable.close (h : Viable G cs stop) (himp : ∀ cs a rest, G cs a (')' :: rest) → ∃ b, H cs b rest) :
    Viable H cs stop := by
  obtain ⟨front, more, hfront, rfl, hmore, hg⟩ := h
  refine ⟨front, more ++ [')'], hfront, rfl, ?_, fun closing hclosing => ?_⟩
  · exact Closing.quoteless (List.forall_mem_singleton.2 rfl) hmore
  · obtain ⟨a, ha⟩ := hg (')' :: closing) hclosing.cons
    rw [List.append_assoc]
    exact himp _ a _ ha

end Viable

/-! ## Where readers stop -/

theorem isPath_letter : IsPath ['x'] :=
  isPath_cons_iff.2 ⟨rfl, trivial⟩

theorem isName_letter : IsName ['x'] :=
  ⟨rfl, nofun⟩

theorem compound_letter {closing : List Char} (h : Closing closing) : Compound ('x' :: closing) (.type "x") closing :=
  .single (.type (longest_name isName_letter h.apart))

/-- A single letter completes a chain. -/
theorem complex_letter {closing : List Char} (h : Closing closing) : Complex ('x' :: closing) (.type "x") closing :=
  .chain (compound_letter h) .none

/-- Reading stops in front of what stands in the place of the bracket. -/
theorem attributeEnd_stuck {path : List Char} {test : Option (AttrOp × String)} {cs : List Char} {failure : Stuck}
    (h : attributeEnd path test cs = .stuck failure) : failure.rest = spaces cs := by
  unfold attributeEnd at h
  split at h
  · cases h
  · cases h
    rfl

theorem value_letter (closing : List Char) : Value ('x' :: ']' :: closing) ['x'] (']' :: closing) := by
  have hvalue : Value (['x'] ++ ']' :: closing) ['x'] (']' :: closing) := by
    refine .bare (fun q inner heq hq => ?_) (List.cons_ne_nil _ _) (List.forall_mem_singleton.2 (by decide))
    obtain ⟨rfl, -⟩ := List.cons.inj heq
    exact absurd hq (by decide)
  exact hvalue

section Attributes

variable {blanks blanks' path : List Char} (hblanks : ∀ c ∈ blanks, isSpace c) (hpath : IsPath path)
  (hblanks' : ∀ c ∈ blanks', isSpace c)

include hblanks hpath hblanks'

/-- After a path the closing bracket completes an attribute selector. -/
theorem viable_present (stop : List Char) : Viable Simple ('[' :: (blanks ++ (path ++ (blanks' ++ stop)))) stop := by
  refine ⟨'[' :: (blanks ++ (path ++ blanks')), [']'], List.cons_ne_nil _ _, by simp, by decide, fun closing _ => ?_⟩
  have hsimple := simple_present hblanks hpath hblanks' closing
  exact ⟨_, by simpa using hsimple⟩

/-- After an operator a value and the closing bracket complete an attribute selector. -/
theorem viable_untested {cs rest : List Char} {op : AttrOp} (hop : Operator cs op rest) :
    Viable Simple ('[' :: (blanks ++ (path ++ (blanks' ++ cs)))) (spaces rest) := by
  obtain ⟨blanks₁, hblanks₁, hrest⟩ := blanks_spaces rest
  have hcs : cs = op.symbol.toList ++ (blanks₁ ++ spaces rest) := by rw [← hrest, ← hop.2.split]
  refine ⟨'[' :: (blanks ++ (path ++ (blanks' ++ (op.symbol.toList ++ blanks₁)))), ['x', ']'], List.cons_ne_nil _ _,
    by simp [← hcs], by decide, fun closing _ => ?_⟩
  have hnext : (blanks₁ ++ 'x' :: ']' :: closing).head? = some '=' → rest.head? = some '=' := by
    cases blanks₁ with
    | nil => simp
    | cons b blanks₁ =>
      rw [hrest]
      exact id
  have hsimple := simple_tested hblanks hpath hblanks' (hop.replace hnext) ⟨blanks₁, hblanks₁, rfl⟩ (value_letter closing)
    (.refl _)
  exact ⟨_, by simpa using hsimple⟩

/-- After a value the closing bracket completes an attribute selector. -/
theorem viable_tested {cs cs₁ cs₂ value rest : List Char} {op : AttrOp} (hop : Operator cs op cs₁) (h₁ : Blanks cs₁ cs₂)
    (hvalue : Value cs₂ value rest) :
    Viable Simple ('[' :: (blanks ++ (path ++ (blanks' ++ cs)))) (spaces rest) := by
  obtain ⟨blanks₁, hblanks₁, rfl⟩ := h₁
  obtain ⟨c, front, rfl, hkept⟩ := hvalue.replaceable
  obtain ⟨blanks₂, hblanks₂, hrest⟩ := blanks_spaces rest
  have hcs : cs = op.symbol.toList ++ (blanks₁ ++ c :: (front ++ (blanks₂ ++ spaces rest))) := by
    rw [← hrest, ← hop.2.split]
  refine ⟨'[' :: (blanks ++ (path ++ (blanks' ++ (op.symbol.toList ++ (blanks₁ ++ c :: (front ++ blanks₂)))))), [']'],
    List.cons_ne_nil _ _, by simp [hcs], by decide, fun closing hclosing => ?_⟩
  have hnext : (blanks₁ ++ c :: (front ++ (blanks₂ ++ ']' :: closing))).head? = some '=' →
      (blanks₁ ++ c :: (front ++ rest)).head? = some '=' := by
    cases blanks₁ <;> exact id
  -- blanks or the closing bracket follow the value, and neither is a quote
  have hreplaces : Replaces rest (blanks₂ ++ ']' :: closing) := by
    have hclose : Quoteless (']' :: closing) := hclosing.quoteless (by decide : Quoteless [']'])
    rw [hrest]
    exact hclose.replaces (Or.inr (apart_cons rfl)) _
  have hsimple := simple_tested hblanks hpath hblanks' (hop.replace hnext) ⟨blanks₁, hblanks₁, rfl⟩ (hkept _ hreplaces)
    ⟨blanks₂, hblanks₂, rfl⟩
  exact ⟨_, by simpa using hsimple⟩

end Attributes

/-- An attribute selector can be completed wherever it stops. -/
theorem attributeBody_viable {cs : List Char} {failure : Stuck} (h : attributeBody cs = .stuck failure) :
    Viable Simple ('[' :: cs) failure.rest := by
  obtain ⟨blanks, hblanks, hcs⟩ := blanks_spaces cs
  unfold attributeBody at h
  split at h
  · cases h
    refine ⟨'[' :: blanks, ['x', ']'], List.cons_ne_nil _ _, congrArg _ hcs, by decide, fun closing _ => ?_⟩
    exact ⟨_, simple_present hblanks isPath_letter (nofun : ∀ c ∈ [], isSpace c) closing⟩
  · rename_i path cs₁ hpath
    obtain ⟨hsplit, hpath, -⟩ := path?_iff.1 hpath
    obtain ⟨blanks₁, hblanks₁, hcs₁⟩ := blanks_spaces cs₁
    rw [hcs, hsplit, hcs₁]
    split at h
    · rw [attributeEnd_stuck h]
      exact viable_present hblanks hpath hblanks₁ _
    · rename_i op cs₂ hop
      have hop := operator?_iff.1 hop
      split at h
      · cases h
        exact viable_untested hblanks hpath hblanks₁ hop
      · rename_i value cs₃ hvalue
        rw [attributeEnd_stuck h]
        exact viable_tested hblanks hpath hblanks₁ hop (blanks_spaces cs₂) (value_of_value? hvalue)

/-- A single letter in parentheses completes the arguments. -/
theorem arguments_letter {closing : List Char} (h : Closing closing) :
    Arguments ('(' :: 'x' :: ')' :: closing) [.type "x"] closing :=
  .list (.refl _) (complex_letter h.cons) .none (.refl _)

/-- A single letter stands for no pseudo-class with arguments. -/
theorem not_nests_letter (kind : PseudoClass) : ¬Nests ['x'] kind := by
  intro h
  have heq := pseudoClass_of_nests h
  subst heq
  exact not_nests_other h

section Arguments

variable {arguments : List Char → Reply (List Selector)}
  (hstuck : ∀ cs failure, arguments cs = .stuck failure → Viable Arguments cs failure.rest)

include hstuck

/-- A pseudo-class can be completed wherever it stops. -/
theorem pseudoBody_viable {cs : List Char} {failure : Stuck} (h : pseudoBody arguments cs = .stuck failure) :
    Viable Simple (':' :: cs) failure.rest := by
  unfold pseudoBody at h
  split at h
  · cases h
    refine ⟨[':'], ['x'], List.cons_ne_nil _ _, rfl, by decide, fun closing hclosing => ?_⟩
    exact ⟨_, .pseudo (longest_name isName_letter hclosing.apart) not_nests_letter⟩
  · rename_i name mid hname
    have hname := name?_iff.1 hname
    split at h
    · cases h
    · rename_i hother
      have hkind := (nests_or_other name).resolve_right (hother _)
      split at h
      · cases h
      · cases h
        refine ⟨':' :: name, ['(', 'x', ')'], List.cons_ne_nil _ _, congrArg _ hname.split, by decide,
          fun closing hclosing => ?_⟩
        exact ⟨_, .nested (longest_name hname.isToken (apart_cons rfl)) hkind (arguments_letter hclosing)⟩
      · rename_i failure' hargs
        cases h
        have hread : Replaceable (fun cs mid => ∃ cs', cs = ':' :: cs' ∧ Longest IsName cs' name mid) (':' :: cs) mid :=
          (Replaceable.of_name hname).cons ':' fun _ _ hname => ⟨_, rfl, hname⟩
        refine (hstuck _ _ hargs).after hread ?_
        rintro _ _ _ _ ⟨_, rfl, hname⟩ hargs
        exact ⟨_, .nested hname hkind hargs⟩

/-- A simple selector can be completed wherever it stops. -/
theorem simple_viable {cs : List Char} {failure : Stuck} (h : simple arguments cs = .stuck failure) :
    Viable Simple cs failure.rest := by
  unfold simple at h
  split at h
  · exact attributeBody_viable h
  · exact pseudoBody_viable hstuck h
  · cases h
  · split at h <;> cases h

end Arguments

/-! ## Runs that stop -/

/-- A run stops where one of its items stops, after those before it have been read. -/
theorem reads_of_many_error {α : Type} {item : List Char → Reply α} {limit : Nat} {cs : List Char} {failure : Stuck}
    (h : many item limit cs = .error failure) : ∃ as mid, Reads item cs as mid ∧ item mid = .stuck failure := by
  induction limit generalizing cs with
  | zero => cases h
  | succ limit ih =>
    rw [many] at h
    split at h
    · cases h
    · rename_i hstuck
      cases h
      exact ⟨[], cs, .nil, hstuck⟩
    · rename_i a mid ha
      split at h
      · cases h
      · rename_i hmore
        cases h
        obtain ⟨as, stop, hreads, hstuck⟩ := ih hmore
        exact ⟨a :: as, stop, .cons ha hreads, hstuck⟩

section Chains

variable {arguments : List Char → Reply (List Selector)}
  (hread : ∀ cs args rest, arguments cs = .read args rest → Arguments cs args rest)
  (hstuck : ∀ cs failure, arguments cs = .stuck failure → Viable Arguments cs failure.rest)

include hread in
/-- A run can be completed if its last simple selector can. -/
theorem simples_viable {cs mid stop : List Char} {parts : List Selector} (hreads : Reads (simple arguments) cs parts mid)
    (h : Viable Simple mid stop) : Viable Simples cs stop := by
  induction hreads with
  | nil => exact h.imp fun _ s _ hs => ⟨[s], .one hs⟩
  | cons hfirst _ ih =>
    refine (ih h).after (simple_sound hread hfirst).replaceable ?_
    exact fun _ _ _ _ hs hparts => ⟨_, .more hs hparts⟩

include hread hstuck

/-- A compound can be completed wherever it stops. -/
theorem compound_viable {cs : List Char} {failure : Stuck} (h : Reader.compound arguments cs = .stuck failure) :
    Viable Compound cs failure.rest := by
  unfold Reader.compound at h
  split at h
  · cases h
  · rename_i hfirst
    cases h
    exact (simple_viable hstuck hfirst).imp fun _ s _ hs => ⟨s, .single hs⟩
  · rename_i first rest hfirst
    split at h
    · rename_i hmore
      cases h
      obtain ⟨parts, mid, hreads, hstop⟩ := reads_of_many_error hmore
      refine (simples_viable hread hreads (simple_viable hstuck hstop)).after (simple_sound hread hfirst).replaceable ?_
      exact fun _ _ _ _ hs hparts => ⟨_, .several hs hparts⟩
    · cases h

/-- A joiner without a compound after it, or with one that stops, can be completed. -/
theorem link_viable {cs : List Char} {failure : Stuck} (h : link arguments cs = .stuck failure) (left : Selector) :
    Viable (Links · left · ·) cs failure.rest := by
  unfold link at h
  split at h
  · cases h
  · rename_i j mid hj
    have hj := joiner_of_joiner? hj
    split at h
    · cases h
    · cases h
      obtain ⟨front, hfront, hcs, hkept⟩ := hj.replace
      refine ⟨front, ['x'], hfront, hcs, by decide, fun closing hclosing => ?_⟩
      exact ⟨_, .more (hkept _) (compound_letter hclosing) .none⟩
    · rename_i hright
      cases h
      refine (compound_viable hread hstuck hright).after (Replaceable.of_joiner hj) ?_
      exact fun _ _ _ _ hj hright => ⟨_, .more hj hright .none⟩

/-- A chain can be completed where reading its next link stops. -/
theorem links_viable {cs mid : List Char} {failure : Stuck} {links : List (Combinator × Selector)}
    (hreads : Reads (link arguments) cs links mid) (h : link arguments mid = .stuck failure) (left : Selector) :
    Viable (Links · left · ·) cs failure.rest := by
  induction hreads generalizing left with
  | nil => exact link_viable hread hstuck h left
  | @cons _ _ _ joined _ hlink _ ih =>
    obtain ⟨start, hj, hright⟩ := link_sound hread hlink
    refine (ih h (.complex left joined.1 joined.2)).after ((Replaceable.of_joiner hj).comp hright.replaceable) ?_
    rintro _ _ _ _ ⟨_, hj, hright⟩ hlinks
    exact ⟨_, .more hj hright hlinks⟩

/-- A chain can be completed wherever it stops. -/
theorem complex_viable {cs : List Char} {failure : Stuck} (h : Reader.complex arguments cs = .stuck failure) :
    Viable Complex cs failure.rest := by
  unfold Reader.complex at h
  split at h
  · cases h
  · rename_i hfirst
    cases h
    exact (compound_viable hread hstuck hfirst).imp fun _ s _ hs => ⟨s, .chain hs .none⟩
  · rename_i first rest hfirst
    split at h
    · rename_i hlinks
      cases h
      obtain ⟨links, mid, hreads, hstop⟩ := reads_of_many_error hlinks
      refine (links_viable hread hstuck hreads hstop first).after (compound_sound hread hfirst).replaceable ?_
      exact fun _ _ _ _ hfirst hlinks => ⟨_, .chain hfirst hlinks⟩
    · cases h

end Chains

section Lists

variable {selector : List Char → Reply Selector}
  (hread : ∀ cs s rest, selector cs = .read s rest → Complex cs s rest)
  (hstuck : ∀ cs failure, selector cs = .stuck failure → Viable Complex cs failure.rest)

include hstuck in
/-- A list of arguments can be completed where reading the next one stops. -/
theorem alternative_viable {cs : List Char} {failure : Stuck} (h : alternative selector cs = .stuck failure) :
    Viable More cs failure.rest := by
  unfold alternative at h
  split at h
  · rename_i mid hcomma
    have hcomma := Replaceable.of_blanks_char (hcomma ▸ blanks_spaces cs)
    refine (hstuck _ _ h).after (hcomma.comp (Replaceable.of_blanks (blanks_spaces mid))) ?_
    rintro _ _ _ _ ⟨_, hcomma, hblanks⟩ hs
    exact ⟨_, .more hcomma hblanks hs .none⟩
  · cases h

include hread hstuck in
/-- A list of arguments can be completed after any number of them that have been read. -/
theorem more_viable {cs mid : List Char} {failure : Stuck} {args : List Selector}
    (hreads : Reads (alternative selector) cs args mid) (h : alternative selector mid = .stuck failure) :
    Viable More cs failure.rest := by
  induction hreads with
  | nil => exact alternative_viable hstuck h
  | cons hs _ ih =>
    obtain ⟨cs₁, cs₂, hcomma, hblanks, hs⟩ := alternative_sound hread hs
    have hcomma := (Replaceable.of_blanks_char hcomma).comp (Replaceable.of_blanks hblanks)
    refine (ih h).after (hcomma.comp hs.replaceable) ?_
    rintro _ _ _ _ ⟨_, ⟨_, hcomma, hblanks⟩, hs⟩ hargs
    exact ⟨_, .more hcomma hblanks hs hargs⟩

/-- Reading stops in front of what stands in the place of the parenthesis. -/
theorem closeList_stuck {args : List Selector} {cs : List Char} {failure : Stuck}
    (h : closeList args cs = .stuck failure) : failure.rest = spaces cs := by
  unfold closeList at h
  split at h
  · cases h
  · cases h
    rfl

/-- After its last selector the closing parenthesis completes a list. -/
theorem viable_unclosed {cs cs₁ cs₂ rest : List Char} {first : Selector} {more : List Selector} (hblanks : Blanks cs cs₁)
    (hfirst : Complex cs₁ first cs₂) (hmore : More cs₂ more rest) : Viable Arguments ('(' :: cs) (spaces rest) := by
  obtain ⟨blanks, hspace, hrest⟩ := blanks_spaces rest
  obtain ⟨front, rfl, hkept⟩ := (Replaceable.of_blanks hblanks).comp (hfirst.replaceable.comp hmore.replaceable)
  refine ⟨'(' :: (front ++ blanks), [')'], List.cons_ne_nil _ _, by simp [← hrest], by decide, fun closing hclosing => ?_⟩
  have hreplaces : Replaces rest (blanks ++ ')' :: closing) := by
    have hclose : Quoteless (')' :: closing) := hclosing.quoteless (by decide : Quoteless [')'])
    rw [hrest]
    exact hclose.replaces (Or.inr (apart_cons rfl)) _
  obtain ⟨_, hblanks, _, hfirst, hmore⟩ := hkept _ hreplaces
  rw [List.cons_append, List.append_assoc]
  exact ⟨_, .list hblanks hfirst hmore ⟨blanks, hspace, rfl⟩⟩

include hread hstuck in
/-- A list of selectors can be completed wherever it stops. -/
theorem argumentList_viable {cs : List Char} {failure : Stuck} (h : argumentList selector cs = .stuck failure) :
    Viable Arguments cs failure.rest := by
  unfold argumentList at h
  split at h
  · rename_i cs
    have hopen : Replaceable (fun cs mid => ∃ cs', cs = '(' :: cs' ∧ Blanks cs' mid) ('(' :: cs) (spaces cs) :=
      (Replaceable.of_blanks (blanks_spaces cs)).cons '(' fun _ _ hblanks => ⟨_, rfl, hblanks⟩
    split at h
    · cases h
      obtain ⟨blanks, hblanks, hcs⟩ := blanks_spaces cs
      refine ⟨'(' :: blanks, ['x', ')'], List.cons_ne_nil _ _, congrArg _ hcs, by decide, fun closing hclosing => ?_⟩
      exact ⟨_, .list ⟨blanks, hblanks, rfl⟩ (complex_letter hclosing.cons) .none (.refl _)⟩
    · rename_i hfirst
      cases h
      have hclosed : Viable (fun cs s rest => Complex cs s (')' :: rest)) (spaces cs) failure.rest :=
        (hstuck _ _ hfirst).close fun _ s _ hs => ⟨s, hs⟩
      refine hclosed.after hopen ?_
      rintro _ _ _ _ ⟨_, rfl, hblanks⟩ hs
      exact ⟨_, .list hblanks hs .none (.refl _)⟩
    · rename_i first rest hfirst
      have hfirst := hread _ _ _ hfirst
      split at h
      · rename_i hmore
        cases h
        obtain ⟨args, mid, hreads, hstop⟩ := reads_of_many_error hmore
        have hclosed : Viable (fun cs args rest => More cs args (')' :: rest)) rest failure.rest :=
          (more_viable hread hstuck hreads hstop).close fun _ args _ hargs => ⟨args, hargs⟩
        refine hclosed.after (hopen.comp hfirst.replaceable) ?_
        rintro _ _ _ _ ⟨_, ⟨_, rfl, hblanks⟩, hfirst⟩ hargs
        exact ⟨_, .list hblanks hfirst hargs (.refl _)⟩
      · rename_i hmore
        rw [closeList_stuck h]
        exact viable_unclosed (blanks_spaces cs) hfirst (more_of_reads hread (reads_of_many hmore))
  · cases h

end Lists

/-- A chain can be completed wherever it stops, with arguments nested to any depth. -/
theorem complexAt_viable {depth : Nat} {cs : List Char} {failure : Stuck} (h : complexAt depth cs = .stuck failure) :
    Viable Complex cs failure.rest := by
  induction depth generalizing cs failure with
  | zero => cases h
  | succ depth ih =>
    rw [complexAt] at h
    refine complex_viable argumentListAt_sound (fun cs failure hargs => ?_) h
    exact argumentList_viable (fun _ _ _ hs => complexAt_sound hs) (fun _ _ hs => ih hs) hargs

/-- Where reading a whole text stops, the text in front of it can be completed. -/
theorem derives_of_read_error {body : List Char} {stuck : Stuck} (h : read body = .error stuck) :
    ∃ before more s, body = before ++ stuck.rest ∧ Derives (before ++ more) s := by
  obtain ⟨blanks, hblanks, hbody⟩ := blanks_spaces body
  have hclosing : Closing [] := nofun
  unfold read at h
  split at h
  · cases h
    exact ⟨blanks, ['x'], _, hbody, _, _, ⟨blanks, hblanks, rfl⟩, complex_letter hclosing, .refl _⟩
  · rename_i hstuck
    cases h
    obtain ⟨front, more, -, hcs, -, hcomplete⟩ := complexAt_viable hstuck
    obtain ⟨s, hs⟩ := hcomplete [] hclosing
    rw [List.append_nil] at hs
    refine ⟨blanks ++ front, more, s, ?_, _, _, ⟨blanks, hblanks, List.append_assoc _ _ _⟩, hs, .refl _⟩
    rw [List.append_assoc, ← hcs]
    exact hbody
  · rename_i s rest hread
    split at h
    · cases h
    · cases h
      -- nothing is missing here: what could not be read is left over after a whole selector
      obtain ⟨blanks', hblanks', hrest⟩ := blanks_spaces rest
      obtain ⟨front, hcs, hkept⟩ := (complexAt_sound hread).replaceable
      have hempty : Replaces rest (blanks' ++ []) := by
        have hnone : Quoteless [] := by decide
        nth_rewrite 1 [hrest]
        exact hnone.replaces (Or.inr nofun) _
      refine ⟨blanks ++ (front ++ blanks'), [], s, ?_, front ++ blanks', blanks', ⟨blanks, hblanks, by simp⟩, ?_,
        ⟨blanks', hblanks', by simp⟩⟩
      · rw [List.append_assoc, List.append_assoc, ← hrest, ← hcs]
        exact hbody
      · simpa using hkept _ hempty

end Grammar

/-- A text that is no selector is reported at a place where nothing is wrong yet. The byte offset of the report is within the
text and between two of its characters, and the text in front of it goes on to one that can be read. -/
theorem read_stuck_viable {body : List Char} {stuck : Stuck} (h : read body = .error stuck) :
    (∀ raw, (Pattern.bodyOf raw).1 = body → Pattern.parse raw = .error ⟨raw, body, stuck⟩) ∧
    stuck.offset body ≤ byteLength body ∧
    cutBytes? (stuck.offset body) body = some (stuck.before body, stuck.rest) ∧
    ∃ more s, read (stuck.before body ++ more) = .ok s := by
  obtain ⟨before, more, s, hbody, hs⟩ := Grammar.derives_of_read_error h
  have hoffset : stuck.offset body = byteLength before := by
    rw [Stuck.offset, hbody, byteLength_append, Nat.add_sub_cancel]
  have hbefore : stuck.before body = before := by
    rw [Stuck.before, hbody, List.length_append, Nat.add_sub_cancel, List.take_left']
    rfl
  refine ⟨fun raw hraw => ?_, Nat.sub_le _ _, ?_, more, s, ?_⟩
  · rw [Pattern.parse, hraw, h]
  · rw [hoffset, hbefore, hbody]
    exact cutBytes?_append before stuck.rest
  · rw [hbefore]
    exact Grammar.read_of_derives hs

/-- The quote is part of the value since it does not occur again, the comma that no selector follows is not taken, and the
value has a character of two bytes. -/
theorem read_stuck_viable_comma :
    read "a :is(b > [y=\"é], c ,)".toList = .error ⟨[',', ')'], [.selectorList, .compound]⟩ ∧
    cutBytes? 21 "a :is(b > [y=\"é], c ,)".toList = some ("a :is(b > [y=\"é], c ".toList, [',', ')']) ∧
    ∃ more s, read ("a :is(b > [y=\"é], c ".toList ++ more) = .ok s := by
  have h : read "a :is(b > [y=\"é], c ,)".toList = .error ⟨[',', ')'], [.selectorList, .compound]⟩ := by cbv
  obtain ⟨-, -, hcut, hmore⟩ := read_stuck_viable h
  have hoffset : Stuck.offset ⟨[',', ')'], [.selectorList, .compound]⟩ "a :is(b > [y=\"é], c ,)".toList = 21 := by cbv
  have hbefore : Stuck.before ⟨[',', ')'], [.selectorList, .compound]⟩ "a :is(b > [y=\"é], c ,)".toList =
      "a :is(b > [y=\"é], c ".toList := by cbv
  rw [hoffset, hbefore] at hcut
  rw [hbefore] at hmore
  exact ⟨h, hcut, hmore⟩

end Selector

end RuleWalk
