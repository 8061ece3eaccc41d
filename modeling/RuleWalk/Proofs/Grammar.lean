import RuleWalk.Proofs.Tokens

/-!
# The grammar of selectors

A grammar says of a text which selector can be read at its start and what is left of it. Reading a whole text gives a selector
exactly if the grammar derives it. The reader looks no further than it has to and never takes back a choice once something has
started; nothing is lost by that, since every construct is told by its first character, a run of simple selectors goes on as
long as it can, and a chain ends where only a comma, a closing parenthesis or the end of the text can follow.
-/

namespace RuleWalk.Selector

open Text Reader

namespace Grammar

/-- A name stands for a pseudo-class that takes arguments, whatever the case of its letters. -/
def Nests (name : List Char) (kind : PseudoClass) : Prop :=
  kind ∈ [PseudoClass.is, .whereAny, .not, .has] ∧ sameName (String.ofList name) kind.name

mutual

/-- A simple selector at the start of a text, and the text after it. -/
inductive Simple : List Char → Selector → List Char → Prop
  | any {rest : List Char} : Simple ('*' :: rest) .any rest
  | type {cs name rest : List Char} : Longest IsName cs name rest → Simple cs (.type (String.ofList name)) rest
  | present {cs cs₁ path cs₂ rest : List Char} :
      Blanks cs cs₁ → Longest IsPath cs₁ path cs₂ → Blanks cs₂ (']' :: rest) →
      Simple ('[' :: cs) (.attribute (String.ofList path) none) rest
  | tested {cs cs₁ path cs₂ cs₃ cs₄ cs₅ value cs₆ rest : List Char} {op : AttrOp} :
      Blanks cs cs₁ → Longest IsPath cs₁ path cs₂ → Blanks cs₂ cs₃ → Operator cs₃ op cs₄ → Blanks cs₄ cs₅ →
      Value cs₅ value cs₆ → Blanks cs₆ (']' :: rest) →
      Simple ('[' :: cs) (.attribute (String.ofList path) (some (op, String.ofList value))) rest
  | pseudo {cs name rest : List Char} : Longest IsName cs name rest → (∀ kind, ¬Nests name kind) →
      Simple (':' :: cs) (.pseudo (.other (String.ofList name)) []) rest
  | nested {cs name mid rest : List Char} {kind : PseudoClass} {args : List Selector} :
      Longest IsName cs name mid → Nests name kind → Arguments mid args rest → Simple (':' :: cs) (.pseudo kind args) rest

/-- Some simple selectors, one after the other. -/
inductive Simples : List Char → List Selector → List Char → Prop
  | one {cs rest : List Char} {s : Selector} : Simple cs s rest → Simples cs [s] rest
  | more {cs mid rest : List Char} {s : Selector} {parts : List Selector} :
      Simple cs s mid → Simples mid parts rest → Simples cs (s :: parts) rest

/-- A compound: a single simple selector stays as it is. -/
inductive Compound : List Char → Selector → List Char → Prop
  | single {cs rest : List Char} {s : Selector} : Simple cs s rest → Compound cs s rest
  | several {cs mid rest : List Char} {s : Selector} {parts : List Selector} :
      Simple cs s mid → Simples mid parts rest → Compound cs (.compound (s :: parts)) rest

/-- Any number of compounds, each after a joiner, folded to the left onto what is before them. -/
inductive Links : List Char → Selector → Selector → List Char → Prop
  | none {cs : List Char} {left : Selector} : Links cs left left cs
  | more {cs cs₁ cs₂ rest : List Char} {left right s : Selector} {j : Combinator} :
      Joiner cs j cs₁ → Compound cs₁ right cs₂ → Links cs₂ (.complex left j right) s rest → Links cs left s rest

/-- Compounds joined by combinators. -/
inductive Complex : List Char → Selector → List Char → Prop
  | chain {cs mid rest : List Char} {first s : Selector} : Compound cs first mid → Links mid first s rest → Complex cs s rest

/-- Any number of selectors, each after a comma. -/
inductive More : List Char → List Selector → List Char → Prop
  | none {cs : List Char} : More cs [] cs
  | more {cs cs₁ cs₂ cs₃ rest : List Char} {s : Selector} {args : List Selector} :
      Blanks cs (',' :: cs₁) → Blanks cs₁ cs₂ → Complex cs₂ s cs₃ → More cs₃ args rest → More cs (s :: args) rest

/-- The arguments of a pseudo-class. -/
inductive Arguments : List Char → List Selector → List Char → Prop
  | list {cs cs₁ cs₂ cs₃ rest : List Char} {first : Selector} {more : List Selector} :
      Blanks cs cs₁ → Complex cs₁ first cs₂ → More cs₂ more cs₃ → Blanks cs₃ (')' :: rest) →
      Arguments ('(' :: cs) (first :: more) rest

end

/-- A whole text is a selector with blanks around it. -/
def Derives (text : List Char) (s : Selector) : Prop :=
  ∃ cs rest, Blanks text cs ∧ Complex cs s rest ∧ Blanks rest []

/-! ## Lengths -/

theorem Longest.length_le {IsToken : List Char → Prop} {cs token rest : List Char} (h : Longest IsToken cs token rest) :
    rest.length ≤ cs.length := by
  rw [h.split]
  simp

/-- A name takes at least one character. -/
theorem length_lt_of_name {cs name rest : List Char} (h : Longest IsName cs name rest) : rest.length < cs.length := by
  obtain ⟨rfl, hname, -⟩ := h
  cases name with
  | nil => exact absurd hname id
  | cons c tail => simp only [List.length_append, List.length_cons]; omega

mutual

/-- Every construct takes something from the text. -/
theorem Simple.length_lt {cs rest : List Char} {s : Selector} : Simple cs s rest → rest.length < cs.length
  | .any => Nat.lt_succ_self _
  | .type hname => length_lt_of_name hname
  | .present h₁ hpath h₂ => by
    have hlength := h₂.length_le.trans (hpath.length_le.trans h₁.length_le)
    simp only [List.length_cons] at hlength ⊢
    omega
  | .tested h₁ hpath h₂ hop h₃ hvalue h₄ => by
    have htest := h₂.length_le.trans (hpath.length_le.trans h₁.length_le)
    have hlength := h₄.length_le.trans (hvalue.length_le.trans (h₃.length_le.trans (hop.2.length_le.trans htest)))
    simp only [List.length_cons] at hlength ⊢
    omega
  | .pseudo hname _ => Nat.lt_succ_of_lt (length_lt_of_name hname)
  | .nested hname _ hargs => Nat.lt_succ_of_lt (hargs.length_lt.trans (length_lt_of_name hname))

theorem Simples.length_lt {cs rest : List Char} {parts : List Selector} : Simples cs parts rest → rest.length < cs.length
  | .one hs => hs.length_lt
  | .more hs hparts => hparts.length_lt.trans hs.length_lt

theorem Compound.length_lt {cs rest : List Char} {s : Selector} : Compound cs s rest → rest.length < cs.length
  | .single hs => hs.length_lt
  | .several hs hparts => hparts.length_lt.trans hs.length_lt

/-- A chain may go on with no link at all, so here nothing need be taken. -/
theorem Links.length_le {cs rest : List Char} {left s : Selector} : Links cs left s rest → rest.length ≤ cs.length
  | .none => Nat.le_refl _
  | .more hj hright hlinks => hlinks.length_le.trans (hright.length_lt.trans hj.length_lt).le

theorem Complex.length_lt {cs rest : List Char} {s : Selector} : Complex cs s rest → rest.length < cs.length
  | .chain hfirst hlinks => Nat.lt_of_le_of_lt hlinks.length_le hfirst.length_lt

/-- A list of arguments may end after the first, so here nothing need be taken either. -/
theorem More.length_le {cs rest : List Char} {args : List Selector} : More cs args rest → rest.length ≤ cs.length
  | .none => Nat.le_refl _
  | .more h₁ h₂ hs hargs =>
    hargs.length_le.trans (hs.length_lt.le.trans (h₂.length_le.trans ((Nat.le_succ _).trans h₁.length_le)))

theorem Arguments.length_lt {cs rest : List Char} {args : List Selector} : Arguments cs args rest → rest.length < cs.length
  | .list h₁ hfirst hmore h₂ =>
    Nat.lt_of_le_of_lt ((Nat.le_succ _).trans h₂.length_le)
      (Nat.lt_succ_of_lt (Nat.lt_of_lt_of_le (Nat.lt_of_le_of_lt hmore.length_le hfirst.length_lt) h₁.length_le))

end

/-! ## Induction -/

/-- Induction along simple selectors, from the last one back. -/
@[elab_as_elim]
theorem Simples.induction {rest : List Char}
    {motive : (cs : List Char) → (parts : List Selector) → Simples cs parts rest → Prop}
    (one : ∀ {cs s} (hs : Simple cs s rest), motive cs [s] (.one hs))
    (more : ∀ {cs mid s parts} (hs : Simple cs s mid) (hparts : Simples mid parts rest),
      motive mid parts hparts → motive cs (s :: parts) (.more hs hparts))
    {cs : List Char} {parts : List Selector} : (h : Simples cs parts rest) → motive cs parts h
  | .one hs => one hs
  | .more hs hparts => more hs hparts (hparts.induction one more)

/-- Induction along the links of a chain, from its end back. -/
@[elab_as_elim]
theorem Links.induction {rest : List Char} {s : Selector}
    {motive : (cs : List Char) → (left : Selector) → Links cs left s rest → Prop} (none : motive rest s .none)
    (more : ∀ {cs cs₁ cs₂ left right j} (hj : Joiner cs j cs₁) (hright : Compound cs₁ right cs₂)
      (hlinks : Links cs₂ (.complex left j right) s rest),
      motive cs₂ (.complex left j right) hlinks → motive cs left (.more hj hright hlinks)) :
    ∀ {cs : List Char} {left : Selector} (h : Links cs left s rest), motive cs left h
  | _, _, .none => none
  | _, _, .more hj hright hlinks => more hj hright hlinks (hlinks.induction none more)

/-! ## Where constructs start -/

theorem startsCompound_of_isNameStart {c : Char} (h : isNameStart c) : startsCompound c := by
  simp [startsCompound, h]

/-- A simple selector is told by its first character. -/
theorem Simple.head {cs rest : List Char} {s : Selector} (h : Simple cs s rest) : cs.head?.any startsCompound := by
  cases h with
  | type hname =>
    obtain ⟨rfl, hname, -⟩ := hname
    rename_i name
    cases name with
    | nil => exact absurd hname id
    | cons c tail => simpa using startsCompound_of_isNameStart hname.1
  | _ => rfl

theorem Compound.head {cs rest : List Char} {s : Selector} (h : Compound cs s rest) : cs.head?.any startsCompound := by
  cases h with
  | single hs => exact hs.head
  | several hs _ => exact hs.head

theorem Complex.head {cs rest : List Char} {s : Selector} (h : Complex cs s rest) : cs.head?.any startsCompound := by
  cases h with
  | chain hfirst _ => exact hfirst.head

/-- Where a compound starts there are no blanks to skip. -/
theorem spaces_of_startsCompound {cs : List Char} (h : cs.head?.any startsCompound) : spaces cs = cs := by
  cases cs with
  | nil => rfl
  | cons c cs => exact spaces_cons (isSpace_of_startsCompound (by simpa using h))

/-- What can follow a chain: blanks, and then a comma, a closing parenthesis or nothing. -/
def Stops (cs : List Char) : Prop :=
  ∀ c ∈ (spaces cs).head?, c = ',' ∨ c = ')'

/-- No compound starts where a chain can end. -/
theorem Stops.head {cs : List Char} (h : Stops cs) : cs.head?.any startsCompound = false := by
  cases cs with
  | nil => rfl
  | cons c cs =>
    by_cases hc : isSpace c
    · simpa using startsCompound_of_isSpace hc
    · unfold Stops at h
      rw [spaces_cons (by simpa using hc)] at h
      rcases h c rfl with rfl | rfl <;> rfl

/-- A chain can end in front of a comma or a closing parenthesis, with blanks before it. -/
theorem stops_of_blanks {cs rest : List Char} {c : Char} (h : Blanks cs (c :: rest)) (hc : c = ',' ∨ c = ')') : Stops cs := by
  intro c' hc'
  have hspace : isSpace c = false := by rcases hc with rfl | rfl <;> rfl
  rw [h.spaces_eq_cons hspace] at hc'
  cases hc'
  exact hc

/-- A chain in a list of arguments ends where it can: the next argument begins with a comma, and else the list is closed. -/
theorem More.stops {cs cs' rest : List Char} {args : List Selector} (h : More cs args cs')
    (hclose : Blanks cs' (')' :: rest)) : Stops cs := by
  cases h with
  | none => exact stops_of_blanks hclose (Or.inr rfl)
  | more hcomma => exact stops_of_blanks hcomma (Or.inl rfl)

/-- After a compound of a chain no other compound starts at once, so a run of simple selectors ends there. -/
theorem Links.head {cs rest : List Char} {left s : Selector} (h : Links cs left s rest) (hstops : Stops rest) :
    cs.head?.any startsCompound = false := by
  cases h with
  | none => exact hstops.head
  | more hj => exact hj.head

/-! ## Simple selectors -/

/-- Names are the same up to the case of ASCII letters. -/
theorem sameName_iff {name : List Char} {text : String} :
    sameName (String.ofList name) text ↔ name.map Char.toLower = text.toList.map Char.toLower := by
  rw [sameName, beq_iff_eq, lower, lower, String.ofList_inj, String.toList_ofList]

/-- A name that stands for a pseudo-class with arguments is read as this pseudo-class. -/
theorem pseudoClass_of_nests {name : List Char} {kind : PseudoClass} (h : Nests name kind) : pseudoClass name = kind := by
  obtain ⟨hkind, hname⟩ := h
  rw [sameName_iff] at hname
  simp only [List.mem_cons, List.not_mem_nil, or_false] at hkind
  rcases hkind with rfl | rfl | rfl | rfl <;> rw [pseudoClass, hname] <;> rfl

/-- Every name stands for a pseudo-class with arguments or for itself. -/
theorem nests_or_other (name : List Char) :
    Nests name (pseudoClass name) ∨ pseudoClass name = .other (String.ofList name) := by
  unfold pseudoClass Nests
  dsimp only
  split_ifs with his hwhere hnot hhas
  · exact Or.inl ⟨by decide, sameName_iff.2 his⟩
  · exact Or.inl ⟨by decide, sameName_iff.2 hwhere⟩
  · exact Or.inl ⟨by decide, sameName_iff.2 hnot⟩
  · exact Or.inl ⟨by decide, sameName_iff.2 hhas⟩
  · exact Or.inr rfl

theorem not_nests_other {name : List Char} {other : String} : ¬Nests name (.other other) := by
  rintro ⟨hkind, -⟩
  simp at hkind

/-- An attribute test is closed by a bracket, with any blanks before it. -/
theorem attributeEnd_iff {path : List Char} {test : Option (AttrOp × String)} {cs rest : List Char} {s : Selector} :
    attributeEnd path test cs = .read s rest ↔
      s = .attribute (String.ofList path) test ∧ Blanks cs (']' :: rest) := by
  constructor
  · intro h
    unfold attributeEnd at h
    split at h
    · rename_i hspaces
      cases h
      exact ⟨rfl, hspaces ▸ blanks_spaces cs⟩
    · cases h
  · rintro ⟨rfl, hblanks⟩
    rw [attributeEnd, hblanks.spaces_eq_cons rfl]
    rfl

/-- What is read after an opening bracket is an attribute test of the grammar. -/
theorem attributeBody_sound {cs rest : List Char} {s : Selector} (h : attributeBody cs = .read s rest) :
    Simple ('[' :: cs) s rest := by
  unfold attributeBody at h
  split at h
  · cases h
  · rename_i path cs₁ hpath
    have hpath := path?_iff.1 hpath
    split at h
    · obtain ⟨rfl, hclose⟩ := attributeEnd_iff.1 h
      exact .present (blanks_spaces cs) hpath hclose
    · rename_i op cs₂ hop
      have hop := operator?_iff.1 hop
      split at h
      · cases h
      · rename_i value cs₃ hvalue
        obtain ⟨rfl, hclose⟩ := attributeEnd_iff.1 h
        exact .tested (blanks_spaces cs) hpath (blanks_spaces cs₁) hop (blanks_spaces cs₂) (value_of_value? hvalue) hclose

/-- A path starts with no blank. -/
theorem spaces_of_path {cs path rest : List Char} (h : Longest IsPath cs path rest) : spaces cs = cs := by
  obtain ⟨rfl, hpath, -⟩ := h
  cases path with
  | nil => exact absurd hpath not_isPath_nil
  | cons c tail =>
    have hc := startsCompound_of_isNameStart (isPath_cons_iff.1 hpath).1
    exact spaces_cons (isSpace_of_startsCompound hc)

/-- An operator starts with no blank. -/
theorem spaces_of_operator {cs rest : List Char} {op : AttrOp} (h : Operator cs op rest) : spaces cs = cs := by
  obtain ⟨-, hsplit, hsymbol, -⟩ := h
  rcases isOperator_iff.1 hsymbol with ⟨c, hc, heq⟩ | ⟨c, hc, heq⟩
  · simp only [List.mem_cons, List.not_mem_nil, or_false] at hc
    rw [hsplit, heq]
    exact spaces_cons (by rcases hc with rfl | rfl | rfl <;> rfl)
  · simp only [List.mem_cons, List.not_mem_nil, or_false] at hc
    rw [hsplit, heq]
    exact spaces_cons (by rcases hc with rfl | rfl | rfl | rfl | rfl | rfl | rfl | rfl <;> rfl)

/-- A value starts with no blank, whether it is quoted or bare. -/
theorem spaces_of_value {cs text rest : List Char} (h : Value cs text rest) : spaces cs = cs := by
  cases h with
  | quoted hq _ => exact spaces_cons (by rcases hq with rfl | rfl <;> rfl)
  | bare _ hne htext =>
    cases text with
    | nil => exact absurd rfl hne
    | cons c text => exact spaces_cons (htext c List.mem_cons_self).2

/-- An attribute that is only asked for is read. -/
theorem attributeBody_present {cs cs₁ path cs₂ rest : List Char} (h₁ : Blanks cs cs₁) (hpath : Longest IsPath cs₁ path cs₂)
    (hclose : Blanks cs₂ (']' :: rest)) : attributeBody cs = .read (.attribute (String.ofList path) none) rest := by
  rw [attributeBody, h₁.spaces_eq, spaces_of_path hpath, path?_iff.2 hpath]
  dsimp only
  rw [hclose.spaces_eq_cons rfl]
  exact attributeEnd_iff.2 ⟨rfl, hclose⟩

/-- An attribute with a test is read: a closing bracket or a blank follows the value, so a bare value ends where it should. -/
theorem attributeBody_tested {cs cs₁ path cs₂ cs₃ cs₄ cs₅ value cs₆ rest : List Char} {op : AttrOp} (h₁ : Blanks cs cs₁)
    (hpath : Longest IsPath cs₁ path cs₂) (h₂ : Blanks cs₂ cs₃) (hop : Operator cs₃ op cs₄) (h₃ : Blanks cs₄ cs₅)
    (hvalue : Value cs₅ value cs₆) (hclose : Blanks cs₆ (']' :: rest)) :
    attributeBody cs = .read (.attribute (String.ofList path) (some (op, String.ofList value))) rest := by
  have hends : ∀ c ∈ cs₆.head?, isBare c = false := by
    obtain ⟨blanks, hblanks, rfl⟩ := hclose
    cases blanks with
    | nil => simp [isBare]
    | cons b blanks => simp [isBare, hblanks b List.mem_cons_self]
  rw [attributeBody, h₁.spaces_eq, spaces_of_path hpath, path?_iff.2 hpath]
  dsimp only
  rw [h₂.spaces_eq, spaces_of_operator hop, operator?_iff.2 hop]
  dsimp only
  rw [h₃.spaces_eq, spaces_of_value hvalue, value?_of_value hvalue hends]
  exact attributeEnd_iff.2 ⟨rfl, hclose⟩

section Arguments

variable {arguments : List Char → Reply (List Selector)}

theorem pseudoBody_other {cs name rest : List Char} (hname : Longest IsName cs name rest)
    (hother : ∀ kind, ¬Nests name kind) :
    pseudoBody arguments cs = .read (.pseudo (.other (String.ofList name)) []) rest := by
  rw [pseudoBody, name?_iff.2 hname]
  dsimp only
  rw [(nests_or_other name).resolve_left (hother _)]

/-- A pseudo-class is read with its arguments if these are read. -/
theorem pseudoBody_nested {cs name mid rest : List Char} {kind : PseudoClass} {args : List Selector}
    (hname : Longest IsName cs name mid) (hkind : Nests name kind) (hargs : arguments mid = .read args rest) :
    pseudoBody arguments cs = .read (.pseudo kind args) rest := by
  rw [pseudoBody, name?_iff.2 hname]
  dsimp only
  rw [pseudoClass_of_nests hkind, hargs]
  cases kind with
  | other name => exact absurd hkind not_nests_other
  | _ => rfl

variable (h : ∀ cs args rest, arguments cs = .read args rest → Arguments cs args rest)

include h

/-- What is read after a colon is a pseudo-class of the grammar, if lists of arguments are. -/
theorem pseudoBody_sound {cs rest : List Char} {s : Selector} (hread : pseudoBody arguments cs = .read s rest) :
    Simple (':' :: cs) s rest := by
  unfold pseudoBody at hread
  split at hread
  · cases hread
  · rename_i name mid hname
    have hname := name?_iff.1 hname
    split at hread
    · rename_i other hother
      cases hread
      have hnot : ∀ kind, ¬Nests name kind := by
        intro kind hkind
        rw [pseudoClass_of_nests hkind] at hother
        subst hother
        exact not_nests_other hkind
      cases hother.symm.trans ((nests_or_other name).resolve_left (hnot _))
      exact .pseudo hname hnot
    · rename_i hother
      have hkind := (nests_or_other name).resolve_right (hother _)
      split at hread
      · rename_i args rest' hargs
        cases hread
        exact .nested hname hkind (h _ _ _ hargs)
      · cases hread
      · cases hread

/-- Every simple selector that is read is one of the grammar. -/
theorem simple_sound {cs rest : List Char} {s : Selector} (hread : simple arguments cs = .read s rest) :
    Simple cs s rest := by
  unfold simple at hread
  split at hread
  · exact attributeBody_sound hread
  · exact pseudoBody_sound h hread
  · cases hread
    exact .any
  · split at hread
    · rename_i name rest' hname
      cases hread
      exact .type (name?_iff.1 hname)
    · cases hread

end Arguments

theorem simple_type {cs name rest : List Char} {arguments : List Char → Reply (List Selector)}
    (hname : Longest IsName cs name rest) : simple arguments cs = .read (.type (String.ofList name)) rest := by
  unfold simple
  have hread := name?_iff.2 hname
  split
  · cases hread
  · cases hread
  · cases hread
  · rw [hread]

/-- Where no compound starts, no simple selector is found, and that is no error. -/
theorem simple_absent {cs : List Char} {arguments : List Char → Reply (List Selector)}
    (h : cs.head?.any startsCompound = false) : simple arguments cs = .absent := by
  unfold simple
  split
  · cases h
  · cases h
  · cases h
  · cases cs with
    | nil => rfl
    | cons c cs =>
      have hc : isNameStart c = false := by
        by_contra hstart
        simp [startsCompound, hstart] at h
      simp [name?, hc]

/-! ## Runs of readings -/

/-- Items read one after the other. -/
inductive Reads {α : Type} (item : List Char → Reply α) : List Char → List α → List Char → Prop
  | nil {cs : List Char} : Reads item cs [] cs
  | cons {cs mid rest : List Char} {a : α} {as : List α} :
      item cs = .read a mid → Reads item mid as rest → Reads item cs (a :: as) rest

section Many

variable {α : Type} {item : List Char → Reply α}

/-- A run that is found was read item by item. -/
theorem reads_of_many {limit : Nat} {cs rest : List Char} {as : List α} (h : many item limit cs = .ok (as, rest)) :
    Reads item cs as rest := by
  induction limit generalizing cs as with
  | zero =>
    cases h
    exact .nil
  | succ limit ih =>
    rw [many] at h
    split at h
    · cases h
      exact .nil
    · cases h
    · rename_i a mid ha
      split at h
      · rename_i more rest' hmore
        cases h
        exact .cons ha (ih hmore)
      · cases h

/-- A run is found whole if every item takes something from the text and none follows. -/
theorem many_of_reads (hshort : ∀ cs a rest, item cs = .read a rest → rest.length < cs.length) {cs rest : List Char}
    {as : List α} (h : Reads item cs as rest) (habsent : item rest = .absent) {limit : Nat} (hlimit : cs.length ≤ limit) :
    many item limit cs = .ok (as, rest) := by
  induction h generalizing limit with
  | nil =>
    cases limit with
    | zero => rfl
    | succ limit => rw [many, habsent]
  | cons ha _ ih =>
    have hlt := hshort _ _ _ ha
    cases limit with
    | zero => omega
    | succ limit =>
      rw [many, ha]
      dsimp only
      rw [ih habsent (by omega)]

end Many

/-! ## What is read is derived -/

section Sound

variable {arguments : List Char → Reply (List Selector)}
  (h : ∀ cs args rest, arguments cs = .read args rest → Arguments cs args rest)

include h

/-- Simple selectors read one after the other make a run of the grammar. -/
theorem simples_of_reads {cs rest : List Char} {first : Selector} {parts : List Selector}
    (hreads : Reads (simple arguments) cs (first :: parts) rest) : Simples cs (first :: parts) rest := by
  induction parts generalizing cs first with
  | nil =>
    obtain ⟨⟩ | ⟨hfirst, ⟨⟩⟩ := hreads
    exact .one (simple_sound h hfirst)
  | cons second parts ih =>
    obtain ⟨⟩ | ⟨hfirst, hmore⟩ := hreads
    exact .more (simple_sound h hfirst) (ih hmore)

/-- Every compound that is read is one of the grammar. -/
theorem compound_sound {cs rest : List Char} {s : Selector} (hread : Reader.compound arguments cs = .read s rest) :
    Compound cs s rest := by
  unfold Reader.compound at hread
  split at hread
  · cases hread
  · cases hread
  · rename_i first mid hfirst
    have hfirst := simple_sound h hfirst
    split at hread
    · cases hread
    · rename_i more rest' hmore
      cases hread
      cases more with
      | nil =>
        cases reads_of_many hmore
        exact .single hfirst
      | cons second more => exact .several hfirst (simples_of_reads h (reads_of_many hmore))

/-- Every link that is read is a joiner and a compound. -/
theorem link_sound {cs rest : List Char} {j : Combinator} {right : Selector}
    (hread : link arguments cs = .read (j, right) rest) : ∃ mid, Joiner cs j mid ∧ Compound mid right rest := by
  unfold link at hread
  split at hread
  · cases hread
  · rename_i j' mid hjoiner
    split at hread
    · rename_i right' rest' hright
      cases hread
      exact ⟨mid, joiner_of_joiner? hjoiner, compound_sound h hright⟩
    · cases hread
    · cases hread

/-- Links read one after the other fold to the left as the grammar has it. -/
theorem links_of_reads {cs rest : List Char} {links : List (Combinator × Selector)}
    (hreads : Reads (link arguments) cs links rest) (left : Selector) : Links cs left (ofLinks left links) rest := by
  induction hreads generalizing left with
  | nil => exact .none
  | cons hlink _ ih =>
    obtain ⟨mid, hjoiner, hright⟩ := link_sound h hlink
    exact .more hjoiner hright (ih _)

/-- Every chain that is read is one of the grammar. -/
theorem complex_sound {cs rest : List Char} {s : Selector} (hread : Reader.complex arguments cs = .read s rest) :
    Complex cs s rest := by
  unfold Reader.complex at hread
  split at hread
  · cases hread
  · cases hread
  · rename_i first mid hfirst
    split at hread
    · cases hread
    · rename_i links rest' hlinks
      cases hread
      exact .chain (compound_sound h hfirst) (links_of_reads h (reads_of_many hlinks) first)

end Sound

section SoundList

variable {selector : List Char → Reply Selector} (h : ∀ cs s rest, selector cs = .read s rest → Complex cs s rest)

include h

/-- A further argument stands after a comma. -/
theorem alternative_sound {cs rest : List Char} {s : Selector} (hread : alternative selector cs = .read s rest) :
    ∃ cs₁ cs₂, Blanks cs (',' :: cs₁) ∧ Blanks cs₁ cs₂ ∧ Complex cs₂ s rest := by
  unfold alternative at hread
  split at hread
  · rename_i cs₁ hcomma
    exact ⟨cs₁, spaces cs₁, hcomma ▸ blanks_spaces cs, blanks_spaces cs₁, h _ _ _ hread⟩
  · cases hread

theorem more_of_reads {cs rest : List Char} {args : List Selector} (hreads : Reads (alternative selector) cs args rest) :
    More cs args rest := by
  induction hreads with
  | nil => exact .none
  | cons hs _ ih =>
    obtain ⟨cs₁, cs₂, hcomma, hblanks, hs⟩ := alternative_sound h hs
    exact .more hcomma hblanks hs ih

/-- Every list of arguments that is read is one of the grammar. -/
theorem argumentList_sound {cs rest : List Char} {args : List Selector}
    (hread : argumentList selector cs = .read args rest) : Arguments cs args rest := by
  unfold argumentList at hread
  split at hread
  · rename_i cs
    split at hread
    · cases hread
    · cases hread
    · rename_i first mid hfirst
      split at hread
      · cases hread
      · rename_i more rest' hmore
        unfold closeList at hread
        split at hread
        · rename_i hclose
          cases hread
          exact .list (blanks_spaces cs) (h _ _ _ hfirst) (more_of_reads h (reads_of_many hmore))
            (hclose ▸ blanks_spaces rest')
        · cases hread
  · cases hread

end SoundList

/-- Whatever is read is derived, at any depth. -/
theorem complexAt_sound {depth : Nat} {cs rest : List Char} {s : Selector} (h : complexAt depth cs = .read s rest) :
    Complex cs s rest := by
  induction depth generalizing cs rest s with
  | zero => cases h
  | succ depth ih =>
    rw [complexAt] at h
    exact complex_sound (fun cs args rest hargs => argumentList_sound (fun cs s rest hs => ih hs) hargs) h

theorem argumentListAt_sound {depth : Nat} (cs : List Char) (args : List Selector) (rest : List Char)
    (h : argumentList (complexAt depth) cs = .read args rest) : Arguments cs args rest :=
  argumentList_sound (fun _ _ _ hs => complexAt_sound hs) h

/-! ## What is derived is read -/

/-- Where a chain can end, no link is found. -/
theorem link_absent {cs : List Char} {arguments : List Char → Reply (List Selector)} (h : Stops cs) :
    link arguments cs = .absent := by
  have hhead : (spaces cs).head?.any startsCompound = false := by
    cases hcs : spaces cs with
    | nil => rfl
    | cons c rest =>
      rcases h c (by simp [hcs]) with rfl | rfl <;> rfl
  have hexplicit : explicit? (spaces cs) = none := by
    cases hread : explicit? (spaces cs) with
    | none => rfl
    | some pair =>
      obtain ⟨c, hc, hcs⟩ := explicit?_iff.1 hread
      have hnot : ∀ x ∈ symbols, ¬(x.1 = ',' ∨ x.1 = ')') := by decide
      exact absurd (h c (by simp [hcs])) (hnot _ hc)
  have hjoiner : joiner? cs = none := by
    rw [joiner?, hexplicit]
    simp [hhead]
  rw [link, hjoiner]

/-- A joiner and a compound after it make a link that is found. -/
theorem link_read {cs mid rest : List Char} {j : Combinator} {right : Selector}
    {arguments : List Char → Reply (List Selector)} (hjoiner : Joiner cs j mid) (hmid : mid.head?.any startsCompound)
    (hright : Reader.compound arguments mid = .read right rest) : link arguments cs = .read (j, right) rest := by
  rw [link, joiner?_of_joiner hjoiner hmid]
  dsimp only
  rw [hright]

/-- After a comma the reader goes on with the next selector. -/
theorem alternative_comma {cs mid : List Char} {selector : List Char → Reply Selector} (h : Blanks cs (',' :: mid)) :
    alternative selector cs = selector (spaces mid) := by
  rw [alternative, h.spaces_eq_cons rfl]
  rfl

/-- In front of the closing parenthesis no further argument is found. -/
theorem alternative_absent {cs rest : List Char} {selector : List Char → Reply Selector} (h : Blanks cs (')' :: rest)) :
    alternative selector cs = .absent := by
  rw [alternative, h.spaces_eq_cons rfl]
  rfl

mutual

/-- The reader finds every simple selector, if its depth allows for the text. -/
theorem simple_complete {cs rest : List Char} {s : Selector} {depth : Nat} (hdepth : cs.length ≤ depth) :
    Simple cs s rest → simple (argumentList (complexAt depth)) cs = .read s rest
  | .any => rfl
  | .type hname => simple_type hname
  | .present h₁ hpath hclose => attributeBody_present h₁ hpath hclose
  | .tested h₁ hpath h₂ hop h₃ hvalue hclose => attributeBody_tested h₁ hpath h₂ hop h₃ hvalue hclose
  | .pseudo hname hother => pseudoBody_other hname hother
  | .nested hname hkind hargs => by
    -- the name takes at least one character, so the depth still allows for the arguments
    have hmid := length_lt_of_name hname
    rw [List.length_cons] at hdepth
    exact pseudoBody_nested hname hkind (arguments_complete (by omega) hargs)

theorem simples_complete {cs rest : List Char} {parts : List Selector} {depth : Nat} (hdepth : cs.length ≤ depth) :
    Simples cs parts rest → Reads (simple (argumentList (complexAt depth))) cs parts rest
  | .one hs => .cons (simple_complete hdepth hs) .nil
  | .more hs hparts => .cons (simple_complete hdepth hs) (simples_complete (hs.length_lt.le.trans hdepth) hparts)

/-- The reader finds every compound that no other compound follows at once. -/
theorem compound_complete {cs rest : List Char} {s : Selector} {depth : Nat} (hdepth : cs.length ≤ depth)
    (hrest : rest.head?.any startsCompound = false) :
    Compound cs s rest → Reader.compound (argumentList (complexAt depth)) cs = .read s rest
  | .single hs => by
    rw [Reader.compound, simple_complete hdepth hs]
    dsimp only
    rw [many_of_reads (fun _ _ _ hread => (simple_sound argumentListAt_sound hread).length_lt) .nil (simple_absent hrest)
      (Nat.le_refl _)]
    rfl
  | .several hs hparts => by
    rw [Reader.compound, simple_complete hdepth hs]
    dsimp only
    rw [many_of_reads (fun _ _ _ hread => (simple_sound argumentListAt_sound hread).length_lt)
      (simples_complete (hs.length_lt.le.trans hdepth) hparts) (simple_absent hrest) (Nat.le_refl _)]
    cases hparts <;> rfl

/-- The reader finds the links of every chain, one by one, up to where the chain can end. -/
theorem links_complete {cs rest : List Char} {left s : Selector} {depth : Nat} (hdepth : cs.length ≤ depth)
    (hrest : Stops rest) : Links cs left s rest →
      ∃ links, Reads (link (argumentList (complexAt depth))) cs links rest ∧ ofLinks left links = s
  | .none => ⟨[], .nil, rfl⟩
  | .more hjoiner hright hlinks => by
    have hmid := hjoiner.length_lt.le.trans hdepth
    have hlink := link_read hjoiner hright.head (compound_complete hmid (hlinks.head hrest) hright)
    obtain ⟨links, hreads, hs⟩ := links_complete (hright.length_lt.le.trans hmid) hrest hlinks
    exact ⟨_ :: links, .cons hlink hreads, hs⟩

/-- The reader finds every chain that ends where it can, one level of arguments deeper than the text is long. -/
theorem complex_complete {cs rest : List Char} {s : Selector} {depth : Nat} (hdepth : cs.length ≤ depth)
    (hrest : Stops rest) : Complex cs s rest → complexAt (depth + 1) cs = .read s rest
  | .chain hfirst hlinks => by
    obtain ⟨links, hreads, hs⟩ := links_complete (hfirst.length_lt.le.trans hdepth) hrest hlinks
    have hshort : ∀ cs (a : Combinator × Selector) rest,
        link (argumentList (complexAt depth)) cs = .read a rest → rest.length < cs.length := by
      intro cs a rest hread
      obtain ⟨mid, hjoiner, hright⟩ := link_sound argumentListAt_sound hread
      exact hright.length_lt.trans hjoiner.length_lt
    rw [complexAt, Reader.complex, compound_complete hdepth (hlinks.head hrest) hfirst]
    dsimp only
    rw [many_of_reads hshort hreads (link_absent hrest) (Nat.le_refl _)]
    exact congrArg (Reply.read · rest) hs

theorem more_complete {cs cs' rest : List Char} {args : List Selector} {depth : Nat} (hdepth : cs.length ≤ depth)
    (hclose : Blanks cs' (')' :: rest)) :
    More cs args cs' → Reads (alternative (complexAt (depth + 1))) cs args cs'
  | .none => .nil
  | .more hcomma hblanks hs hargs => by
    have hlength := hblanks.length_le.trans ((Nat.le_succ _).trans (hcomma.length_le.trans hdepth))
    refine .cons ?_ (more_complete (hs.length_lt.le.trans hlength) hclose hargs)
    rw [alternative_comma hcomma, hblanks.spaces_eq, spaces_of_startsCompound hs.head]
    exact complex_complete hlength (hargs.stops hclose) hs

/-- The reader finds every list of arguments. -/
theorem arguments_complete {cs rest : List Char} {args : List Selector} {depth : Nat} (hdepth : cs.length ≤ depth) :
    Arguments cs args rest → argumentList (complexAt depth) cs = .read args rest
  | .list hblanks hfirst hmore hclose => by
    obtain ⟨depth, rfl⟩ : ∃ d, depth = d + 1 := ⟨depth - 1, by simp only [List.length_cons] at hdepth; omega⟩
    have hlength := hblanks.length_le.trans (Nat.le_of_succ_le_succ hdepth)
    have hshort : ∀ cs s rest, alternative (complexAt (depth + 1)) cs = .read s rest → rest.length < cs.length := by
      intro cs s rest hread
      obtain ⟨cs₁, cs₂, hcomma, hblanks, hs⟩ := alternative_sound (fun _ _ _ hs => complexAt_sound hs) hread
      exact Nat.lt_of_lt_of_le hs.length_lt (hblanks.length_le.trans ((Nat.le_succ _).trans hcomma.length_le))
    rw [argumentList, hblanks.spaces_eq, spaces_of_startsCompound hfirst.head,
      complex_complete hlength (hmore.stops hclose) hfirst]
    dsimp only
    rw [many_of_reads hshort (more_complete (hfirst.length_lt.le.trans hlength) hclose hmore)
      (alternative_absent hclose) (Nat.le_refl _)]
    dsimp only
    rw [closeList, hclose.spaces_eq_cons rfl]
    rfl

end

/-- What is read from a whole text is derived from it: no reader returns a selector that the grammar does not have. -/
theorem derives_of_read {text : List Char} {s : Selector} (h : read text = .ok s) : Derives text s := by
  unfold read at h
  split at h
  · cases h
  · cases h
  · rename_i s' rest hread
    split at h
    · rename_i hend
      cases h
      exact ⟨spaces text, rest, blanks_spaces text, complexAt_sound hread, blanks_nil_iff.2 (List.isEmpty_iff.1 hend)⟩
    · cases h

/-- What is derived from a whole text is read from it: the length of the text is depth enough. -/
theorem read_of_derives {text : List Char} {s : Selector} (h : Derives text s) : read text = .ok s := by
  obtain ⟨cs, rest, hblanks, hs, hend⟩ := h
  have hend := blanks_nil_iff.1 hend
  have hstops : Stops rest := fun c hc => by simp [hend] at hc
  rw [read, hblanks.spaces_eq, spaces_of_startsCompound hs.head, complex_complete hblanks.length_le hstops hs]
  simp [hend]

end Grammar

/-- Reading accepts exactly what the grammar derives: a text gives a selector if and only if the grammar derives the selector
from the whole text. -/
theorem read_eq_ok_iff (text : List Char) (s : Selector) : read text = .ok s ↔ Grammar.Derives text s :=
  ⟨Grammar.derives_of_read, Grammar.read_of_derives⟩

-- a quote that does not occur again is part of the value
example : read " a>b [x=\"y]".toList = .ok
    (.complex (.complex (.type "a") .child (.type "b")) .descendant (.attribute "x" (some (.eq, "\"y")))) := by
  cbv

end RuleWalk.Selector
