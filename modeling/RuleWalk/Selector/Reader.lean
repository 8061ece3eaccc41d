import RuleWalk.Text.Ascii
import RuleWalk.Text.Utf8
import RuleWalk.Selector.Basic

/-!
# Reading selectors

A reader looks at the start of a text and gives one of three replies: it read something and hands back the rest; nothing
of its kind starts there; or something did start and then could not go on. The last is final, and it keeps the text that
stood in the way together with what was expected, from the innermost construct outwards.

Only the arguments of a pseudo-class nest. The readers of everything else take the reader of arguments as a parameter,
and `complexAt` ties the knot with a bound on the nesting, which no text can exceed by its own length.
-/

namespace RuleWalk.Selector

namespace Reader

open Text

/-- What a construct was waiting for. -/
inductive Expected where
  | attributePath
  | attributeValue
  | pseudoClassName
  | selectorList
  | compound
deriving DecidableEq, Repr

/-- How an expectation is named in a report. -/
def Expected.text : Expected → String
  | .attributePath => "attribute path"
  | .attributeValue => "attribute value"
  | .pseudoClassName => "pseudo-class name"
  | .selectorList => "parenthesized selector list"
  | .compound => "compound selector"

/-- Where reading could not go on: the text from there to the end, and what was expected there. -/
structure Stuck where
  rest : List Char
  expected : List Expected
deriving DecidableEq, Repr

/-- The same failure seen from a construct around it. -/
def Stuck.within (s : Stuck) (outer : Expected) : Stuck :=
  { s with expected := s.expected ++ [outer] }

/-- The reply of a reader. -/
inductive Reply (α : Type) where
  /-- A value was read; `rest` is the text after it. -/
  | read (value : α) (rest : List Char)
  /-- Nothing of this kind starts here. -/
  | absent
  /-- It started here and could not go on. -/
  | stuck (failure : Stuck)
deriving Repr

/-- The text from its first character that is no blank. -/
def spaces (cs : List Char) : List Char :=
  cs.dropWhile isSpace

/-! ## Names, paths, operators and values -/

/-- The longest name at the start of a text. -/
def name? : List Char → Option (List Char × List Char)
  | c :: cs => if isNameStart c then some (c :: cs.takeWhile isNameChar, cs.dropWhile isNameChar) else none
  | [] => none

/-- The rest of a dotted path: name characters, and dots that a name character follows. -/
def pathTail : List Char → List Char × List Char
  | [] => ([], [])
  | c :: cs =>
    if isNameChar c || (c == '.' && cs.head?.any isNameChar) then
      let (tail, rest) := pathTail cs
      (c :: tail, rest)
    else ([], c :: cs)

/-- The longest dotted path at the start of a text. -/
def path? : List Char → Option (List Char × List Char)
  | c :: cs =>
    if isNameStart c then
      let (tail, rest) := pathTail cs
      some (c :: tail, rest)
    else none
  | [] => none

/-- The attribute operator at the start of a text. -/
def operator? : List Char → Option (AttrOp × List Char)
  | '>' :: '=' :: cs => some (.ge, cs)
  | '>' :: cs => some (.gt, cs)
  | '<' :: '=' :: cs => some (.le, cs)
  | '<' :: cs => some (.lt, cs)
  | '!' :: '=' :: cs => some (.other "!=", cs)
  | '~' :: '=' :: cs => some (.other "~=", cs)
  | '|' :: '=' :: cs => some (.other "|=", cs)
  | '^' :: '=' :: cs => some (.other "^=", cs)
  | '$' :: '=' :: cs => some (.other "$=", cs)
  | '*' :: '=' :: cs => some (.other "*=", cs)
  | '=' :: cs => some (.eq, cs)
  | _ => none

/-- A character of a value without quotes. -/
def isBare (c : Char) : Bool :=
  c != ']' && !isSpace c

/-- A value without quotes: a nonempty run up to a blank or a closing bracket. -/
def bareValue? (cs : List Char) : Option (List Char × List Char) :=
  if (cs.takeWhile isBare).isEmpty then none else some (cs.takeWhile isBare, cs.dropWhile isBare)

/-- A value: the text up to the next quote of the same kind when it opens with a quote that occurs again, and else a value
without quotes. -/
def value? (cs : List Char) : Option (List Char × List Char) :=
  match cs with
  | q :: inner =>
    if (q = '"' ∨ q = '\x27') ∧ q ∈ inner then
      some (inner.takeWhile (· != q), (inner.dropWhile (· != q)).tail)
    else bareValue? cs
  | [] => none

/-! ## Simple selectors -/

/-- The end of an attribute selector after its path and test. -/
def attributeEnd (path : List Char) (test : Option (AttrOp × String)) (cs : List Char) : Reply Selector :=
  match spaces cs with
  | ']' :: rest => .read (.attribute (String.ofList path) test) rest
  | cs => .stuck ⟨cs, []⟩

/-- An attribute selector after its opening bracket. -/
def attributeBody (cs : List Char) : Reply Selector :=
  match path? (spaces cs) with
  | none => .stuck ⟨spaces cs, [.attributePath]⟩
  | some (path, cs) =>
    match operator? (spaces cs) with
    | none => attributeEnd path none cs
    | some (op, cs) =>
      match value? (spaces cs) with
      | none => .stuck ⟨spaces cs, [.attributeValue]⟩
      | some (value, cs) => attributeEnd path (some (op, String.ofList value)) cs

/-- The pseudo-class of a name, ASCII case ignored for the four that take arguments. -/
def pseudoClass (name : List Char) : PseudoClass :=
  let lowered := name.map Char.toLower
  if lowered = ['i', 's'] then .is
  else if lowered = ['w', 'h', 'e', 'r', 'e'] then .whereAny
  else if lowered = ['n', 'o', 't'] then .not
  else if lowered = ['h', 'a', 's'] then .has
  else .other (String.ofList name)

/-- A pseudo-class selector after its colon. -/
def pseudoBody (arguments : List Char → Reply (List Selector)) (cs : List Char) : Reply Selector :=
  match name? cs with
  | none => .stuck ⟨cs, [.pseudoClassName]⟩
  | some (name, cs) =>
    match pseudoClass name with
    | .other name => .read (.pseudo (.other name) []) cs
    | kind =>
      match arguments cs with
      | .read args rest => .read (.pseudo kind args) rest
      | .absent => .stuck ⟨cs, [.selectorList]⟩
      | .stuck failure => .stuck (failure.within .selectorList)

/-- One simple selector. -/
def simple (arguments : List Char → Reply (List Selector)) (cs : List Char) : Reply Selector :=
  match cs with
  | '[' :: cs => attributeBody cs
  | ':' :: cs => pseudoBody arguments cs
  | '*' :: cs => .read .any cs
  | cs => match name? cs with
    | some (name, rest) => .read (.type (String.ofList name)) rest
    | none => .absent

/-! ## Compounds, chains and lists -/

/-- As many items as can be read one after the other, `limit` at most. -/
def many {α : Type} (item : List Char → Reply α) : Nat → List Char → Except Stuck (List α × List Char)
  | 0, cs => .ok ([], cs)
  | limit + 1, cs =>
    match item cs with
    | .absent => .ok ([], cs)
    | .stuck failure => .error failure
    | .read a rest =>
      match many item limit rest with
      | .ok (more, rest) => .ok (a :: more, rest)
      | .error failure => .error failure

/-- The selector of a nonempty run of simple selectors: a single one stands for itself. -/
def ofParts (first : Selector) (more : List Selector) : Selector :=
  if more.isEmpty then first else .compound (first :: more)

/-- A nonempty run of simple selectors. -/
def compound (arguments : List Char → Reply (List Selector)) (cs : List Char) : Reply Selector :=
  match simple arguments cs with
  | .absent => .absent
  | .stuck failure => .stuck failure
  | .read first rest =>
    match many (simple arguments) rest.length rest with
    | .error failure => .stuck failure
    | .ok (more, rest) => .read (ofParts first more) rest

/-- A combinator that is written out. -/
def explicit? : List Char → Option (Combinator × List Char)
  | '>' :: cs => some (.child, cs)
  | '+' :: cs => some (.adjacent, cs)
  | '~' :: cs => some (.sibling, cs)
  | _ => none

/-- A character that may begin a compound. -/
def startsCompound (c : Char) : Bool :=
  isNameStart c || c == '*' || c == '[' || c == ':'

/-- The combinator at the start of a text and the text after it: one that is written out, with blanks around it, or blanks
alone before a compound. -/
def joiner? (cs : List Char) : Option (Combinator × List Char) :=
  match explicit? (spaces cs) with
  | some (combinator, rest) => some (combinator, spaces rest)
  | none =>
    if cs.head?.any isSpace && (spaces cs).head?.any startsCompound then some (.descendant, spaces cs) else none

/-- A combinator and the compound on its right. -/
def link (arguments : List Char → Reply (List Selector)) (cs : List Char) : Reply (Combinator × Selector) :=
  match joiner? cs with
  | none => .absent
  | some (combinator, cs) =>
    match compound arguments cs with
    | .read right rest => .read (combinator, right) rest
    | .absent => .stuck ⟨cs, [.compound]⟩
    | .stuck failure => .stuck (failure.within .compound)

/-- The links of a chain folded to the left onto its first compound. -/
def ofLinks (first : Selector) (links : List (Combinator × Selector)) : Selector :=
  links.foldl (fun left (combinator, right) => .complex left combinator right) first

/-- Compounds joined by combinators. -/
def complex (arguments : List Char → Reply (List Selector)) (cs : List Char) : Reply Selector :=
  match compound arguments cs with
  | .absent => .absent
  | .stuck failure => .stuck failure
  | .read first rest =>
    match many (link arguments) rest.length rest with
    | .error failure => .stuck failure
    | .ok (links, rest) => .read (ofLinks first links) rest

/-- A comma and the selector after it. A comma that no selector follows is not taken. -/
def alternative (selector : List Char → Reply Selector) (cs : List Char) : Reply Selector :=
  match spaces cs with
  | ',' :: rest => selector (spaces rest)
  | _ => .absent

/-- The end of a list of arguments. -/
def closeList (args : List Selector) (cs : List Char) : Reply (List Selector) :=
  match spaces cs with
  | ')' :: rest => .read args rest
  | cs => .stuck ⟨cs, []⟩

/-- A list of selectors in parentheses. -/
def argumentList (selector : List Char → Reply Selector) (cs : List Char) : Reply (List Selector) :=
  match cs with
  | '(' :: cs =>
    match selector (spaces cs) with
    | .absent => .stuck ⟨spaces cs, []⟩
    | .stuck failure => .stuck failure
    | .read first rest =>
      match many (alternative selector) rest.length rest with
      | .error failure => .stuck failure
      | .ok (more, rest) => closeList (first :: more) rest
  | _ => .absent

/-- Compounds joined by combinators, with arguments nested less than `depth` deep. -/
def complexAt : Nat → List Char → Reply Selector
  | 0, _ => .absent
  | depth + 1, cs => complex (argumentList (complexAt depth)) cs

end Reader

/-- Reads a whole text as one selector with blanks around it. -/
def read (text : List Char) : Except Reader.Stuck Selector :=
  match Reader.complexAt (text.length + 1) (Reader.spaces text) with
  | .absent => .error ⟨Reader.spaces text, []⟩
  | .stuck failure => .error failure
  | .read selector rest =>
    if (Reader.spaces rest).isEmpty then .ok selector else .error ⟨Reader.spaces rest, []⟩

end RuleWalk.Selector
