import RuleWalk.Text.Ascii
import RuleWalk.Text.Quoted
import RuleWalk.Selector.Basic

/-!
# Selectors as text

One spelling for each selector: single blanks around combinators, a comma and a blank between arguments, attribute
values always quoted.
-/

namespace RuleWalk.Selector

mutual

/-- The text of a selector. -/
def text : Selector → String
  | .any => "*"
  | .type name => name
  | .compound parts => textAll parts
  | .complex left .descendant right => left.text ++ " " ++ right.text
  | .complex left combinator right => left.text ++ " " ++ combinator.symbol ++ " " ++ right.text
  | .pseudo kind [] => ":" ++ kind.name
  | .pseudo kind args => ":" ++ kind.name ++ "(" ++ Text.joinWith ", " (texts args) ++ ")"
  | .attribute path none => "[" ++ path ++ "]"
  | .attribute path (some (op, value)) => "[" ++ path ++ op.symbol ++ Text.quoted value ++ "]"

/-- The texts of selectors one after the other. -/
def textAll : List Selector → String
  | [] => ""
  | s :: rest => s.text ++ textAll rest

/-- The text of each selector. -/
def texts : List Selector → List String
  | [] => []
  | s :: rest => s.text :: texts rest

end

end RuleWalk.Selector
