import RuleWalk.Assoc
import RuleWalk.Number.Double

/-!
# JSON values

Configurations and node attributes are JSON values. A number is an integer or a finite double, and `3` and `3.0` differ.
The members of an object stand in increasing order of their keys, each key once.
-/

namespace RuleWalk

/-- A JSON number: an integer that a word of 64 bits holds, signed or not, or a finite double. -/
inductive Number where
  | int (n : Int)
  | real (d : Dyadic)
deriving DecidableEq, Repr

/-- A JSON value. -/
inductive Json where
  | null
  | bool (b : Bool)
  | number (n : Number)
  | string (s : String)
  | array (items : List Json)
  | object (members : List (String × Json))
deriving Inhabited

namespace Json

/-- The value null. -/
def isNull : Json → Bool
  | .null => true
  | _ => false

/-- The member of an object at a key; no other value has members. -/
def member? (key : String) : Json → Option Json
  | .object members => members.lookup key
  | _ => none

/-- The members of `layer` laid over those of `base` when both are objects; otherwise `layer` itself. -/
def overlay : Json → Json → Json
  | .object base, .object layer => .object (Assoc.merge base layer)
  | _, layer => layer

end Json

end RuleWalk
