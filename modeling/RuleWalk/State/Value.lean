import RuleWalk.Json.Value

/-!
# State values

Every rule keeps a state of one kind. Which kinds there are, and what the values of each are, is up to the rules of an engine:
a universe of kinds says so. A state value carries its kind, and reading it as another kind gives nothing.
-/

namespace RuleWalk

/-- A universe of kinds. -/
class Kinds (K : Type) where
  /-- The values of a kind. -/
  Carrier : K → Type
  /-- How a kind is named in messages. -/
  typeName : K → String
  /-- The kind of the value that stands in for one that has been taken out. -/
  blank : K
  blankValue : Carrier blank
  decEq : DecidableEq K

export Kinds (Carrier)

instance (priority := low) {K : Type} [Kinds K] : DecidableEq K := Kinds.decEq

/-- A value with its kind. -/
structure StateValue (K : Type) [Kinds K] where
  kind : K
  value : Carrier kind

namespace StateValue

variable {K : Type} [Kinds K]

/-- What stands in for a value that has been taken out. -/
def blank : StateValue K := ⟨Kinds.blank, Kinds.blankValue⟩

/-- The value, if it is of the given kind. -/
def as? (v : StateValue K) (k : K) : Option (Carrier k) :=
  if h : v.kind = k then some (h ▸ v.value) else none

@[simp] theorem as?_mk (k : K) (x : Carrier k) : (StateValue.mk k x).as? k = some x := by
  simp [as?]

end StateValue

/-- The kinds of plain values. -/
inductive PlainKind where
  | int
  | text
  | list
  | unit
deriving DecidableEq, Repr

namespace PlainKind

/-- The values of a plain kind. -/
@[reducible] def Carrier : PlainKind → Type
  | .int => Int
  | .text => String
  | .list => List String
  | .unit => Unit

/-- How a plain kind is named in messages. -/
def typeName : PlainKind → String
  | .int => "i64"
  | .text => "alloc::string::String"
  | .list => "alloc::vec::Vec<alloc::string::String>"
  | .unit => "()"

instance : Kinds PlainKind where
  Carrier := Carrier
  typeName := typeName
  blank := .unit
  blankValue := ()
  decEq := inferInstance

end PlainKind

end RuleWalk
