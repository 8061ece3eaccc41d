import RuleWalk.Text.Ascii

/-!
# State tags

A tag names one instance of a rule's state: `rule@shared` for the one that groups share and `rule@group:id` for the
private one of a group.
-/

namespace RuleWalk

/-- Who uses an instance. -/
inductive Scope where
  | shared
  | group (id : String)
deriving DecidableEq, Repr

/-- The name of an instance. -/
structure StateTag where
  rule : String
  scope : Scope
deriving DecidableEq, Repr

namespace StateTag

/-- The tag of the shared instance of a rule. -/
def shared (rule : String) : StateTag := ⟨rule, .shared⟩

/-- The tag of a group's private instance of a rule. -/
def group (rule id : String) : StateTag := ⟨rule, .group id⟩

/-- Whether groups share the instance. -/
def isShared (t : StateTag) : Bool :=
  t.scope = .shared

/-- The end of the text of a shared tag. -/
def sharedMark : List Char := "@shared".toList

/-- What stands between rule and group in the text of a private tag. -/
def groupMark : List Char := "@group:".toList

/-- The characters of a tag. -/
def chars (t : StateTag) : List Char :=
  match t.scope with
  | .shared => t.rule.toList ++ sharedMark
  | .group id => t.rule.toList ++ groupMark ++ id.toList

/-- The text of a tag. -/
def text (t : StateTag) : String :=
  String.ofList t.chars

/-- The tag of a text: a shared one if it ends like one, and else a private one cut at the first group mark. No part of a
tag is empty. -/
def ofChars? (cs : List Char) : Option StateTag :=
  match Text.stripSuffix? sharedMark cs with
  | some rule => if rule.isEmpty then none else some (shared (String.ofList rule))
  | none =>
    match Text.splitFirst? groupMark cs with
    | some (rule, id) =>
      if rule.isEmpty || id.isEmpty then none else some (group (String.ofList rule) (String.ofList id))
    | none => none

end StateTag

end RuleWalk
