import RuleWalk.Json.Reader
import RuleWalk.Config.Basic

/-!
# Reading configurations and groups

Both may be written as an object with named fields or as an array of the fields in order. Unknown keys are skipped, a
known key may not come twice. A configuration may leave fields out, a group may not.
-/

namespace RuleWalk

open Json.Reader

/-- What has been read of a configuration. -/
structure Config.Draft where
  base : Option Bucket := none
  groups : Option (List (String × Bucket)) := none

namespace Config

/-- The configuration of a draft; what is missing is empty. -/
def ofDraft (d : Draft) : Config :=
  ⟨d.base.getD [], d.groups.getD []⟩

/-- A bucket of entries by rule, inside one container. -/
def readBase (cs : List Char) : Except Fault (Bucket × List Char) :=
  onlyMap (value (nestingLimit - 2)) cs

/-- Buckets by group, inside one container. -/
def readGroups (cs : List Char) : Except Fault (List (String × Bucket) × List Char) :=
  onlyMap (onlyMap (value (nestingLimit - 3))) cs

/-- What to do at a key of a configuration. -/
def onKey (d : Draft) (key : String) : Except Fault (List Char → Except Fault (Draft × List Char)) :=
  match key with
  | "default" =>
    if d.base.isSome then .error .mismatched
    else .ok fun cs => do
      let (base, cs) ← readBase cs
      return ({ d with base := some base }, cs)
  | "groups" =>
    if d.groups.isSome then .error .mismatched
    else .ok fun cs => do
      let (groups, cs) ← readGroups cs
      return ({ d with groups := some groups }, cs)
  | _ => .ok fun cs => do return (d, ← skip cs)

/-- The fields of a configuration in order, after an opening bracket. -/
def readFields (cs : List Char) : Except Fault (Config × List Char) := do
  match ← nextItem true cs with
  | none => return (empty, ← arrayEnd cs)
  | some cs =>
    let (base, cs) ← readBase cs
    match ← nextItem false cs with
    | none => return (⟨base, []⟩, ← arrayEnd cs)
    | some cs =>
      let (groups, cs) ← readGroups cs
      return (⟨base, groups⟩, ← arrayEnd cs)

/-- A configuration at the start of a text. -/
def reader (cs : List Char) : Except Fault (Config × List Char) :=
  match skipBlanks cs with
  | [] => .error .truncated
  | '[' :: cs => readFields cs
  | '\x7b' :: cs => do
    let (draft, cs) ← members onKey (cs.length + 1) true {} cs
    return (ofDraft draft, cs)
  | cs => otherKind cs

/-- Reads a whole text as a configuration. -/
def read (text : String) : Except Fault Config :=
  whole reader text

end Config

/-- What has been read of a group. -/
structure Group.Draft where
  id : Option String := none
  rules : Option (List String) := none

namespace Group

/-- The group of a draft, if nothing is missing. -/
def ofDraft (d : Draft) : Except Fault Group :=
  match d.id, d.rules with
  | some id, some rules => .ok ⟨id, rules⟩
  | _, _ => .error .mismatched

/-- What to do at a key of a group. -/
def onKey (d : Draft) (key : String) : Except Fault (List Char → Except Fault (Draft × List Char)) :=
  match key with
  | "id" =>
    if d.id.isSome then .error .mismatched
    else .ok fun cs => do
      let (id, cs) ← onlyString cs
      return ({ d with id := some id }, cs)
  | "rules" =>
    if d.rules.isSome then .error .mismatched
    else .ok fun cs => do
      let (rules, cs) ← onlyArray onlyString cs
      return ({ d with rules := some rules }, cs)
  | _ => .ok fun cs => do return (d, ← skip cs)

/-- The fields of a group in order, after an opening bracket. -/
def readFields (cs : List Char) : Except Fault (Group × List Char) := do
  match ← nextItem true cs with
  | none => .error .mismatched
  | some cs =>
    let (id, cs) ← onlyString cs
    match ← nextItem false cs with
    | none => .error .mismatched
    | some cs =>
      let (rules, cs) ← onlyArray onlyString cs
      return (⟨id, rules⟩, ← arrayEnd cs)

/-- A group at the start of a text. -/
def reader (cs : List Char) : Except Fault (Group × List Char) :=
  match skipBlanks cs with
  | [] => .error .truncated
  | '[' :: cs => readFields cs
  | '\x7b' :: cs => do
    let (draft, cs) ← members onKey (cs.length + 1) true {} cs
    return (← ofDraft draft, cs)
  | cs => otherKind cs

/-- Reads a whole text as a group. -/
def read (text : String) : Except Fault Group :=
  whole reader text

end Group

end RuleWalk
