import RuleWalk.Text.WhiteSpace
import RuleWalk.Rule.Registry

/-!
# The bundled rules

Two rules for tablature. `measure-count` counts the measures. `line-naming` collects the names written at the start of
the staff lines of the last naming block, by source line, and numbers the named lines from zero when the block ends. Their
states are of kinds of their own, which come on top of whatever kinds there are.
-/

namespace RuleWalk

/-- The number of measures seen. -/
structure MeasureCount where
  count : Nat := 0
deriving DecidableEq, Repr

/-- The names of staff lines by source line, and the source lines by their place among the named ones. -/
structure LineNaming where
  naming : List (Nat × String) := []
  absolute : List (Nat × Nat) := []
deriving DecidableEq, Repr

/-- The source line of the named line with so many named lines above it. -/
def LineNaming.absoluteLine? (l : LineNaming) (relative : Nat) : Option Nat :=
  l.absolute.lookup relative

/-- The kinds of the bundled rules on top of others. -/
inductive BundledKind (K : Type) where
  | measureCount
  | lineNaming
  | other (k : K)
deriving DecidableEq, Repr

namespace BundledKind

variable {K : Type} [Kinds K]

/-- The values of a kind. -/
@[reducible] def Carrier : BundledKind K → Type
  | .measureCount => MeasureCount
  | .lineNaming => LineNaming
  | .other k => RuleWalk.Carrier k

/-- How a kind is named in messages. -/
def typeName : BundledKind K → String
  | .measureCount => "tabvisit::rules::measure_count::MeasureCount"
  | .lineNaming => "tabvisit::rules::line_naming::LineNaming"
  | .other k => Kinds.typeName k

instance : Kinds (BundledKind K) where
  Carrier := Carrier
  typeName := typeName
  blank := .other Kinds.blank
  blankValue := Kinds.blankValue (K := K)
  decEq := inferInstance

end BundledKind

variable {K : Type} [Kinds K] {Note : Type}

namespace MeasureCount

/-- The id of the rule. -/
def ruleId : String := "measure-count"

/-- One measure more. -/
def next (s : MeasureCount) : MeasureCount := ⟨s.count + 1⟩

/-- Counts the nodes of type `Measure`. -/
def rule : RuleModule (BundledKind K) Note where
  name := ruleId
  initial := ⟨.measureCount, {}⟩
  visitors := [⟨"Measure", fun _ => .update .measureCount next .finish⟩]

end MeasureCount

namespace LineNaming

/-- The id of the rule. -/
def ruleId : String := "line-naming"

/-- The names with one more. -/
def insert (line : Nat) (name : String) (s : LineNaming) : LineNaming :=
  { s with naming := Assoc.insert line name s.naming }

/-- The names with the named lines numbered from zero. -/
def enumerate (s : LineNaming) : LineNaming :=
  { s with absolute := (Assoc.keys s.naming).zipIdx.map fun (line, i) => (i, line) }

/-- A name without white space. -/
def squeeze (text : String) : String :=
  String.ofList (text.toList.filter fun c => !Text.isWhiteSpace c)

/-- Records the name of a line under the source line it starts on, unless that line has one. -/
def recordName (scene : Scene) : Script (BundledKind K) Note :=
  match scene.node.ranges with
  | [] => .report .warning scene.node "line name has no source range" .done
  | range :: _ =>
    let line := (scene.source.position range.start).line
    .read .lineNaming fun
      | .error e => .fail e
      | .ok state =>
        if (state.naming.lookup line).isSome then
          .report .error scene.node ("multiple line names on line " ++ toString line) .done
        else .update .lineNaming (insert line (squeeze scene.nodeText)) .finish

/-- Names the lines of the last block of type `LineNaming`. -/
def rule : RuleModule (BundledKind K) Note where
  name := ruleId
  initial := ⟨.lineNaming, {}⟩
  visitors := [
    ⟨"LineNaming", fun _ => .update .lineNaming (fun _ => {}) .finish⟩,
    ⟨"LineNaming > MeasureLineName", recordName⟩,
    ⟨"LineNaming:exit", fun _ => .update .lineNaming enumerate .finish⟩]

end LineNaming

/-- The registry of the bundled rules. -/
def Registry.standard : Registry (BundledKind K) Note :=
  (({} : Registry (BundledKind K) Note).bundle MeasureCount.ruleId MeasureCount.rule []).bundle
    LineNaming.ruleId LineNaming.rule []

end RuleWalk
