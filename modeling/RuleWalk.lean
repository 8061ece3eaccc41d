import RuleWalk.Assoc
import RuleWalk.Config.Basic
import RuleWalk.Config.Reader
import RuleWalk.Diagnostic
import RuleWalk.Dict
import RuleWalk.Dispatch.Dispatcher
import RuleWalk.Dispatch.Index
import RuleWalk.Engine.Run
import RuleWalk.Engine.Setup
import RuleWalk.Engine.World
import RuleWalk.Error
import RuleWalk.Json.Printer
import RuleWalk.Json.Reader
import RuleWalk.Json.Value
import RuleWalk.Number.Double
import RuleWalk.Number.Numeral
import RuleWalk.Number.Shortest
import RuleWalk.Order
import RuleWalk.Proofs.Assembly
import RuleWalk.Proofs.ByteOrder
import RuleWalk.Proofs.Cache
import RuleWalk.Proofs.Calls
import RuleWalk.Proofs.Closure
import RuleWalk.Proofs.Comparison
import RuleWalk.Proofs.Consistency
import RuleWalk.Proofs.Course
import RuleWalk.Proofs.Delivery
import RuleWalk.Proofs.Discovery
import RuleWalk.Proofs.Freshness
import RuleWalk.Proofs.Grammar
import RuleWalk.Proofs.History
import RuleWalk.Proofs.Index
import RuleWalk.Proofs.Instances
import RuleWalk.Proofs.Isolation
import RuleWalk.Proofs.Layers
import RuleWalk.Proofs.LineNames
import RuleWalk.Proofs.Lists
import RuleWalk.Proofs.Lockstep
import RuleWalk.Proofs.Lookups
import RuleWalk.Proofs.Measures
import RuleWalk.Proofs.Numbering
import RuleWalk.Proofs.Numerals
import RuleWalk.Proofs.Order
import RuleWalk.Proofs.Paths
import RuleWalk.Proofs.Positions
import RuleWalk.Proofs.Printing
import RuleWalk.Proofs.Progress
import RuleWalk.Proofs.Queue
import RuleWalk.Proofs.Refusals
import RuleWalk.Proofs.Reparsing
import RuleWalk.Proofs.Requests
import RuleWalk.Proofs.Restriction
import RuleWalk.Proofs.Satisfaction
import RuleWalk.Proofs.Table
import RuleWalk.Proofs.Tags
import RuleWalk.Proofs.Ties
import RuleWalk.Proofs.Tokens
import RuleWalk.Proofs.Transparency
import RuleWalk.Proofs.Traversal
import RuleWalk.Proofs.Types
import RuleWalk.Proofs.Verdict
import RuleWalk.Proofs.Viability
import RuleWalk.Proofs.World
import RuleWalk.Rule.Bundle
import RuleWalk.Rule.Declaration
import RuleWalk.Rule.Module
import RuleWalk.Rule.Registry
import RuleWalk.Rule.Script
import RuleWalk.Selector.Analysis
import RuleWalk.Selector.Attribute
import RuleWalk.Selector.Basic
import RuleWalk.Selector.Cache
import RuleWalk.Selector.Match
import RuleWalk.Selector.Pattern
import RuleWalk.Selector.Printer
import RuleWalk.Selector.Reader
import RuleWalk.Selector.Report
import RuleWalk.State.Instance
import RuleWalk.State.Table
import RuleWalk.State.Tag
import RuleWalk.State.Value
import RuleWalk.Text.Ascii
import RuleWalk.Text.Extender
import RuleWalk.Text.Quoted
import RuleWalk.Text.Unprintable
import RuleWalk.Text.Utf8
import RuleWalk.Text.WhiteSpace
import RuleWalk.Tree.Basic
import RuleWalk.Tree.Queue
import RuleWalk.Tree.Source
