import AwaitLint.Config
import AwaitLint.Config.Calls
import AwaitLint.Config.File
import AwaitLint.Config.TypeName
import AwaitLint.Directive
import AwaitLint.Flow.Body
import AwaitLint.Flow.ControlFlow
import AwaitLint.Flow.DataFlow
import AwaitLint.Flow.FrontEnd
import AwaitLint.Graph
import AwaitLint.Graph.Dominance
import AwaitLint.Graph.Search
import AwaitLint.Report
import AwaitLint.Source.Ast
import AwaitLint.Source.Function
import AwaitLint.Source.GoType
import AwaitLint.Source.Lowering
import AwaitLint.Tasks.Failure
import AwaitLint.Tasks.Session
import AwaitLint.Tasks.World
import AwaitLint.Text.CharClass
import AwaitLint.Text.Cut
import AwaitLint.Text.Identifier
import AwaitLint.Text.Quoted
import AwaitLint.Tree.Links
import AwaitLint.Tree.Node
import AwaitLint.Tree.Traversal
import AwaitLint.ValueType
import AwaitLint.Verdict
import AwaitLint.Yaml.Cursor
import AwaitLint.Yaml.Document
import AwaitLint.Yaml.Number
import AwaitLint.Yaml.Scalar
import AwaitLint.Yaml.Settings
import AwaitLint.Yaml.Tag
import AwaitLint.Yaml.Timestamp
import AwaitLint.Yaml.Token
import AwaitLint.Yaml.Value
import AwaitLint.Proofs.GraphShape
import AwaitLint.Proofs.Walk
import AwaitLint.Proofs.DominatorTree
import AwaitLint.Proofs.Dominance
import AwaitLint.Proofs.BodyWalk
import AwaitLint.Proofs.PostDominance
import AwaitLint.Proofs.ReachingUses
import AwaitLint.Proofs.Acceptance
import AwaitLint.Proofs.Consumption
import AwaitLint.Proofs.CreditedAwait
import AwaitLint.Proofs.AwaitedList
import AwaitLint.Proofs.ReachFixpoint
import AwaitLint.Proofs.ReachingDefinitions
import AwaitLint.Proofs.ReachPaths
import AwaitLint.Proofs.Correspondence
import AwaitLint.Proofs.Renumbering
import AwaitLint.Proofs.Identities
import AwaitLint.Proofs.LoweredFunctions
import AwaitLint.Proofs.Suppression
import AwaitLint.Proofs.DirectiveLedger
import AwaitLint.Proofs.PackageReport
import AwaitLint.Proofs.TrackedNames
import AwaitLint.Proofs.Leniency
import AwaitLint.Proofs.GatheredFailures
import AwaitLint.Proofs.Occurrence
import AwaitLint.Proofs.LinkedTree
import AwaitLint.Proofs.Wrapping
import AwaitLint.Proofs.MappedNodes
import AwaitLint.Proofs.ConvertedItem
import AwaitLint.Proofs.LoweredTree
import AwaitLint.Proofs.FlowSimulation
import AwaitLint.Proofs.TreeWrites
import AwaitLint.Proofs.SourceWrites
import AwaitLint.Proofs.LoweredWrites
import AwaitLint.Proofs.DefinedVariables
import AwaitLint.Proofs.SearchEvents
import AwaitLint.Proofs.CheckedLookups
import AwaitLint.Proofs.NeverStuck
import AwaitLint.Proofs.DerivedGraphs
import AwaitLint.Proofs.FrontEndsAgree
import AwaitLint.Proofs.SwitchedOff
import AwaitLint.Proofs.CutText
import AwaitLint.Proofs.WrittenDirective
import AwaitLint.Proofs.QualifiedNames
import AwaitLint.Proofs.NameLists
import AwaitLint.Proofs.ReportedProblems
import AwaitLint.Proofs.TrackedSourceTypes
import AwaitLint.Proofs.StackTraversal
import AwaitLint.Proofs.SearchAndClimb
import AwaitLint.Proofs.ReachSweeps
import AwaitLint.Proofs.RefinementStages
import AwaitLint.Proofs.BodyLayout
