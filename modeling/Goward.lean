import Goward.Binding
import Goward.Build
import Goward.Classification
import Goward.Code.Action
import Goward.Code.Linear
import Goward.Code.Step
import Goward.Code.Value
import Goward.Diagnostic
import Goward.Error
import Goward.Json.Numbers
import Goward.Json.Strings
import Goward.Json.Values
import Goward.Labels
import Goward.Layout.Body
import Goward.Layout.Fragment
import Goward.Layout.Writer
import Goward.Lowering.Expr
import Goward.Lowering.Import
import Goward.Lowering.Stmt
import Goward.Lowering.Target
import Goward.Module
import Goward.Options
import Goward.Options.Json
import Goward.Pool
import Goward.Proofs.Acceptance
import Goward.Proofs.Agreement
import Goward.Proofs.Ancestry
import Goward.Proofs.Answers
import Goward.Proofs.Assignment
import Goward.Proofs.AssignmentCode
import Goward.Proofs.Balance
import Goward.Proofs.BindingRules
import Goward.Proofs.Brackets
import Goward.Proofs.Build
import Goward.Proofs.CallingConvention
import Goward.Proofs.CodeRows
import Goward.Proofs.CommentRows
import Goward.Proofs.Constructs
import Goward.Proofs.ControlFlow
import Goward.Proofs.Declarations
import Goward.Proofs.Evaluation
import Goward.Proofs.ExpressionTexts
import Goward.Proofs.FlatCode
import Goward.Proofs.Following
import Goward.Proofs.Generators
import Goward.Proofs.GotoProgram
import Goward.Proofs.Growth
import Goward.Proofs.Identifiers
import Goward.Proofs.ImportCode
import Goward.Proofs.Independence
import Goward.Proofs.Interpretation
import Goward.Proofs.Isolation
import Goward.Proofs.LabelHistory
import Goward.Proofs.LabelNumbers
import Goward.Proofs.LabelUse
import Goward.Proofs.Leases
import Goward.Proofs.LinePositions
import Goward.Proofs.Literals
import Goward.Proofs.Locations
import Goward.Proofs.LoweringAnswers
import Goward.Proofs.LoweringLeases
import Goward.Proofs.Machine
import Goward.Proofs.Messages
import Goward.Proofs.NamePlaces
import Goward.Proofs.NameReads
import Goward.Proofs.NestedCode
import Goward.Proofs.NestedTexts
import Goward.Proofs.NestedWriting
import Goward.Proofs.OneLine
import Goward.Proofs.Order
import Goward.Proofs.PackageHistory
import Goward.Proofs.PackageNames
import Goward.Proofs.PackageRows
import Goward.Proofs.PoolHistory
import Goward.Proofs.Properties
import Goward.Proofs.Provenance
import Goward.Proofs.Refusals
import Goward.Proofs.Registration
import Goward.Proofs.RegistrationOrder
import Goward.Proofs.Rendering
import Goward.Proofs.Requests
import Goward.Proofs.Resolution
import Goward.Proofs.Rows
import Goward.Proofs.ScopeChain
import Goward.Proofs.Scratch
import Goward.Proofs.ScratchBalance
import Goward.Proofs.ScratchUse
import Goward.Proofs.Serving
import Goward.Proofs.SlotWrites
import Goward.Proofs.SourceComments
import Goward.Proofs.SourceLines
import Goward.Proofs.StatementAnswers
import Goward.Proofs.StoredNames
import Goward.Proofs.Storing
import Goward.Proofs.StringHistory
import Goward.Proofs.StructuredRuns
import Goward.Proofs.Suspensions
import Goward.Proofs.Transcripts
import Goward.Proofs.TreeChanges
import Goward.Proofs.Writing
import Goward.Proofs.YieldFailures
import Goward.Proofs.YieldPlaces
import Goward.Registry
import Goward.Resources
import Goward.Scope.Names
import Goward.Scope.Tree
import Goward.Source.LineMap
import Goward.Source.Span
import Goward.SymbolTable
import Goward.Syntax
import Goward.Text.Basic
import Goward.Text.Quoted
import Goward.Variable
