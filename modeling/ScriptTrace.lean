import ScriptTrace.CommandLine.Response
import ScriptTrace.Main
import ScriptTrace.Parse
import ScriptTrace.Playback
import ScriptTrace.Proofs.Acyclicity
import ScriptTrace.Proofs.AssignmentTargets
import ScriptTrace.Proofs.Bracketing
import ScriptTrace.Proofs.Building
import ScriptTrace.Proofs.CallBrackets
import ScriptTrace.Proofs.CallDepth
import ScriptTrace.Proofs.CallStack
import ScriptTrace.Proofs.CalleeDispatch
import ScriptTrace.Proofs.Calm
import ScriptTrace.Proofs.Contract
import ScriptTrace.Proofs.Derivations
import ScriptTrace.Proofs.Evaluation
import ScriptTrace.Proofs.ExpressionSyntax
import ScriptTrace.Proofs.Following
import ScriptTrace.Proofs.FrameIsolation
import ScriptTrace.Proofs.GrammarTermination
import ScriptTrace.Proofs.Hoisting
import ScriptTrace.Proofs.InertCode
import ScriptTrace.Proofs.Initialization
import ScriptTrace.Proofs.InsertionOrder
import ScriptTrace.Proofs.Ledger
import ScriptTrace.Proofs.LeftToRight
import ScriptTrace.Proofs.LiteralValues
import ScriptTrace.Proofs.Matching
import ScriptTrace.Proofs.Numerals
import ScriptTrace.Proofs.Operands
import ScriptTrace.Proofs.OperatorChains
import ScriptTrace.Proofs.Orderly
import ScriptTrace.Proofs.Outcomes
import ScriptTrace.Proofs.Outline
import ScriptTrace.Proofs.Parentheses
import ScriptTrace.Proofs.Parts
import ScriptTrace.Proofs.Points
import ScriptTrace.Proofs.Progress
import ScriptTrace.Proofs.Purity
import ScriptTrace.Proofs.Recasting
import ScriptTrace.Proofs.Recording
import ScriptTrace.Proofs.ReferenceFaults
import ScriptTrace.Proofs.References
import ScriptTrace.Proofs.Rendering
import ScriptTrace.Proofs.Renumbering
import ScriptTrace.Proofs.RoundTrip
import ScriptTrace.Proofs.ScopeChain
import ScriptTrace.Proofs.ScriptLayout
import ScriptTrace.Proofs.Settling
import ScriptTrace.Proofs.SideBySide
import ScriptTrace.Proofs.SkippedText
import ScriptTrace.Proofs.Snapshots
import ScriptTrace.Proofs.SourceLayout
import ScriptTrace.Proofs.SourceStretches
import ScriptTrace.Proofs.StackBalance
import ScriptTrace.Proofs.StepBudget
import ScriptTrace.Proofs.StepShapes
import ScriptTrace.Proofs.StringLiterals
import ScriptTrace.Proofs.SurroundingTrivia
import ScriptTrace.Proofs.Termination
import ScriptTrace.Proofs.ValueFlow
import ScriptTrace.Proofs.Words
import ScriptTrace.Trace
import ScriptTrace.Proofs.PlaybackWalk
import ScriptTrace.Proofs.SessionReports
import ScriptTrace.Proofs.Names
import ScriptTrace.Proofs.NamesInPrograms
import ScriptTrace.Proofs.MemberPaths
