import Bies.Main
import Bies.Proofs.Chain
import Bies.Proofs.Run
import Bies.Proofs.Code
import Bies.Proofs.ControlFlow
import Bies.Proofs.Evaluation
import Bies.Proofs.Folding
import Bies.Proofs.Grammar
import Bies.Proofs.ParsedPrograms
import Bies.Proofs.Failures
import Bies.Proofs.Moments
import Bies.Proofs.Slots
import Bies.Proofs.Texts
import Bies.Proofs.Calls
import Bies.Proofs.Unfolding
import Bies.Proofs.Lambdas
import Bies.Proofs.FoldedNodes
import Bies.Proofs.Deferral
import Bies.Proofs.Branches
import Bies.Proofs.Derivations
import Bies.Proofs.Printing
import Bies.Proofs.RoundTrip
import Bies.Proofs.LoadedBodies
import Bies.Proofs.SourceOrder
import Bies.Proofs.FoldedCode
import Bies.Proofs.FoldedRuns
import Bies.Proofs.CalleePolicies
import Bies.Proofs.UnboundPolicies
import Bies.Proofs.Nesting
import Bies.Proofs.Layout
import Bies.Proofs.Replacement
import Bies.Proofs.Framing
import Bies.Proofs.LambdaRecords
import Bies.Proofs.NodeTexts
import Bies.Proofs.AssemblyLines
import Bies.Proofs.Decoding
import Bies.Proofs.ErrorSpans
import Bies.Proofs.StackDepth
import Bies.Proofs.PrintedSums
import Bies.Proofs.FileWrites
import Bies.Proofs.CommandRuns
import Bies.Proofs.WholeNumbers
import Bies.Proofs.ScopeHistory
import Bies.Proofs.LiteralArithmetic
import Bies.Proofs.Seeding
import Bies.Proofs.Labels
import Bies.Proofs.Positions
import Bies.Proofs.Tracing
import Bies.Proofs.StringTokens
import Bies.Proofs.DefaultPaths
