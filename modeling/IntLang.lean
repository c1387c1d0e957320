import IntLang.Text.CharClass
import IntLang.Text.Escape
import IntLang.Text.Utf8
import IntLang.Text.Line
import IntLang.Diagnostic
import IntLang.Token
import IntLang.Source
import IntLang.Token.Scan
import IntLang.Tree.Basic
import IntLang.Tree.Printer
import IntLang.Tree.Parser
import IntLang.Flow.Basic
import IntLang.Flow.Graph
import IntLang.Flow.Module
import IntLang.Flow.Check
import IntLang.Flow.Builder
import IntLang.Flow.Printer
import IntLang.Machine.Native
import IntLang.Machine.Basic
import IntLang.Lowering
import IntLang.Session
import IntLang.Assembly.Target
import IntLang.Assembly.Basic
import IntLang.Assembly.Layout
import IntLang.Assembly.Emit
import IntLang.Console.Style
import IntLang.Console.Report
import IntLang.Console.Files
import IntLang.Console.LineReader
import IntLang.Console.Repl
import IntLang.Console.Options
import IntLang.Console.Compile
import IntLang.Main
import IntLang.Proofs.Evaluation
import IntLang.Proofs.Runs
import IntLang.Proofs.Code
import IntLang.Proofs.CodeSteps
import IntLang.Proofs.Arithmetic
import IntLang.Proofs.ExprRuns
import IntLang.Proofs.StmtRuns
import IntLang.Proofs.BodyRuns
import IntLang.Proofs.Acceptance
import IntLang.Proofs.Compiled
import IntLang.Proofs.Preservation
import IntLang.Proofs.CalledNames
import IntLang.Proofs.Cells
import IntLang.Proofs.Interactive
import IntLang.Proofs.ItemByItem
import IntLang.Proofs.Grammar
import IntLang.Proofs.ParserComplete
import IntLang.Proofs.Parsing
import IntLang.Proofs.Rejections
import IntLang.Proofs.ModuleGrowth
import IntLang.Proofs.Effects
import IntLang.Proofs.Emission
import IntLang.Proofs.EmittedCode
import IntLang.Proofs.SessionInvariant
import IntLang.Proofs.RejectedItems
import IntLang.Proofs.Isolation
import IntLang.Proofs.Dominance
import IntLang.Proofs.WellFormed
import IntLang.Proofs.Processor
import IntLang.Proofs.Listings
import IntLang.Proofs.StackFrames
import IntLang.Proofs.InstrRuns
import IntLang.Proofs.ArgumentPassing
import IntLang.Proofs.CallRuns
import IntLang.Proofs.BlockRuns
import IntLang.Proofs.WaitingFrames
import IntLang.Proofs.Refinement
import IntLang.Proofs.Admissibility
import IntLang.Proofs.Scanning
import IntLang.Proofs.Spelling
import IntLang.Proofs.Encoding
import IntLang.Proofs.Alignment
import IntLang.Proofs.LineByLine
import IntLang.Proofs.Lockstep
import IntLang.Proofs.LockstepRules
import IntLang.Proofs.Streaming
import IntLang.Proofs.Slices
import IntLang.Proofs.Spending
import IntLang.Proofs.TokenPoints
import IntLang.Proofs.Blame
import IntLang.Proofs.BlameRules
import IntLang.Proofs.ItemRuns
import IntLang.Proofs.FirstBadToken
import IntLang.Proofs.Concatenation
import IntLang.Proofs.NoReadAhead
import IntLang.Proofs.ModuleEdits
import IntLang.Proofs.NameIndexes
import IntLang.Proofs.Leftovers
import IntLang.Proofs.Words
import IntLang.Proofs.Identifiers
import IntLang.Proofs.TreeText
import IntLang.Proofs.Labels
import IntLang.Proofs.ResultNames
import IntLang.Proofs.ModuleWords
import IntLang.Proofs.Renaming
import IntLang.Proofs.Renumbering
import IntLang.Proofs.ModuleText
import IntLang.Proofs.BlockNames
import IntLang.Proofs.VerifiedModules
import IntLang.Proofs.ControlPaths
import IntLang.Proofs.References
import IntLang.Proofs.Assembler
import IntLang.Proofs.VerifierSoundness
import IntLang.Proofs.LabelTexts
import IntLang.Proofs.StackDepth
import IntLang.Proofs.CallConvention
import IntLang.Proofs.Literals
import IntLang.Proofs.Deliveries
import IntLang.Proofs.PrintedText
import IntLang.Proofs.Reachability
import IntLang.Proofs.CallStack
import IntLang.Proofs.EntryLayout
import IntLang.Proofs.FrameCells
