import MacroEngine.CommandLine.Arguments
import MacroEngine.CommandLine.Setup
import MacroEngine.CommandLine.Shell
import MacroEngine.CommandLine.Wording
import MacroEngine.Config
import MacroEngine.Console
import MacroEngine.Files
import MacroEngine.Game.Basic
import MacroEngine.Game.Simulation
import MacroEngine.Game.Trace
import MacroEngine.Game.World
import MacroEngine.Json.Reader
import MacroEngine.Json.Record
import MacroEngine.Json.Token
import MacroEngine.Json.Value
import MacroEngine.Library.Basic
import MacroEngine.Library.Cache
import MacroEngine.Library.Directory
import MacroEngine.Main
import MacroEngine.Number.Binary64
import MacroEngine.Number.Decimal
import MacroEngine.Number.Whole
import MacroEngine.Proofs.Abreast
import MacroEngine.Proofs.Alternation
import MacroEngine.Proofs.Assurance
import MacroEngine.Proofs.Boundaries
import MacroEngine.Proofs.Bystanders
import MacroEngine.Proofs.Callers
import MacroEngine.Proofs.Catalogues
import MacroEngine.Proofs.Checks
import MacroEngine.Proofs.Clicks
import MacroEngine.Proofs.Companions
import MacroEngine.Proofs.Completion
import MacroEngine.Proofs.Conduct
import MacroEngine.Proofs.ConsoleLines
import MacroEngine.Proofs.Counts
import MacroEngine.Proofs.CourseSteps
import MacroEngine.Proofs.Courses
import MacroEngine.Proofs.CraftLoops
import MacroEngine.Proofs.CraftTemplates
import MacroEngine.Proofs.CraftText
import MacroEngine.Proofs.Cycles
import MacroEngine.Proofs.Dealings
import MacroEngine.Proofs.DecimalNotation
import MacroEngine.Proofs.Effects
import MacroEngine.Proofs.Endings
import MacroEngine.Proofs.Equality
import MacroEngine.Proofs.Errands
import MacroEngine.Proofs.Exchanges
import MacroEngine.Proofs.Expansions
import MacroEngine.Proofs.Expressions
import MacroEngine.Proofs.Failures
import MacroEngine.Proofs.FixedWaits
import MacroEngine.Proofs.Following
import MacroEngine.Proofs.FrameOrder
import MacroEngine.Proofs.FrameStacks
import MacroEngine.Proofs.Gameplay
import MacroEngine.Proofs.GatedLoops
import MacroEngine.Proofs.Gates
import MacroEngine.Proofs.Handles
import MacroEngine.Proofs.Histories
import MacroEngine.Proofs.InlineBlocks
import MacroEngine.Proofs.LexedLines
import MacroEngine.Proofs.Likeness
import MacroEngine.Proofs.LineNumbers
import MacroEngine.Proofs.LineReading
import MacroEngine.Proofs.Listings
import MacroEngine.Proofs.LoopCounts
import MacroEngine.Proofs.LowerCase
import MacroEngine.Proofs.Missteps
import MacroEngine.Proofs.NestedLoops
import MacroEngine.Proofs.Nesting
import MacroEngine.Proofs.Notices
import MacroEngine.Proofs.OffendingTokens
import MacroEngine.Proofs.Passage
import MacroEngine.Proofs.Pausing
import MacroEngine.Proofs.Placeholders
import MacroEngine.Proofs.Placement
import MacroEngine.Proofs.PolledWaits
import MacroEngine.Proofs.Progress
import MacroEngine.Proofs.Publishing
import MacroEngine.Proofs.Readers
import MacroEngine.Proofs.Recitals
import MacroEngine.Proofs.Refusals
import MacroEngine.Proofs.Remarks
import MacroEngine.Proofs.Reports
import MacroEngine.Proofs.Resting
import MacroEngine.Proofs.Retries
import MacroEngine.Proofs.RoundTrip
import MacroEngine.Proofs.Scanning
import MacroEngine.Proofs.ScriptRoundTrip
import MacroEngine.Proofs.ScriptSteps
import MacroEngine.Proofs.Separation
import MacroEngine.Proofs.Sequencing
import MacroEngine.Proofs.Settings
import MacroEngine.Proofs.Settling
import MacroEngine.Proofs.Shifts
import MacroEngine.Proofs.SingleSteps
import MacroEngine.Proofs.SourceLines
import MacroEngine.Proofs.Squeezing
import MacroEngine.Proofs.Stages
import MacroEngine.Proofs.Statements
import MacroEngine.Proofs.Steadiness
import MacroEngine.Proofs.StepReading
import MacroEngine.Proofs.Steps
import MacroEngine.Proofs.Stocks
import MacroEngine.Proofs.Stopping
import MacroEngine.Proofs.TagSets
import MacroEngine.Proofs.TagWriting
import MacroEngine.Proofs.TaggedLines
import MacroEngine.Proofs.Termination
import MacroEngine.Proofs.Tickets
import MacroEngine.Proofs.TokenStreams
import MacroEngine.Proofs.Twins
import MacroEngine.Proofs.Underway
import MacroEngine.Proofs.UnnumberedReading
import MacroEngine.Proofs.Unwinding
import MacroEngine.Proofs.Validation
import MacroEngine.Proofs.WaitNotation
import MacroEngine.Proofs.Walks
import MacroEngine.Proofs.Watching
import MacroEngine.Proofs.WholeNumbers
import MacroEngine.Proofs.WrittenExpressions
import MacroEngine.Proofs.WrittenScripts
import MacroEngine.Proofs.WrittenTokens
import MacroEngine.Proofs.YieldedLines
import MacroEngine.Proofs.Yields
import MacroEngine.Routine.Command
import MacroEngine.Routine.CraftLoop
import MacroEngine.Routine.Modifiers
import MacroEngine.Routine.Printer
import MacroEngine.Routine.Reader
import MacroEngine.Routine.Resolution
import MacroEngine.Routine.Tags
import MacroEngine.Routine.WaitSpan
import MacroEngine.Run.Activity
import MacroEngine.Run.Basic
import MacroEngine.Run.Bridge
import MacroEngine.Run.Controls
import MacroEngine.Run.Course
import MacroEngine.Run.Error
import MacroEngine.Run.Execution
import MacroEngine.Run.Fiber
import MacroEngine.Run.Frames
import MacroEngine.Run.Lifecycle
import MacroEngine.Run.Retry
import MacroEngine.Run.Solo
import MacroEngine.Run.Wait
import MacroEngine.Script.Error
import MacroEngine.Script.Grammar
import MacroEngine.Script.Inline
import MacroEngine.Script.Lexer
import MacroEngine.Script.Process
import MacroEngine.Script.Program
import MacroEngine.Script.Token
import MacroEngine.Script.Value
import MacroEngine.Session
import MacroEngine.Text.Blank
import MacroEngine.Text.Case
import MacroEngine.Text.CaseTable
import MacroEngine.Text.LetterTable
import MacroEngine.Text.Lines
import MacroEngine.Text.Quoted
import MacroEngine.Text.QuotingTable
import MacroEngine.Time.Clock
import MacroEngine.Time.Duration
