import DeferredOps.Text.Blank
import DeferredOps.Text.Literal
import DeferredOps.Text.Utf8
import DeferredOps.Text.Lines
import DeferredOps.Decimal.Binary64
import DeferredOps.Json.Basic
import DeferredOps.Json.Printer
import DeferredOps.Json.Parser
import DeferredOps.Path.Basic
import DeferredOps.Path.Wildcard
import DeferredOps.Environment
import DeferredOps.Instruction.Basic
import DeferredOps.Instruction.Operators
import DeferredOps.Instruction.Parse
import DeferredOps.NamePattern
import DeferredOps.Timestamp
import DeferredOps.Failure
import DeferredOps.Store.Basic
import DeferredOps.Store.Walk
import DeferredOps.Store.Operations
import DeferredOps.Store.Queries
import DeferredOps.Store.Trees
import DeferredOps.Store.Difference
import DeferredOps.Report
import DeferredOps.Event
import DeferredOps.Counters
import DeferredOps.Run
import DeferredOps.Executor
import DeferredOps.Config
import DeferredOps.Batch
import DeferredOps.LogFolder
import DeferredOps.HostProcess
import DeferredOps.Decimal.Whole
import DeferredOps.CommandLine.Arguments
import DeferredOps.Terminal
import DeferredOps.CommandLine.Program
import DeferredOps.Main
import DeferredOps.Proofs.Action
import DeferredOps.Proofs.Store.Lookup
import DeferredOps.Proofs.Store.WellFormed
import DeferredOps.Proofs.Store.Walk
import DeferredOps.Proofs.Store.Operations
import DeferredOps.Proofs.Store.Actions
import DeferredOps.Proofs.Run
import DeferredOps.Proofs.Bookkeeping
import DeferredOps.Proofs.Executor
import DeferredOps.Proofs.Batch
import DeferredOps.Proofs.Counting
import DeferredOps.Proofs.Escapes
import DeferredOps.Proofs.Store.Agreement
import DeferredOps.Proofs.Store.Delivery
import DeferredOps.Proofs.DirectoryMove
import DeferredOps.Proofs.MoveEffects
import DeferredOps.Proofs.MergeEffects
import DeferredOps.Proofs.Planning
import DeferredOps.Proofs.Text.Lines
import DeferredOps.Proofs.Text.Trimming
import DeferredOps.Proofs.Instruction.Operators
import DeferredOps.Proofs.Instruction.Grammar
import DeferredOps.Proofs.References
import DeferredOps.Proofs.Instruction.Writing
import DeferredOps.Proofs.StoredPlans
import DeferredOps.Proofs.Accounts
import DeferredOps.Proofs.Instruction.Outline
import DeferredOps.Proofs.Path.Length
import DeferredOps.Proofs.SystemFailures
import DeferredOps.Proofs.Store.Directories
import DeferredOps.Proofs.Store.Limits
import DeferredOps.Proofs.CommandLine.Program
import DeferredOps.Proofs.Store.Straight
import DeferredOps.Proofs.Store.Without
import DeferredOps.Proofs.Deletions
import DeferredOps.Proofs.CommandLine.Preparation
import DeferredOps.Proofs.SelfMoves
import DeferredOps.Proofs.Relocations
import DeferredOps.Proofs.DirectoryMerge
import DeferredOps.Proofs.Alongside
import DeferredOps.Proofs.Store.InStep
import DeferredOps.Proofs.Store.MovesInStep
import DeferredOps.Proofs.FileMoves
import DeferredOps.Proofs.MatchingDeletions
import DeferredOps.Proofs.MatchingMoves
import DeferredOps.Proofs.ExecutorsInStep
import DeferredOps.Proofs.MatchingLinks
import DeferredOps.Proofs.WorkingDirectories
import DeferredOps.Proofs.Path.Wildcard
import DeferredOps.Proofs.MisplacedWildcards
import DeferredOps.Proofs.Store.Rewriting
import DeferredOps.Proofs.Store.Trimmed
import DeferredOps.Proofs.Store.Removable
import DeferredOps.Proofs.PlainDeletions
import DeferredOps.Proofs.Store.Bystander
import DeferredOps.Proofs.Bystanders
import DeferredOps.Proofs.MissingSources
import DeferredOps.Proofs.StalledMoves
import DeferredOps.Proofs.Store.SharedEntries
import DeferredOps.Proofs.MoveReports
import DeferredOps.Proofs.OntoItself
import DeferredOps.Proofs.MergedDirectories
import DeferredOps.Proofs.MergeDepth
import DeferredOps.Proofs.LoadedSettings
import DeferredOps.Proofs.EventFile
import DeferredOps.Proofs.Expansion
import DeferredOps.Proofs.HostProcess
import DeferredOps.Proofs.LogRetention
