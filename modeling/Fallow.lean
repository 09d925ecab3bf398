import Fallow.Analysis
import Fallow.Calendar
import Fallow.CommandLine.Basic
import Fallow.CommandLine.Parameter
import Fallow.CommandLine.Request
import Fallow.Config
import Fallow.Definition
import Fallow.Disk.Basic
import Fallow.Disk.Glob
import Fallow.Disk.Path
import Fallow.Index.Basic
import Fallow.Index.Buckets
import Fallow.Index.Store
import Fallow.Index.Unused
import Fallow.Json.Basic
import Fallow.Json.Printer
import Fallow.Json.Reader
import Fallow.Location
import Fallow.Main
import Fallow.Metrics
import Fallow.Number.Binary64
import Fallow.Number.Numeral
import Fallow.Outline.Act
import Fallow.Outline.Argument
import Fallow.Outline.Basic
import Fallow.Outline.Plan
import Fallow.Outline.Source
import Fallow.Pattern.Basic
import Fallow.Pattern.Reader
import Fallow.Pattern.Search
import Fallow.Plugin.Basic
import Fallow.Plugin.Choice
import Fallow.Plugin.Descriptor
import Fallow.Project.Basic
import Fallow.Project.Collect
import Fallow.Project.Command
import Fallow.Project.Configured
import Fallow.Project.Execution
import Fallow.Project.Gems
import Fallow.Project.History
import Fallow.Project.Sorbet
import Fallow.Project.Strictness
import Fallow.Proofs.Account
import Fallow.Proofs.Announced
import Fallow.Proofs.ArgumentShapes
import Fallow.Proofs.Bodies
import Fallow.Proofs.Brackets
import Fallow.Proofs.Buckets
import Fallow.Proofs.Collected
import Fallow.Proofs.Combine
import Fallow.Proofs.CommitLog
import Fallow.Proofs.Completion
import Fallow.Proofs.ContextFree
import Fallow.Proofs.Counters
import Fallow.Proofs.Dates
import Fallow.Proofs.Deeds
import Fallow.Proofs.DiskFiles
import Fallow.Proofs.Encoding
import Fallow.Proofs.Events
import Fallow.Proofs.FirstFault
import Fallow.Proofs.Identity
import Fallow.Proofs.Ignored
import Fallow.Proofs.KeywordPlaces
import Fallow.Proofs.Keywords
import Fallow.Proofs.LineStarts
import Fallow.Proofs.LocationText
import Fallow.Proofs.LockedGems
import Fallow.Proofs.Lockstep
import Fallow.Proofs.Matching
import Fallow.Proofs.Members
import Fallow.Proofs.MethodBody
import Fallow.Proofs.MetricsRun
import Fallow.Proofs.Nameless
import Fallow.Proofs.Order
import Fallow.Proofs.Origin
import Fallow.Proofs.Outline
import Fallow.Proofs.Outputs
import Fallow.Proofs.Overlooked
import Fallow.Proofs.Places
import Fallow.Proofs.PluginChain
import Fallow.Proofs.PluginChoice
import Fallow.Proofs.Pruning
import Fallow.Proofs.ReadBack
import Fallow.Proofs.References
import Fallow.Proofs.Regular
import Fallow.Proofs.Runs
import Fallow.Proofs.SetItems
import Fallow.Proofs.Settings
import Fallow.Proofs.SharedIndex
import Fallow.Proofs.Shares
import Fallow.Proofs.ShellWords
import Fallow.Proofs.Spelling
import Fallow.Proofs.Splitting
import Fallow.Proofs.Spots
import Fallow.Proofs.Standing
import Fallow.Proofs.Store
import Fallow.Proofs.StoreVerdict
import Fallow.Proofs.StrictnessComment
import Fallow.Proofs.Supplied
import Fallow.Proofs.Tour
import Fallow.Proofs.TourSends
import Fallow.Proofs.Uses
import Fallow.Proofs.Verdict
import Fallow.Proofs.Writes
import Fallow.Proofs.WrittenFiles
import Fallow.Reference
import Fallow.Report
import Fallow.Send
import Fallow.Shell.Quote
import Fallow.Shell.Run
import Fallow.Shell.Script
import Fallow.Shell.Word
import Fallow.Snapshot
import Fallow.Syntax.Fault
import Fallow.Syntax.Node
import Fallow.Text.CaseTable
import Fallow.Text.Character
import Fallow.Text.DigitTable
import Fallow.Text.HiddenTable
import Fallow.Text.Lines
import Fallow.Text.Quoted
import Fallow.Text.Utf8
import Fallow.Text.WordTable
import Fallow.Toml.Basic
import Fallow.Toml.Reader
import Fallow.Walk
import Fallow.Wildcard
