import Groundplan.Call
import Groundplan.CommandLine.Grammar
import Groundplan.CommandLine.Invocation
import Groundplan.CommandLine.Program
import Groundplan.Datum.Basic
import Groundplan.Datum.Display
import Groundplan.Datum.Entries
import Groundplan.Datum.Scalar
import Groundplan.Document.Basic
import Groundplan.Document.Loader
import Groundplan.Document.Query
import Groundplan.Event
import Groundplan.Failure
import Groundplan.Fault
import Groundplan.Files.Path
import Groundplan.Files.TextFile
import Groundplan.Files.Tree
import Groundplan.Heap
import Groundplan.Json.Parser
import Groundplan.Json.Printer
import Groundplan.Logging.Record
import Groundplan.Logging.Root
import Groundplan.Logging.Sink
import Groundplan.Logging.Stamp
import Groundplan.Main
import Groundplan.Number.Binary64
import Groundplan.Number.Decimal
import Groundplan.Output
import Groundplan.Session
import Groundplan.Settings.Basic
import Groundplan.Settings.File
import Groundplan.Synthesis.Basic
import Groundplan.Synthesis.References
import Groundplan.Synthesis.Resolution
import Groundplan.Text.Blank
import Groundplan.Text.Case
import Groundplan.Text.Digest
import Groundplan.Text.Digits
import Groundplan.Text.Encoding
import Groundplan.Text.Printable
import Groundplan.Text.Quoted
import Groundplan.Text.Split
import Groundplan.Trial
import Groundplan.Workspace.Basic
import Groundplan.Workspace.Builder
import Groundplan.Workspace.Display
import Groundplan.Workspace.Validation
import Groundplan.Proofs.Datum.Parts
import Groundplan.Proofs.Datum.Sameness
import Groundplan.Proofs.Datum.Likeness
import Groundplan.Proofs.Datum.Subset
import Groundplan.Proofs.Text.Split
import Groundplan.Proofs.Text.Numerals
import Groundplan.Proofs.Workspace.Paths
import Groundplan.Proofs.Workspace.Identity
import Groundplan.Proofs.Heap.Containment
import Groundplan.Proofs.Heap.Reading
import Groundplan.Proofs.Sequencing
import Groundplan.Proofs.Workspace.Scope
import Groundplan.Proofs.Workspace.Step
import Groundplan.Proofs.Workspace.Nodes
import Groundplan.Proofs.Workspace.Growth
import Groundplan.Proofs.Workspace.Forest
import Groundplan.Proofs.Workspace.Trees
import Groundplan.Proofs.Heap.Writing
import Groundplan.Proofs.Synthesis.Resolution
import Groundplan.Proofs.Synthesis.Placement
import Groundplan.Proofs.Synthesis.Cycles
import Groundplan.Proofs.Synthesis.Defects
import Groundplan.Proofs.Synthesis.Layout
import Groundplan.Proofs.Heap.Tidy
import Groundplan.Proofs.Workspace.Acceptance
import Groundplan.Proofs.Workspace.Validated
import Groundplan.Proofs.Workspace.Locked
import Groundplan.Proofs.Workspace.Lifecycle
import Groundplan.Proofs.Workspace.Atomicity
import Groundplan.Proofs.Workspace.Referring
import Groundplan.Proofs.Workspace.Descent
import Groundplan.Proofs.Number.Rounding
import Groundplan.Proofs.Json.Texts
import Groundplan.Proofs.Json.Numbers
import Groundplan.Proofs.Json.RoundTrip
import Groundplan.Proofs.Json.Lines
import Groundplan.Proofs.Document.Shape
import Groundplan.Proofs.Document.Loading
import Groundplan.Proofs.Document.RoundTrip
import Groundplan.Proofs.Datum.Matching
import Groundplan.Proofs.Document.Queries
import Groundplan.Proofs.Datum.Places
import Groundplan.Proofs.Synthesis.Integrity
import Groundplan.Proofs.Datum.Relabelling
import Groundplan.Proofs.Heap.Agreement
import Groundplan.Proofs.Heap.Contents
import Groundplan.Proofs.Heap.Lookups
import Groundplan.Proofs.Heap.Overriding
import Groundplan.Proofs.Workspace.Widening
import Groundplan.Proofs.Workspace.Frame
import Groundplan.Proofs.Workspace.Overrides
import Groundplan.Proofs.Workspace.Lineage
import Groundplan.Proofs.Synthesis.Refusals
import Groundplan.Proofs.Synthesis.Rewording
import Groundplan.Proofs.Synthesis.Repeatability
import Groundplan.Proofs.Synthesis.Apps
import Groundplan.Proofs.Document.Serializable
import Groundplan.Proofs.Synthesis.Tokens
import Groundplan.Proofs.Synthesis.Correspondence
import Groundplan.Proofs.Synthesis.Reordering
import Groundplan.Proofs.Json.Reading
import Groundplan.Proofs.Json.Brackets
import Groundplan.Proofs.Workspace.Matching
import Groundplan.Proofs.Document.Agreement
import Groundplan.Proofs.Files.TextFile
import Groundplan.Proofs.Files.Paths
import Groundplan.Proofs.Files.Writing
import Groundplan.Proofs.Files.Deposits
import Groundplan.Proofs.Files.NormalPaths
import Groundplan.Proofs.Files.Housing
import Groundplan.Proofs.Files.Following
import Groundplan.Proofs.Files.Listing
import Groundplan.Proofs.Document.Reloading
import Groundplan.Proofs.CommandLine.Running
import Groundplan.Proofs.Document.Lossless
import Groundplan.Proofs.Settings.Leniency
import Groundplan.Proofs.Settings.Normality
import Groundplan.Proofs.Settings.Strictness
import Groundplan.Proofs.CommandLine.Configuring
import Groundplan.Proofs.Settings.Persistence
import Groundplan.Proofs.CommandLine.Inspection
import Groundplan.Proofs.CommandLine.Scripts
import Groundplan.Proofs.CommandLine.Synthesizing
import Groundplan.Proofs.Logging.Delivery
