import Lintel.Clock
import Lintel.Config
import Lintel.Config.Load
import Lintel.Correction
import Lintel.Data
import Lintel.Data.Json
import Lintel.Data.Readers
import Lintel.Data.Reading
import Lintel.Data.Slots
import Lintel.Data.Spelling
import Lintel.Disk
import Lintel.Disk.Glob
import Lintel.Disk.Selection
import Lintel.Edit
import Lintel.Engine
import Lintel.Fault
import Lintel.Invocation
import Lintel.Invocation.Help
import Lintel.Invocation.Switch
import Lintel.Invocation.Word
import Lintel.Issue
import Lintel.Libraries
import Lintel.Main
import Lintel.Number.Binary64
import Lintel.Number.Decimal
import Lintel.Number.Shortest
import Lintel.Number.Whole
import Lintel.Output
import Lintel.Output.Document
import Lintel.Output.Format
import Lintel.Output.Lines
import Lintel.Output.Todo
import Lintel.Path
import Lintel.Path.Exclusion
import Lintel.Pattern
import Lintel.Program
import Lintel.Proofs.Config.Choosing
import Lintel.Proofs.Config.Export
import Lintel.Proofs.Config.Faults
import Lintel.Proofs.Config.Lawful
import Lintel.Proofs.Config.Pages
import Lintel.Proofs.Config.Provenance
import Lintel.Proofs.Config.Sections
import Lintel.Proofs.Config.Silencing
import Lintel.Proofs.Config.Validation
import Lintel.Proofs.Correction.Atomicity
import Lintel.Proofs.Correction.Gathering
import Lintel.Proofs.Correction.Outcome
import Lintel.Proofs.Correction.Rearrangement
import Lintel.Proofs.Correction.Selection
import Lintel.Proofs.Disk.Globs
import Lintel.Proofs.Disk.Selecting
import Lintel.Proofs.Disk.Writing
import Lintel.Proofs.Edit.Graded
import Lintel.Proofs.Edit.Landing
import Lintel.Proofs.Edit.Mapping
import Lintel.Proofs.Edit.Simultaneous
import Lintel.Proofs.Edit.Splice
import Lintel.Proofs.Engine.Accounting
import Lintel.Proofs.Engine.Cancellation
import Lintel.Proofs.Engine.Comparison
import Lintel.Proofs.Engine.Convergence
import Lintel.Proofs.Engine.Counting
import Lintel.Proofs.Engine.Course
import Lintel.Proofs.Engine.Detection
import Lintel.Proofs.Engine.Disturbance
import Lintel.Proofs.Engine.Exclusion
import Lintel.Proofs.Engine.Fixpoint
import Lintel.Proofs.Engine.Freshness
import Lintel.Proofs.Engine.Gate
import Lintel.Proofs.Engine.Grounds
import Lintel.Proofs.Engine.History
import Lintel.Proofs.Engine.Insertion
import Lintel.Proofs.Engine.Interleaving
import Lintel.Proofs.Engine.Isolation
import Lintel.Proofs.Engine.Keeping
import Lintel.Proofs.Engine.Library
import Lintel.Proofs.Engine.Lifecycle
import Lintel.Proofs.Engine.Marking
import Lintel.Proofs.Engine.Order
import Lintel.Proofs.Engine.Origin
import Lintel.Proofs.Engine.Quiet
import Lintel.Proofs.Engine.Redetection
import Lintel.Proofs.Engine.Spotless
import Lintel.Proofs.Engine.Substance
import Lintel.Proofs.Engine.Trimming
import Lintel.Proofs.Ensures
import Lintel.Proofs.Libraries.Nodes
import Lintel.Proofs.Libraries.Rereading
import Lintel.Proofs.Libraries.Scanning
import Lintel.Proofs.Output.EditorLines
import Lintel.Proofs.Path.Agreement
import Lintel.Proofs.Path.Below
import Lintel.Proofs.Path.Literal
import Lintel.Proofs.Path.Normal
import Lintel.Proofs.Path.Place
import Lintel.Proofs.Path.Skipped
import Lintel.Proofs.Rules.Answering
import Lintel.Proofs.Rules.Declaring
import Lintel.Proofs.Rules.Mending
import Lintel.Proofs.Rules.Parting
import Lintel.Proofs.Rules.Trimming
import Lintel.Proofs.Session.Fidelity
import Lintel.Proofs.Session.Faults
import Lintel.Proofs.Session.Refusal
import Lintel.Proofs.Source.Memo
import Lintel.Proofs.Source.Refinement
import Lintel.Proofs.Suppression.Grammar
import Lintel.Proofs.Text.Ascii
import Lintel.Proofs.Text.Location
import Lintel.Proofs.Text.Slice
import Lintel.Proofs.Text.Split
import Lintel.Proofs.Text.Utf8
import Lintel.Proofs.Tree.Failure
import Lintel.Proofs.Tree.Places
import Lintel.Proofs.Tree.Preorder
import Lintel.Proofs.Tree.Walking
import Lintel.Proofs.Yaml.Cursor
import Lintel.Proofs.Yaml.Names
import Lintel.Proofs.Yaml.Nodes
import Lintel.Proofs.Yaml.Objects
import Lintel.Proofs.Yaml.Plain
import Lintel.Proofs.Yaml.Quoted
import Lintel.Proofs.Yaml.Runs
import Lintel.Proofs.Yaml.Steps
import Lintel.Proofs.Yaml.Unrolling
import Lintel.Proofs.Yaml.Written
import Lintel.Report
import Lintel.Rule
import Lintel.Rule.Options
import Lintel.Rules
import Lintel.Rules.AsciiIdentifiers
import Lintel.Rules.EmptyExpression
import Lintel.Rules.RedundantParentheses
import Lintel.Rules.TrailingWhitespace
import Lintel.Rules.Unparsable
import Lintel.Scripted
import Lintel.Session
import Lintel.Severity
import Lintel.Source
import Lintel.Suppression
import Lintel.Text.Blank
import Lintel.Text.Digit
import Lintel.Text.Location
import Lintel.Text.Lower
import Lintel.Text.Printable
import Lintel.Text.Quoted
import Lintel.Text.Sorted
import Lintel.Text.Split
import Lintel.Text.Utf8
import Lintel.Tree
import Lintel.World
import Lintel.Yaml
import Lintel.Yaml.Cursor
import Lintel.Yaml.Layout
import Lintel.Yaml.Node
import Lintel.Yaml.Plain
import Lintel.Yaml.Scalar
import Lintel.Yaml.Token
import Lintel.Yaml.Value
import Lintel.Yaml.Writer
