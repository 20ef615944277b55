import ShellInliner.Text.Interval
import ShellInliner.Text.Blank
import ShellInliner.Text.Digit
import ShellInliner.Text.WordCharacter
import ShellInliner.Text.Printable
import ShellInliner.Text.Literal
import ShellInliner.Text.Lines
import ShellInliner.Path
import ShellInliner.Hint
import ShellInliner.Json.Value
import ShellInliner.Json.Writer
import ShellInliner.Json.Reader
import ShellInliner.Node.Kind
import ShellInliner.Node.Basic
import ShellInliner.Word.Segment
import ShellInliner.Word.Expansion
import ShellInliner.Word.Quote
import ShellInliner.Text.Utf8
import ShellInliner.Report
import ShellInliner.Disk.Fault
import ShellInliner.Error
import ShellInliner.Json.Check
import ShellInliner.Node.Scalar
import ShellInliner.Node.Dump
import ShellInliner.Node.Load
import ShellInliner.Grammar.Terminal
import ShellInliner.Grammar.Rule
import ShellInliner.Grammar.Tree
import ShellInliner.Grammar.Chart
import ShellInliner.Grammar.Reach
import ShellInliner.Parse.Piece
import ShellInliner.Parse.Script
import ShellInliner.Source.Layout
import ShellInliner.Source.Render
import ShellInliner.Visit.Visitor
import ShellInliner.Visit.Traverse
import ShellInliner.Visit.Table
import ShellInliner.Functions
import ShellInliner.Disk.Basic
import ShellInliner.Settings
import ShellInliner.Import
import ShellInliner.Build
import ShellInliner.Workspace.Basic
import ShellInliner.Workspace.Source
import ShellInliner.Workspace.Traverse
import ShellInliner.Workspace.Session
import ShellInliner.CommandLine.Scope
import ShellInliner.CommandLine.Mark
import ShellInliner.CommandLine.Invocation
import ShellInliner.CommandLine.Run
import ShellInliner.CommandLine.Lookup
import ShellInliner.Main
import ShellInliner.Proofs.Node.Subtree
import ShellInliner.Proofs.Node.Fields
import ShellInliner.Proofs.Import.Inlining
import ShellInliner.Proofs.Grammar.Chart
import ShellInliner.Proofs.Grammar.Length
import ShellInliner.Proofs.Parse.Reading
import ShellInliner.Proofs.Parse.Reader
import ShellInliner.Proofs.Parse.Simulation
import ShellInliner.Proofs.Parse.Phase
import ShellInliner.Proofs.Parse.Rivals
import ShellInliner.Proofs.Grammar.Closed
import ShellInliner.Proofs.Run
import ShellInliner.Proofs.Source.Layout
import ShellInliner.Proofs.Visit.Calls
import ShellInliner.Proofs.Workspace.Graph
import ShellInliner.Proofs.Workspace.Reading
import ShellInliner.Proofs.Workspace.Shape
import ShellInliner.Proofs.Workspace.Growth
import ShellInliner.Proofs.Workspace.Installing
import ShellInliner.Proofs.Workspace.Memory
import ShellInliner.Proofs.Workspace.Printing
import ShellInliner.Proofs.Grammar.Context
import ShellInliner.Proofs.Parse.Laid
import ShellInliner.Proofs.Parse.Families
import ShellInliner.Proofs.Parse.Contest
import ShellInliner.Proofs.Parse.Cuts
import ShellInliner.Proofs.Parse.Alignment
import ShellInliner.Proofs.Parse.Script
import ShellInliner.Proofs.Parse.Language
import ShellInliner.Proofs.Text.Lines
import ShellInliner.Proofs.Grammar.Reach
import ShellInliner.Proofs.Parse.Rejection
import ShellInliner.Proofs.Parse.Spells
import ShellInliner.Proofs.Parse.Constructs
import ShellInliner.Proofs.Grammar.Redirection
import ShellInliner.Proofs.Parse.Compounds
import ShellInliner.Proofs.Source.Compounds
import ShellInliner.Proofs.Source.Choices
import ShellInliner.Proofs.Source.Commands
import ShellInliner.Proofs.Source.Rereading
import ShellInliner.Proofs.Source.Safe
import ShellInliner.Proofs.Node.Assemble
import ShellInliner.Proofs.Node.Loading
import ShellInliner.Proofs.Visit.Splicing
import ShellInliner.Proofs.Workspace.Isolation
import ShellInliner.Proofs.Workspace.Edits
import ShellInliner.Proofs.Word.Expansions
import ShellInliner.Proofs.Parse.Unplaced
import ShellInliner.Proofs.Parse.Regular
import ShellInliner.Proofs.Parse.Made
import ShellInliner.Proofs.Source.Marks
import ShellInliner.Proofs.Import.Preview
import ShellInliner.Proofs.Node.Leaves
import ShellInliner.Proofs.Parse.Extents
import ShellInliner.Proofs.Parse.Pieces
import ShellInliner.Proofs.Parse.Places
import ShellInliner.Proofs.Source.Spelled
import ShellInliner.Proofs.Source.Reparse
import ShellInliner.Proofs.Import.Inlined
import ShellInliner.Proofs.Import.Building
import ShellInliner.Proofs.Disk.Following
import ShellInliner.Proofs.Disk.Writing
import ShellInliner.Proofs.CommandLine.Effects
import ShellInliner.Proofs.CommandLine.Verbose
import ShellInliner.Proofs.Json.Language
import ShellInliner.Proofs.Json.Reading
import ShellInliner.Proofs.Node.Dumping
import ShellInliner.Proofs.Parse.Numbers
import ShellInliner.Proofs.Import.Showing
import ShellInliner.Proofs.Visit.Identity
import ShellInliner.Proofs.Visit.Fusion
import ShellInliner.Proofs.Visit.Refusal
import ShellInliner.Proofs.Grammar.Choice
import ShellInliner.Proofs.Grammar.Shift
import ShellInliner.Proofs.Grammar.Opening
import ShellInliner.Proofs.Parse.Header
import ShellInliner.Proofs.Word.Spans
import ShellInliner.Proofs.Word.Literals
import ShellInliner.Proofs.Word.Forms
import ShellInliner.Proofs.Word.Quotes
import ShellInliner.Proofs.Node.Addresses
import ShellInliner.Proofs.Visit.Functions
import ShellInliner.Proofs.Path.Normal
import ShellInliner.Proofs.Import.Resolving
import ShellInliner.Proofs.Workspace.Qualifying
import ShellInliner.Proofs.Text.Utf8
import ShellInliner.Proofs.Json.Oversized
import ShellInliner.Proofs.Settings
import ShellInliner.Proofs.Word.Segments
import ShellInliner.Proofs.Grammar.Lookahead
import ShellInliner.Proofs.Visit.Rows
import ShellInliner.Proofs.Hint
