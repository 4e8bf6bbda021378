import Inlay.Text.Basic
import Inlay.Text.Utf8
import Inlay.Text.Blank
import Inlay.Text.CharClass
import Inlay.Number.Total
import Inlay.Number.Word
import Inlay.Number.Double
import Inlay.Number.Shortest
import Inlay.Json.Basic
import Inlay.Json.Raw
import Inlay.Json.Reader
import Inlay.Json.Printer
import Inlay.Tree.Location
import Inlay.Tree.Node
import Inlay.Tree.Comment
import Inlay.Tree.Walk
import Inlay.Message.Basic
import Inlay.Message.Wire
import Inlay.Message.Fixing
import Inlay.Tree.Wire
import Inlay.Block.RangeMap
import Inlay.Block.Basic
import Inlay.Block.Relocate
import Inlay.Message.Report
import Inlay.Command.Program
import Inlay.Command.Parser
import Inlay.Command.Linter
import Inlay.Markdown.Line
import Inlay.Markdown.Reference
import Inlay.Markdown.Html
import Inlay.Markdown.Element
import Inlay.Markdown.Leaf
import Inlay.Markdown.Definition
import Inlay.Markdown.Draft
import Inlay.Markdown.Container
import Inlay.Markdown.Flow
import Inlay.Markdown.Neighbour
import Inlay.Markdown.Address
import Inlay.Markdown.Angle
import Inlay.Markdown.Piece
import Inlay.Markdown.Inline
import Inlay.Markdown.Document
import Inlay.Path.Basic
import Inlay.Path.Glob
import Inlay.Path.GlobSet
import Inlay.Files.Tree
import Inlay.Config.Relaxed
import Inlay.Config.Schema
import Inlay.Config.Basic
import Inlay.Config.Load
import Inlay.Files.Finder
import Inlay.Lint.Failure
import Inlay.Lint.Cycle
import Inlay.Lint.Processor
import Inlay.Files.Fixing
import Inlay.Cli.Arguments
import Inlay.Cli.Report
import Inlay.Cli.Run
import Inlay.Main
import Inlay.Proofs.Boundary
import Inlay.Proofs.Lines
import Inlay.Proofs.Alignment
import Inlay.Proofs.Overlap
import Inlay.Proofs.Replacement
import Inlay.Proofs.Pipeline
import Inlay.Proofs.Outcomes
import Inlay.Proofs.Positions
import Inlay.Proofs.Provenance
import Inlay.Proofs.Rounds
import Inlay.Proofs.Commutation
import Inlay.Proofs.Anchors
import Inlay.Proofs.Coordinates
import Inlay.Proofs.Confinement
import Inlay.Proofs.Addresses
import Inlay.Proofs.Traversal
import Inlay.Proofs.Extraction
import Inlay.Proofs.FixRuns
import Inlay.Proofs.Discovery
import Inlay.Proofs.Selection
import Inlay.Proofs.Monotonicity
import Inlay.Proofs.Indentation
import Inlay.Proofs.Enclosure
import Inlay.Proofs.Recognition
import Inlay.Proofs.Reordering
import Inlay.Proofs.Pruning
import Inlay.Proofs.Decoding
import Inlay.Proofs.Suppression
import Inlay.Proofs.Overflow
import Inlay.Proofs.FailingLinters
import Inlay.Proofs.Words
import Inlay.Proofs.Correspondence
import Inlay.Proofs.FieldOrder
import Inlay.Proofs.MessageForm
import Inlay.Proofs.Characters
import Inlay.Proofs.Spelling
import Inlay.Proofs.Scalars
import Inlay.Proofs.Reading
import Inlay.Proofs.MessageTexts
import Inlay.Proofs.ReportTexts
import Inlay.Proofs.ConfigForm
import Inlay.Proofs.RelaxedReading
import Inlay.Proofs.ConfigTexts
import Inlay.Proofs.Listing
import Inlay.Proofs.Places
import Inlay.Proofs.Preamble
import Inlay.Proofs.Residues
import Inlay.Proofs.Walks
