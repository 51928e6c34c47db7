import Marginalia.Command.Arguments
import Marginalia.Command.At
import Marginalia.Command.Identifier
import Marginalia.Command.Json
import Marginalia.Command.Languages
import Marginalia.Command.Outcome
import Marginalia.Command.Run
import Marginalia.Command.Scan
import Marginalia.Command.Surroundings
import Marginalia.Comment.Delimited
import Marginalia.Comment.DocRun
import Marginalia.Comment.Marker
import Marginalia.Comment.Style
import Marginalia.Diagram.Code
import Marginalia.Diagram.Extract
import Marginalia.Diagram.Heading
import Marginalia.Diagram.Keyword
import Marginalia.Document
import Marginalia.FileTree
import Marginalia.Glob
import Marginalia.Ignore.GitLink
import Marginalia.Ignore.Lines
import Marginalia.Ignore.Pattern
import Marginalia.Ignore.PatternReader
import Marginalia.Ignore.Rule
import Marginalia.Ignore.View
import Marginalia.Ignore.Walk
import Marginalia.Language
import Marginalia.LineNumber
import Marginalia.LineRange
import Marginalia.Main
import Marginalia.Path
import Marginalia.Proofs.Comment.Marker
import Marginalia.Proofs.Text.Occurrence
import Marginalia.Settings.Basic
import Marginalia.Settings.Configuration
import Marginalia.Settings.Session
import Marginalia.Text.Basic
import Marginalia.Text.Blank
import Marginalia.Text.Fold
import Marginalia.Text.LineIndex
import Marginalia.Text.Lines
import Marginalia.Text.Raw
import Marginalia.Toml.Document
import Marginalia.Toml.Scalar
import Marginalia.Toml.Table
import Marginalia.Toml.Value
import Marginalia.Proofs.Comment.Plain
import Marginalia.Proofs.Comment.Search
import Marginalia.Proofs.Comment.Discovery
import Marginalia.Proofs.Document
import Marginalia.Proofs.Text.Lines
import Marginalia.Proofs.Comment.Announcement
import Marginalia.Proofs.Diagram.Extract
import Marginalia.Proofs.Embedding
import Marginalia.Proofs.Comment.Pairing
import Marginalia.Proofs.Docstrings
import Marginalia.Proofs.Comment.Sighting
import Marginalia.Proofs.Comment.Append
import Marginalia.Proofs.Findings
import Marginalia.Proofs.Concatenation
import Marginalia.Proofs.Text.Trim
import Marginalia.Proofs.Diagram.Trace
import Marginalia.Proofs.Tracing
import Marginalia.Proofs.Text.Padding
import Marginalia.Proofs.Comment.Padding
import Marginalia.Proofs.LineEndings
import Marginalia.Proofs.Tidiness
import Marginalia.Proofs.Ranges
import Marginalia.Proofs.Settings.Tables
import Marginalia.Proofs.Settings.History
import Marginalia.Proofs.Path
import Marginalia.Proofs.FileTree
import Marginalia.Proofs.Ignore.Walk
import Marginalia.Proofs.Command.Selection
import Marginalia.Proofs.Command.Arguments
import Marginalia.Proofs.Command.Report
import Marginalia.Proofs.Command.Lookup
import Marginalia.Proofs.Command.Isolation
import Marginalia.Proofs.Diagram.Hanging
import Marginalia.Proofs.Indentation
import Marginalia.Proofs.Diagram.Window
import Marginalia.Proofs.Diagram.Fixpoint
import Marginalia.Proofs.Diagram.Surroundings
import Marginalia.Proofs.Text.Indentation
import Marginalia.Proofs.Margin
import Marginalia.Proofs.Text.Dedent
import Marginalia.Proofs.Acceptance
import Marginalia.Proofs.Text.Regex
import Marginalia.Proofs.Comment.Expression
import Marginalia.Proofs.Comment.Wording
import Marginalia.Proofs.Comment.RunExpression
import Marginalia.Proofs.Comment.RunLines
import Marginalia.Proofs.Settings.Lookup
import Marginalia.Proofs.Command.Listing
import Marginalia.Proofs.Command.Overlap
import Marginalia.Proofs.Text.Bytes
import Marginalia.Proofs.Text.Raw
import Marginalia.Proofs.LineIndex
import Marginalia.Proofs.Length
import Marginalia.Proofs.Text.Slice
import Marginalia.Proofs.Comment.Cursor
import Marginalia.Proofs.Text.Fold
import Marginalia.Proofs.Diagram.Classification
