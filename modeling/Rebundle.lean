import Rebundle.Bootstrap
import Rebundle.CommandLine.Command
import Rebundle.CommandLine.Reading
import Rebundle.CommandLine.Words
import Rebundle.Config
import Rebundle.Datum.Basic
import Rebundle.Datum.Summary
import Rebundle.Datum.Writer
import Rebundle.Disk
import Rebundle.Document.Edit
import Rebundle.Document.Ledger
import Rebundle.Document.Render
import Rebundle.Extraction
import Rebundle.Failure
import Rebundle.FilePath
import Rebundle.Host
import Rebundle.Json.Reader
import Rebundle.Json.Value
import Rebundle.Json.Writer
import Rebundle.Log
import Rebundle.Number.Binary64
import Rebundle.Number.Reader
import Rebundle.Number.Shortest
import Rebundle.Occurrence
import Rebundle.Package
import Rebundle.Patch
import Rebundle.Proofs.CommandLine.Escaping
import Rebundle.Proofs.Config.Accepted
import Rebundle.Proofs.Datum.Summaries
import Rebundle.Proofs.Datum.Tangles
import Rebundle.Proofs.Disk.Content
import Rebundle.Proofs.Disk.Paths
import Rebundle.Proofs.Disk.Ways
import Rebundle.Proofs.Document.Covered
import Rebundle.Proofs.Document.Deletions
import Rebundle.Proofs.Document.Depth
import Rebundle.Proofs.Document.Emitted
import Rebundle.Proofs.Document.Erasure
import Rebundle.Proofs.Document.Extent
import Rebundle.Proofs.Document.Gaps
import Rebundle.Proofs.Document.Joining
import Rebundle.Proofs.Document.Ledger
import Rebundle.Proofs.Document.Order
import Rebundle.Proofs.Document.Outermost
import Rebundle.Proofs.Document.Pieces
import Rebundle.Proofs.Document.Recording
import Rebundle.Proofs.Document.Trailing
import Rebundle.Proofs.Document.Untouched
import Rebundle.Proofs.Extraction.Decomposition
import Rebundle.Proofs.Json.Bytes
import Rebundle.Proofs.Json.Embedded
import Rebundle.Proofs.Json.Literal
import Rebundle.Proofs.Number.Ratio
import Rebundle.Proofs.Package.Loading
import Rebundle.Proofs.Package.Rereading
import Rebundle.Proofs.Package.Saving
import Rebundle.Proofs.Package.State
import Rebundle.Proofs.Package.Unreadable
import Rebundle.Proofs.Release.Announced
import Rebundle.Proofs.Rewrite.Abreast
import Rebundle.Proofs.Rewrite.Agreement
import Rebundle.Proofs.Rewrite.Alphabet
import Rebundle.Proofs.Rewrite.Bodies
import Rebundle.Proofs.Rewrite.Bootstrap
import Rebundle.Proofs.Rewrite.Capture
import Rebundle.Proofs.Rewrite.Chronicle
import Rebundle.Proofs.Rewrite.Collisions
import Rebundle.Proofs.Rewrite.Covering
import Rebundle.Proofs.Rewrite.Deletion
import Rebundle.Proofs.Rewrite.Discipline
import Rebundle.Proofs.Rewrite.Doomed
import Rebundle.Proofs.Rewrite.Erased
import Rebundle.Proofs.Rewrite.Failing
import Rebundle.Proofs.Rewrite.Finished
import Rebundle.Proofs.Rewrite.Frame
import Rebundle.Proofs.Rewrite.Fresh
import Rebundle.Proofs.Rewrite.Ground
import Rebundle.Proofs.Rewrite.Imports
import Rebundle.Proofs.Rewrite.LineEnds
import Rebundle.Proofs.Rewrite.Neighbours
import Rebundle.Proofs.Rewrite.Noted
import Rebundle.Proofs.Rewrite.Occurrences
import Rebundle.Proofs.Rewrite.Overriding
import Rebundle.Proofs.Rewrite.PassOrder
import Rebundle.Proofs.Rewrite.Passes
import Rebundle.Proofs.Rewrite.Patched
import Rebundle.Proofs.Rewrite.Placeholders
import Rebundle.Proofs.Rewrite.Prefixed
import Rebundle.Proofs.Rewrite.Public
import Rebundle.Proofs.Rewrite.Recorded
import Rebundle.Proofs.Rewrite.Region
import Rebundle.Proofs.Rewrite.Relocation
import Rebundle.Proofs.Rewrite.Renamed
import Rebundle.Proofs.Rewrite.Steps
import Rebundle.Proofs.Rewrite.Temporaries
import Rebundle.Proofs.Rewrite.Wrapper
import Rebundle.Proofs.Scope.Additions
import Rebundle.Proofs.Scope.Attachment
import Rebundle.Proofs.Scope.Bindings
import Rebundle.Proofs.Scope.Chain
import Rebundle.Proofs.Scope.Declared
import Rebundle.Proofs.Scope.Entering
import Rebundle.Proofs.Scope.Free
import Rebundle.Proofs.Scope.Grammatical
import Rebundle.Proofs.Scope.Growth
import Rebundle.Proofs.Scope.Held
import Rebundle.Proofs.Scope.Innermost
import Rebundle.Proofs.Scope.Knowledge
import Rebundle.Proofs.Scope.Language
import Rebundle.Proofs.Scope.Openings
import Rebundle.Proofs.Scope.Parsed
import Rebundle.Proofs.Scope.Partition
import Rebundle.Proofs.Scope.Places
import Rebundle.Proofs.Scope.References
import Rebundle.Proofs.Scope.Sites
import Rebundle.Proofs.Scope.Stack
import Rebundle.Proofs.Scope.Stations
import Rebundle.Proofs.Script.Basic
import Rebundle.Proofs.Script.Interface
import Rebundle.Proofs.Script.Rendering
import Rebundle.Proofs.Script.Rows
import Rebundle.Proofs.Storage.Atomic
import Rebundle.Proofs.Storage.Patching
import Rebundle.Proofs.Storage.Refusing
import Rebundle.Proofs.Storage.Whole
import Rebundle.Proofs.Syntax.Accounting
import Rebundle.Proofs.Syntax.Blocks
import Rebundle.Proofs.Syntax.Calls
import Rebundle.Proofs.Syntax.Constructs
import Rebundle.Proofs.Syntax.Descent
import Rebundle.Proofs.Syntax.Keeping
import Rebundle.Proofs.Syntax.Layout
import Rebundle.Proofs.Syntax.Reached
import Rebundle.Proofs.Syntax.Regular
import Rebundle.Proofs.Table
import Rebundle.Proofs.Text.Alphabet
import Rebundle.Proofs.Text.Decoding
import Rebundle.Proofs.Text.Encoding
import Rebundle.Proofs.Text.LineEnds
import Rebundle.Proofs.Update.Admitting
import Rebundle.Proofs.Update.Closing
import Rebundle.Proofs.Update.Completion
import Rebundle.Proofs.Update.Delivered
import Rebundle.Proofs.Update.Ending
import Rebundle.Proofs.Update.Inversion
import Rebundle.Proofs.Update.Packaged
import Rebundle.Proofs.Update.Performed
import Rebundle.Proofs.Update.Planned
import Rebundle.Proofs.Update.Recognised
import Rebundle.Proofs.Update.Sparing
import Rebundle.Proofs.Update.Triple
import Rebundle.Proofs.Update.Verified
import Rebundle.Release.Download
import Rebundle.Release.Fetch
import Rebundle.Release.Version
import Rebundle.Rewrite.Body
import Rebundle.Rewrite.Context
import Rebundle.Rewrite.Modules
import Rebundle.Rewrite.Removal
import Rebundle.Rewrite.Renaming
import Rebundle.Rewrite.TopLevelAwait
import Rebundle.Scope.Analysis
import Rebundle.Scope.Basic
import Rebundle.Sha256
import Rebundle.Storage
import Rebundle.Syntax.Cursor
import Rebundle.Syntax.Dialect
import Rebundle.Syntax.ErrorSummary
import Rebundle.Syntax.Grammar
import Rebundle.Syntax.Grammar.Class
import Rebundle.Syntax.Grammar.Declaration
import Rebundle.Syntax.Grammar.Expression
import Rebundle.Syntax.Grammar.Function
import Rebundle.Syntax.Grammar.Literal
import Rebundle.Syntax.Grammar.Module
import Rebundle.Syntax.Grammar.Pattern
import Rebundle.Syntax.Grammar.Statement
import Rebundle.Syntax.Grammar.Type
import Rebundle.Syntax.Kind
import Rebundle.Syntax.Lexeme
import Rebundle.Syntax.Program
import Rebundle.Syntax.Query
import Rebundle.Syntax.Rule
import Rebundle.Syntax.Rune
import Rebundle.Syntax.Semicolon
import Rebundle.Syntax.Sprout
import Rebundle.Syntax.Tree
import Rebundle.Table
import Rebundle.Text.Basic
import Rebundle.Text.Blank
import Rebundle.Text.Case
import Rebundle.Text.Printable
import Rebundle.Text.Utf8
import Rebundle.Update.Basic
import Rebundle.Update.Registry
import Rebundle.Update.Stages
import Rebundle.World
