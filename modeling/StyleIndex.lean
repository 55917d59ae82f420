import StyleIndex.Command.Basic
import StyleIndex.Command.Flag
import StyleIndex.Command.Print
import StyleIndex.Command.Result
import StyleIndex.Command.Run
import StyleIndex.Data.Answer
import StyleIndex.Data.Coerce
import StyleIndex.Data.Json
import StyleIndex.Data.JsonText
import StyleIndex.Data.Value
import StyleIndex.Data.Yaml.Block
import StyleIndex.Data.Yaml.Flow
import StyleIndex.Data.Yaml.Scalar
import StyleIndex.Digest
import StyleIndex.Discovery.Basic
import StyleIndex.Discovery.Walk
import StyleIndex.Editor.Call
import StyleIndex.Editor.Completion
import StyleIndex.Editor.Cursor
import StyleIndex.Editor.Hover
import StyleIndex.Editor.Location
import StyleIndex.Editor.Reference
import StyleIndex.Editor.Request
import StyleIndex.FileSystem
import StyleIndex.Glob.Basic
import StyleIndex.Glob.Matcher
import StyleIndex.Glob.Pattern
import StyleIndex.ImportGraph.Basic
import StyleIndex.ImportGraph.Cycle
import StyleIndex.ImportGraph.Query
import StyleIndex.Index.Basic
import StyleIndex.Index.Scan
import StyleIndex.Main
import StyleIndex.Manager
import StyleIndex.Number.Binary64
import StyleIndex.Number.Shortest
import StyleIndex.Path
import StyleIndex.Position
import StyleIndex.Proofs.Command.Caret
import StyleIndex.Proofs.Editor.Comment
import StyleIndex.Proofs.Editor.Definition
import StyleIndex.Proofs.Editor.EnclosingCall
import StyleIndex.Proofs.Editor.LocalBinding
import StyleIndex.Proofs.Editor.OpenCall
import StyleIndex.Proofs.Editor.Recovery
import StyleIndex.Proofs.Editor.Reference
import StyleIndex.Proofs.Editor.Suggestion
import StyleIndex.Proofs.Files.Discovery
import StyleIndex.Proofs.Files.Following
import StyleIndex.Proofs.Files.Ignoring
import StyleIndex.Proofs.Grammar.Acceptance
import StyleIndex.Proofs.Grammar.Boundary
import StyleIndex.Proofs.Grammar.Concatenation
import StyleIndex.Proofs.Grammar.Derivation
import StyleIndex.Proofs.Grammar.Fault
import StyleIndex.Proofs.Grammar.Interior
import StyleIndex.Proofs.Grammar.Lexeme
import StyleIndex.Proofs.Grammar.Nesting
import StyleIndex.Proofs.Grammar.Placement
import StyleIndex.Proofs.Grammar.Region
import StyleIndex.Proofs.Grammar.Repair
import StyleIndex.Proofs.ImportGraph.Components
import StyleIndex.Proofs.ImportGraph.Distance
import StyleIndex.Proofs.ImportGraph.Refinement
import StyleIndex.Proofs.ImportGraph.Update
import StyleIndex.Proofs.Path.Below
import StyleIndex.Proofs.Path.Normal
import StyleIndex.Proofs.Resolution.Locality
import StyleIndex.Proofs.Resolution.Shadowing
import StyleIndex.Proofs.Scan.Cache
import StyleIndex.Proofs.Scan.Cancellation
import StyleIndex.Proofs.Scan.Closure
import StyleIndex.Proofs.Scan.Convergence
import StyleIndex.Proofs.Scan.Edges
import StyleIndex.Proofs.Scan.Failure
import StyleIndex.Proofs.Scan.Freshness
import StyleIndex.Proofs.Scan.History
import StyleIndex.Proofs.Scan.NewSettings
import StyleIndex.Proofs.Scan.Record
import StyleIndex.Proofs.Scan.Schedule
import StyleIndex.Proofs.Scan.Step
import StyleIndex.Proofs.Search.Completeness
import StyleIndex.Proofs.Symbol.Agreement
import StyleIndex.Proofs.Symbol.Containment
import StyleIndex.Proofs.Symbol.Cutting
import StyleIndex.Proofs.Symbol.ImportPath
import StyleIndex.Proofs.Symbol.Layout
import StyleIndex.Proofs.Symbol.ParameterList
import StyleIndex.Proofs.Symbol.Record
import StyleIndex.Proofs.Symbol.Scope
import StyleIndex.Proofs.Symbol.Signature
import StyleIndex.Proofs.Symbol.SourceSpan
import StyleIndex.Proofs.Symbol.Span
import StyleIndex.Proofs.Symbol.Value
import StyleIndex.Proofs.Text.Decoding
import StyleIndex.Proofs.Text.LineTable
import StyleIndex.Proofs.Text.Position
import StyleIndex.Proofs.Text.Search
import StyleIndex.Proofs.Watcher.Delivery
import StyleIndex.Proofs.Workspace.Routing
import StyleIndex.Search.Basic
import StyleIndex.Search.Similarity
import StyleIndex.Settings.Basic
import StyleIndex.Settings.Load
import StyleIndex.Settings.Validate
import StyleIndex.Store
import StyleIndex.Stylesheet.Closing
import StyleIndex.Stylesheet.Node
import StyleIndex.Stylesheet.Parse
import StyleIndex.Stylesheet.Pieces
import StyleIndex.Stylesheet.Statement
import StyleIndex.Stylesheet.Token
import StyleIndex.Symbol.Basic
import StyleIndex.Symbol.Extract
import StyleIndex.Symbol.Import
import StyleIndex.Symbol.Reference
import StyleIndex.Text.Basic
import StyleIndex.Text.Blank
import StyleIndex.Text.Case
import StyleIndex.Text.Numeral
import StyleIndex.Text.Printable
import StyleIndex.Text.Quoted
import StyleIndex.Text.Utf8
import StyleIndex.Tool.Arguments
import StyleIndex.Tool.Basic
import StyleIndex.Visible
import StyleIndex.Watcher
import StyleIndex.Workspace
