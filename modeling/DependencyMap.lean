import DependencyMap.Text.CodePoint
import DependencyMap.Text.Basic
import DependencyMap.PathMap
import DependencyMap.Text.Word
import DependencyMap.Text.Printable
import DependencyMap.Pattern.Basic
import DependencyMap.Pattern.Outcomes
import DependencyMap.Source.Language
import DependencyMap.Source.Catalogue
import DependencyMap.Source.Extraction
import DependencyMap.Resolution
import DependencyMap.Graph.Node
import DependencyMap.Analysis
import DependencyMap.Number.Binary64
import DependencyMap.Number.Numeral
import DependencyMap.Number.Lenient
import DependencyMap.Number.Shortest
import DependencyMap.Json.Value
import DependencyMap.Json.Reader
import DependencyMap.Wire
import DependencyMap.Text.Utf8
import DependencyMap.Json.Encoding
import DependencyMap.Http.Message
import DependencyMap.Http.Service
import DependencyMap.Number.Real
import DependencyMap.Toml.Value
import DependencyMap.Toml.Fault
import DependencyMap.Toml.Layout
import DependencyMap.Toml.Literal
import DependencyMap.Toml.Moment
import DependencyMap.Toml.Number
import DependencyMap.Toml.Pieces
import DependencyMap.Toml.Entry
import DependencyMap.Toml.Reading
import DependencyMap.Toml.Document
import DependencyMap.Settings
import DependencyMap.FileTree.Basic
import DependencyMap.FileTree.Resolving
import DependencyMap.FileTree.Loading
import DependencyMap.Command.Options
import DependencyMap.Command.Report
import DependencyMap.Command.Run
import DependencyMap.Main
import DependencyMap.Proofs.Text.Segments
import DependencyMap.Proofs.PathMap
import DependencyMap.Proofs.Inbound
import DependencyMap.Proofs.Graph
import DependencyMap.Proofs.Ranking
import DependencyMap.Proofs.Analysis
import DependencyMap.Proofs.Resolution
import DependencyMap.Proofs.Specifiers
import DependencyMap.Proofs.IndexFiles
import DependencyMap.Proofs.Packages
import DependencyMap.Proofs.Changes
import DependencyMap.Proofs.Shape
import DependencyMap.Proofs.Payload
import DependencyMap.Proofs.FileOrder
import DependencyMap.Proofs.Pattern.Running
import DependencyMap.Proofs.Pattern.Extending
import DependencyMap.Proofs.Pattern.Matching
import DependencyMap.Proofs.Pattern.Taking
import DependencyMap.Proofs.Pattern.Signs
import DependencyMap.Proofs.Pattern.Keeping
import DependencyMap.Proofs.Pattern.Ways
import DependencyMap.Proofs.Names
import DependencyMap.Proofs.Imports.Printing
import DependencyMap.Proofs.Imports.Clause
import DependencyMap.Proofs.Imports.Reading
import DependencyMap.Proofs.Imports.RoundTrip
import DependencyMap.Proofs.Imports.Joining
import DependencyMap.Proofs.Imports.WellFormed
import DependencyMap.Proofs.Imports.TypeOnly
import DependencyMap.Proofs.Imports.Typescript
import DependencyMap.Proofs.Imports.GoSource
import DependencyMap.Proofs.Imports.GoReading
import DependencyMap.Proofs.Imports.GoExtraction
import DependencyMap.Proofs.Exports.RoundTrip
import DependencyMap.Proofs.Text.Utf8
import DependencyMap.Proofs.FileTree.Walking
import DependencyMap.Proofs.FileTree.Removing
import DependencyMap.Proofs.FileTree.Loading
import DependencyMap.Proofs.Text.Returns
import DependencyMap.Proofs.Pattern.Returns
import DependencyMap.Proofs.Imports.Python
import DependencyMap.Proofs.LineEndings
import DependencyMap.Proofs.Text.Digits
import DependencyMap.Proofs.Json.Strings
import DependencyMap.Proofs.Json.Values
import DependencyMap.Proofs.Json.Encoding
import DependencyMap.Proofs.Json.Steps
import DependencyMap.Proofs.Json.Nesting
import DependencyMap.Proofs.Wire
import DependencyMap.Proofs.Service
import DependencyMap.Proofs.FirstPlaces
import DependencyMap.Proofs.SourceNode
import DependencyMap.Proofs.Exports.WellFormed
import DependencyMap.Proofs.Pattern.Completing
import DependencyMap.Proofs.Exports.Appending
import DependencyMap.Proofs.Settings
import DependencyMap.Proofs.Outcomes
import DependencyMap.Proofs.Slashes
import DependencyMap.Proofs.Requests
import DependencyMap.Proofs.FileTree.Canonical
import DependencyMap.Proofs.FileTree.Resolving
import DependencyMap.Proofs.Command.Analyzing
