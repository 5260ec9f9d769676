import PartialResponse.Text.LowerCase
import PartialResponse.Text.Blank
import PartialResponse.Text.Digits
import PartialResponse.Text.Lines
import PartialResponse.Text.Utf8
import PartialResponse.Text.Terminal
import PartialResponse.Number.Binary64
import PartialResponse.Number.Basic
import PartialResponse.Tree.Properties
import PartialResponse.Tree.Basic
import PartialResponse.Tree.Visitor
import PartialResponse.Selector.Basic
import PartialResponse.Selector.Selection
import PartialResponse.Selector.Parser
import PartialResponse.Selector.Matching
import PartialResponse.Selector.Outcome
import PartialResponse.Prune.Criterion
import PartialResponse.Prune.MatchCache
import PartialResponse.Prune.Pass
import PartialResponse.Log
import PartialResponse.Json.Float
import PartialResponse.Json.Token
import PartialResponse.Json.Parser
import PartialResponse.Json.Printer
import PartialResponse.Json.Value
import PartialResponse.Yaml.Fault
import PartialResponse.Yaml.Cursor
import PartialResponse.Yaml.Tag
import PartialResponse.Yaml.Token.Basic
import PartialResponse.Yaml.Token.Scalar
import PartialResponse.Yaml.Token.Tag
import PartialResponse.Yaml.Token.Stream
import PartialResponse.Yaml.Event
import PartialResponse.Yaml.Node
import PartialResponse.Yaml.Schema
import PartialResponse.Yaml.Value.Basic
import PartialResponse.Yaml.Value.Merge
import PartialResponse.Yaml.Value.Tree
import PartialResponse.Yaml.Data
import PartialResponse.Yaml.Printer.Text
import PartialResponse.Yaml.Printer.Document
import PartialResponse.Toml.Value
import PartialResponse.Toml.Text
import PartialResponse.Toml.Scalar
import PartialResponse.Toml.Reader
import PartialResponse.Toml.Printer
import PartialResponse.Gzip.Checksum
import PartialResponse.Gzip.Bits
import PartialResponse.Gzip.Code
import PartialResponse.Gzip.Deflate
import PartialResponse.Gzip.Member
import PartialResponse.Files.Path
import PartialResponse.Files.Access
import PartialResponse.Files.Disk
import PartialResponse.Document.Basic
import PartialResponse.Document.Reader
import PartialResponse.Document.Writer
import PartialResponse.Document.Prune
import PartialResponse.Document.Output
import PartialResponse.Document.Input
import PartialResponse.Document.File
import PartialResponse.Config.Basic
import PartialResponse.Config.Text
import PartialResponse.Config.File
import PartialResponse.Http.Status
import PartialResponse.Http.Form
import PartialResponse.Http.Target
import PartialResponse.Http.Headers
import PartialResponse.Http.Response
import PartialResponse.Http.Request
import PartialResponse.Http.Formatter
import PartialResponse.CommandLine.Arguments
import PartialResponse.CommandLine.Run
import PartialResponse.CommandLine.Report
import PartialResponse.Main
import PartialResponse.Proofs.Text.Digits
import PartialResponse.Proofs.Tree.Contents
import PartialResponse.Proofs.Tree.Parts
import PartialResponse.Proofs.Json.Numbers
import PartialResponse.Proofs.Json.Tokens
import PartialResponse.Proofs.Selector.Prefix
import PartialResponse.Proofs.Prune.Thinning
import PartialResponse.Proofs.Prune.Leaves
import PartialResponse.Proofs.Prune.Refinement
import PartialResponse.Proofs.Prune.Algebra
import PartialResponse.Proofs.Selector.Grammar
import PartialResponse.Proofs.Selector.Parsing
import PartialResponse.Proofs.Prune.Unselected
import PartialResponse.Proofs.Selector.Failure
import PartialResponse.Proofs.Yaml.Cursor
import PartialResponse.Proofs.Yaml.Taking
import PartialResponse.Proofs.Yaml.Supply
import PartialResponse.Proofs.Yaml.Plain
import PartialResponse.Proofs.Yaml.Quoted
import PartialResponse.Proofs.Yaml.Literal
import PartialResponse.Proofs.Yaml.Steps
import PartialResponse.Proofs.Yaml.Marks
import PartialResponse.Proofs.Yaml.Numbers
import PartialResponse.Proofs.Yaml.Styles
import PartialResponse.Proofs.Yaml.Scanning
import PartialResponse.Proofs.Yaml.Texts
import PartialResponse.Proofs.Yaml.Events
import PartialResponse.Proofs.Yaml.Nodes
import PartialResponse.Proofs.Yaml.Keys
import PartialResponse.Proofs.Yaml.MergeKeys
import PartialResponse.Proofs.Yaml.Values
import PartialResponse.Proofs.Document.YamlRoundTrip
import PartialResponse.Proofs.Document.MergeKeys
import PartialResponse.Proofs.Json.Values
import PartialResponse.Proofs.Document.JsonRoundTrip
import PartialResponse.Proofs.Json.Lines
import PartialResponse.Proofs.Text.Utf8
import PartialResponse.Proofs.Document.Detection
import PartialResponse.Proofs.Http.Formatter
import PartialResponse.Proofs.Http.Session
import PartialResponse.Proofs.CommandLine.Arguments
import PartialResponse.Proofs.Document.FileNames
import PartialResponse.Proofs.CommandLine.Agreement
import PartialResponse.Files.Faults
import PartialResponse.Proofs.Files.Temporary
import PartialResponse.Proofs.Files.Saving
import PartialResponse.Proofs.Document.Saving
import PartialResponse.Proofs.Document.FileRoundTrip
import PartialResponse.Proofs.CommandLine.Effects
import PartialResponse.Proofs.Selector.Editing
import PartialResponse.Proofs.Selector.Forms
import PartialResponse.Proofs.Selector.Interchange
import PartialResponse.Proofs.Tree.Places
import PartialResponse.Proofs.Prune.Union
import PartialResponse.Proofs.Prune.Cache
import PartialResponse.Proofs.Prune.Unspelled
import PartialResponse.Proofs.Prune.Counts
import PartialResponse.Proofs.Tree.Reordering
import PartialResponse.Proofs.Prune.Reordering
import PartialResponse.Proofs.Http.Frame
import PartialResponse.Proofs.Text.Lines
import PartialResponse.Proofs.Json.Trailing
import PartialResponse.Proofs.Document.JsonLines
import PartialResponse.Proofs.Gzip.Members
import PartialResponse.Proofs.Document.Members
import PartialResponse.Proofs.Json.Bounds
import PartialResponse.Proofs.Document.Conversion
import PartialResponse.Proofs.Yaml.Meaning
import PartialResponse.Proofs.Yaml.Objects
import PartialResponse.Proofs.Document.Objects
import PartialResponse.Proofs.Tree.Properties
import PartialResponse.Proofs.Json.Conversions
import PartialResponse.Proofs.Json.Reading
import PartialResponse.Proofs.Json.Routes
import PartialResponse.Proofs.Http.Form
import PartialResponse.Proofs.Selector.Rounds
import PartialResponse.Proofs.Toml.Strings
import PartialResponse.Proofs.Toml.Entries
import PartialResponse.Proofs.Config.RoundTrip
import PartialResponse.Proofs.Files.Growing
import PartialResponse.Proofs.Config.Saving
import PartialResponse.Proofs.Prune.Recall
