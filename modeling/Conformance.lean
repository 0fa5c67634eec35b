import Conformance.Analysis
import Conformance.Command
import Conformance.CommandLine
import Conformance.CommandLine.Word
import Conformance.DataView
import Conformance.Datum
import Conformance.Decimal
import Conformance.Descriptor
import Conformance.Descriptor.Render
import Conformance.EdgeSet
import Conformance.EdgeSet.Views
import Conformance.FileTree
import Conformance.Grammar
import Conformance.Grammar.ParameterList
import Conformance.Grammar.Types
import Conformance.Json
import Conformance.Json.Layout
import Conformance.Lens
import Conformance.Main
import Conformance.Matching
import Conformance.MethodSet
import Conformance.Path
import Conformance.Problem
import Conformance.Program
import Conformance.Program.Edges
import Conformance.Program.Flattening
import Conformance.Program.Names
import Conformance.Program.Resolution
import Conformance.Program.Spreading
import Conformance.Proofs.Descriptor
import Conformance.Proofs.EdgeSet
import Conformance.Proofs.EdgeSet.Views
import Conformance.Proofs.Embedding
import Conformance.Proofs.Expansion
import Conformance.Proofs.Fitting
import Conformance.Proofs.Flattening
import Conformance.Proofs.Flattening.Course
import Conformance.Proofs.Flattening.Cycles
import Conformance.Proofs.Grammar.Faults
import Conformance.Proofs.Grammar.Grouping
import Conformance.Proofs.Grammar.Layout
import Conformance.Proofs.Grammar.Naming
import Conformance.Proofs.Grammar.Nesting
import Conformance.Proofs.Grammar.Progress
import Conformance.Proofs.Grammar.Reading
import Conformance.Proofs.Grammar.Recorded
import Conformance.Proofs.Grammar.Recorded.Following
import Conformance.Proofs.Grammar.Recorded.Grammar
import Conformance.Proofs.Grammar.Recorded.Pace
import Conformance.Proofs.Grammar.Regular
import Conformance.Proofs.Grammar.Rereading
import Conformance.Proofs.Grammar.RoundTrip
import Conformance.Proofs.Grammar.Spelling
import Conformance.Proofs.Grammar.UniqueText
import Conformance.Proofs.Grammar.Yield
import Conformance.Proofs.GroundComparison
import Conformance.Proofs.Lens
import Conformance.Proofs.Marking
import Conformance.Proofs.Marking.Places
import Conformance.Proofs.Matching
import Conformance.Proofs.MethodSet
import Conformance.Proofs.MethodSet.Canonical
import Conformance.Proofs.Program.DeclaredLocations
import Conformance.Proofs.Program.Edges
import Conformance.Proofs.Program.Extension
import Conformance.Proofs.Program.Inheritance
import Conformance.Proofs.Program.Merging
import Conformance.Proofs.Program.Names
import Conformance.Proofs.Program.Rearrangement
import Conformance.Proofs.Program.ReceiverPolicies
import Conformance.Proofs.Program.RenamedEdges
import Conformance.Proofs.Program.Renaming
import Conformance.Proofs.Program.ReorderedEdges
import Conformance.Proofs.Program.Reordering
import Conformance.Proofs.Program.Resolution
import Conformance.Proofs.Program.Satisfaction
import Conformance.Proofs.Program.Spreading
import Conformance.Proofs.Program.SymmetricEdges
import Conformance.Proofs.Program.UnresolvedNames
import Conformance.Proofs.Program.Validity
import Conformance.Proofs.Program.WellFormed
import Conformance.Proofs.Renaming
import Conformance.Proofs.Renaming.Marking
import Conformance.Proofs.Reordering
import Conformance.Proofs.Reordering.Comparison
import Conformance.Proofs.Reordering.Marking
import Conformance.Proofs.Settings
import Conformance.Proofs.SymbolTable.Loading
import Conformance.Proofs.Token
import Conformance.Proofs.Token.Lexeme
import Conformance.Proofs.Token.Tiling
import Conformance.Proofs.Token.Unread
import Conformance.Reader
import Conformance.Report
import Conformance.Report.Markdown
import Conformance.Report.Record
import Conformance.Report.Terminal
import Conformance.Report.Written
import Conformance.Run
import Conformance.Settings
import Conformance.SymbolTable
import Conformance.SymbolTable.Decoding
import Conformance.SymbolTable.Format
import Conformance.SymbolTable.Loading
import Conformance.Text.Blank
import Conformance.Text.DecimalDigit
import Conformance.Text.Join
import Conformance.Text.Letter
import Conformance.Text.Ranges
import Conformance.Token
import Conformance.Token.Scan
import Conformance.Toml
import Conformance.Toml.Quoted
import Conformance.Toml.Scalar
import Conformance.Toml.Statement
import Conformance.Yaml
import Conformance.Yaml.Node
import Conformance.Yaml.ScalarText
import Conformance.Yaml.Schema
import Conformance.Yaml.Tag
import Conformance.Yaml.Token
import Conformance.Yaml.Token.Scan
import Conformance.Yaml.Tree
