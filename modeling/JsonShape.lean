import JsonShape.Binary64
import JsonShape.Binary64.Rounding
import JsonShape.Binary64.Shortest
import JsonShape.Binary64.Written
import JsonShape.Command.Arguments
import JsonShape.Command.Help
import JsonShape.Command.Run
import JsonShape.Command.Status
import JsonShape.Command.Switch
import JsonShape.Command.Usage
import JsonShape.Command.Word
import JsonShape.Decimal
import JsonShape.Digits
import JsonShape.Entries
import JsonShape.FileTree
import JsonShape.Inference
import JsonShape.Json.Lexing
import JsonShape.Json.Reading
import JsonShape.Json.Token
import JsonShape.Main
import JsonShape.Message
import JsonShape.Nesting
import JsonShape.Output
import JsonShape.Path
import JsonShape.Range
import JsonShape.Schema
import JsonShape.Schema.Json
import JsonShape.Schema.Yaml
import JsonShape.Session
import JsonShape.Shape
import JsonShape.Shape.Fields
import JsonShape.Shape.Merge
import JsonShape.Source
import JsonShape.Survey
import JsonShape.Tally
import JsonShape.Text.Columns
import JsonShape.Text.Digit
import JsonShape.Text.Grouped
import JsonShape.Text.Hex
import JsonShape.Text.Loose
import JsonShape.Text.Markup
import JsonShape.Text.Pattern
import JsonShape.Text.Printable
import JsonShape.Text.Quoted
import JsonShape.Text.Shown
import JsonShape.Text.Wrapped
import JsonShape.Value
import JsonShape.Yaml.Plain
import JsonShape.Yaml.Scalar
import JsonShape.Zig.Identifier
import JsonShape.Zig.Script
import JsonShape.Zig.Spelling
import JsonShape.Zig.Writing
import JsonShape.Proofs.Binary64.Order
import JsonShape.Proofs.Range
import JsonShape.Proofs.Inference.Acceptance
import JsonShape.Proofs.Inference.Positions
import JsonShape.Proofs.Inference.Columns
import JsonShape.Proofs.Shape.Presentation
import JsonShape.Proofs.Shape.Antisymmetry
import JsonShape.Proofs.Inference.Permutation
import JsonShape.Proofs.Entries
import JsonShape.Proofs.Json.Written
import JsonShape.Proofs.Json.Reading
import JsonShape.Proofs.Source
import JsonShape.Proofs.Shape.Core
import JsonShape.Proofs.Shape.Associativity
import JsonShape.Proofs.Shape.Grouping
import JsonShape.Proofs.Survey
import JsonShape.Proofs.Streaming
import JsonShape.Proofs.Shape.Narrow
import JsonShape.Proofs.Shape.Bounds
import JsonShape.Proofs.Session
import JsonShape.Proofs.FileTree
import JsonShape.Proofs.Loose
import JsonShape.Proofs.Zig.Script
import JsonShape.Proofs.Command.Texts
import JsonShape.Proofs.Command.Intake
import JsonShape.Proofs.Command
import JsonShape.Proofs.Binary64.Rounding
import JsonShape.Proofs.Binary64.Decimal
import JsonShape.Proofs.Json.Lexing
import JsonShape.Proofs.Json.Numeral
import JsonShape.Proofs.Json.Telling
import JsonShape.Proofs.Schema
import JsonShape.Proofs.Schema.Text
import JsonShape.Proofs.Schema.Json
import JsonShape.Proofs.Shape.Origins
import JsonShape.Proofs.Shape.Placement
import JsonShape.Proofs.Shape.Genuine
import JsonShape.Proofs.Shape.Reconciliation
import JsonShape.Proofs.Shape.Commutativity
import JsonShape.Proofs.Zig.Skeleton
import JsonShape.Proofs.Inference.Kinds
import JsonShape.Proofs.Zig.Identifier
import JsonShape.Proofs.Zig.Emission
import JsonShape.Proofs.Zig.Layout
import JsonShape.Proofs.Zig.Structs
import JsonShape.Proofs.Inference.Structs
import JsonShape.Proofs.Zig.Uniqueness
import JsonShape.Proofs.Inference.Success
import JsonShape.Proofs.Inference.Roots
import JsonShape.Proofs.Shape.Idempotence
import JsonShape.Proofs.Inference.Growth
import JsonShape.Proofs.Inference.Unknowns
import JsonShape.Proofs.Zig.Indentation
import JsonShape.Proofs.Zig.Sink
import JsonShape.Proofs.Binary64.Exact
import JsonShape.Proofs.Shape.Widening
import JsonShape.Proofs.Schema.Decoding
import JsonShape.Proofs.Inference.Faults
import JsonShape.Proofs.Path
import JsonShape.Proofs.Precedence
import JsonShape.Proofs.Session.Independence
import JsonShape.Proofs.Shape.Work
