import WireSchema.Record
import WireSchema.Naming
import WireSchema.Source
import WireSchema.Text.Printable
import WireSchema.Text.Quoted
import WireSchema.Text.Blank
import WireSchema.Text.Numeral
import WireSchema.Bytes.Word
import WireSchema.Bytes.Hex
import WireSchema.Bytes.Base58
import WireSchema.PublicKey
import WireSchema.Floating.Format
import WireSchema.Floating.Decimal
import WireSchema.Floating.Text
import WireSchema.Json.Basic
import WireSchema.Json.Printer
import WireSchema.Json.Path
import WireSchema.Json.Error
import WireSchema.Json.Draft
import WireSchema.Json.Scan.String
import WireSchema.Json.Scan.Number
import WireSchema.Json.Scan.Value
import WireSchema.Json.Parser
import WireSchema.Schema.Basic
import WireSchema.Schema.Error
import WireSchema.Schema.Form
import WireSchema.Schema.Loader
import WireSchema.Schema.References
import WireSchema.Schema.Table
import WireSchema.Layout.Basic
import WireSchema.Layout.Text
import WireSchema.Layout.Size
import WireSchema.Layout.Synthesis
import WireSchema.Codec.Tree
import WireSchema.Codec.Error
import WireSchema.Codec.Writer
import WireSchema.Codec.Reader
import WireSchema.Codec.Encode
import WireSchema.Codec.Parse
import WireSchema.Value
import WireSchema.Convert.Error
import WireSchema.Convert.Access
import WireSchema.Convert.Members
import WireSchema.Convert.OfTree
import WireSchema.Convert.ToTree
import WireSchema.Convert.ToJson
import WireSchema.Convert.OfJson
import WireSchema.Rendering.TypeText
import WireSchema.Rendering.Expression
import WireSchema.Rendering.Members
import WireSchema.Rendering.StructModule
import WireSchema.Rendering.EnumModule
import WireSchema.Catalog
import WireSchema.Bundle
import WireSchema.Rendering.Package
import WireSchema.Floating.Arithmetic
import WireSchema.Query.Filter
import WireSchema.Query.Order
import WireSchema.Query.Operation
import WireSchema.Query.Evaluation
import WireSchema.Query.Token
import WireSchema.Query.Parser
import WireSchema.Query.Run
import WireSchema.CommandLine.Arguments
import WireSchema.CommandLine.Pattern
import WireSchema.CommandLine.Host
import WireSchema.CommandLine.Memory
import WireSchema.CommandLine.Error
import WireSchema.CommandLine.Run
import WireSchema.Main
import WireSchema.Proofs.Floating.Exact
import WireSchema.Proofs.Floating.Fields
import WireSchema.Proofs.Bytes.Word
import WireSchema.Proofs.Codec.Reading
import WireSchema.Proofs.Floating.Widening
import WireSchema.Proofs.Codec.NormalForm
import WireSchema.Proofs.Codec.Canonical
import WireSchema.Proofs.Outcome
import WireSchema.Proofs.Schema.Names
import WireSchema.Proofs.Layout.Synthesis
import WireSchema.Proofs.Convert.HasTree
import WireSchema.Proofs.Convert.OfTree
import WireSchema.Proofs.Convert.Decodes
import WireSchema.Proofs.Bundle
import WireSchema.Proofs.Convert.ToTree
import WireSchema.Proofs.Codec.Failures
import WireSchema.Proofs.Codec.Locality
import WireSchema.Proofs.Schema.Containment
import WireSchema.Proofs.Schema.Reachability
import WireSchema.Proofs.Schema.WellFormed
import WireSchema.Proofs.Schema.References
import WireSchema.Proofs.Bundle.Decoding
import WireSchema.Proofs.Convert.Parts
import WireSchema.Proofs.Codec.Limits
import WireSchema.Proofs.Convert.Borsh
import WireSchema.Proofs.Convert.Encodes
import WireSchema.Proofs.Convert.Belongs
import WireSchema.Proofs.Convert.OfJson
import WireSchema.Proofs.Bundle.Encoding
import WireSchema.Proofs.Bytes.Base58
import WireSchema.Proofs.Convert.Collapse
import WireSchema.Proofs.Text.Numeral
import WireSchema.Proofs.Text.Blank
import WireSchema.Proofs.Convert.ToJson
import WireSchema.Proofs.Convert.Mirrors
import WireSchema.Proofs.Convert.Plain
import WireSchema.Proofs.Convert.Stability
import WireSchema.Proofs.Rendering.InlineTypes
import WireSchema.Proofs.Convert.Forms
import WireSchema.Proofs.Convert.Acceptance
import WireSchema.Proofs.Rendering.Identifiers
import WireSchema.Proofs.CommandLine.Files
import WireSchema.Proofs.Rendering.Package
import WireSchema.Proofs.Json.Draft
import WireSchema.Proofs.Schema.Form
import WireSchema.Proofs.Schema.Spelling
import WireSchema.Proofs.Convert.Trimmed
import WireSchema.Proofs.Convert.HasType
import WireSchema.Proofs.Bundle.Construction
import WireSchema.Proofs.Bundle.Dispatch
import WireSchema.Proofs.Json.Merge
import WireSchema.Proofs.Schema.Merging
import WireSchema.Proofs.Schema.Loading
import WireSchema.Proofs.Schema.Agreement
import WireSchema.Proofs.Bytes.Hex
import WireSchema.Proofs.Json.Tokens
import WireSchema.Proofs.Json.Text
import WireSchema.Proofs.Convert.Floats
import WireSchema.Proofs.Convert.Depth
import WireSchema.Proofs.Convert.Written
import WireSchema.Proofs.Bundle.Printing
import WireSchema.Proofs.CommandLine.Actions
import WireSchema.Proofs.CommandLine.RoundTrip
import WireSchema.Proofs.Layout.Size
import WireSchema.Proofs.Layout.Walks
import WireSchema.Proofs.Schema.Faults
import WireSchema.Proofs.Convert.TreePaths
import WireSchema.Proofs.Convert.JsonPaths
import WireSchema.Proofs.Convert.Edits
import WireSchema.Proofs.Convert.Ordered
import WireSchema.Proofs.Convert.Reordering
import WireSchema.Proofs.Naming.Conversion
import WireSchema.Proofs.Naming.Legality
import WireSchema.Proofs.Naming.Folding
import WireSchema.Proofs.Rendering.Namespace
import WireSchema.Proofs.Text.Quoted
import WireSchema.Proofs.Layout.Builder
import WireSchema.Proofs.Json.Injective
import WireSchema.Proofs.Layout.Text
import WireSchema.Proofs.Text.Brackets
import WireSchema.Proofs.Source
import WireSchema.Proofs.Rendering.Brackets.Expression
import WireSchema.Proofs.Rendering.Brackets.Members
import WireSchema.Proofs.Rendering.Brackets.StructModule
import WireSchema.Proofs.Rendering.Brackets.EnumModule
import WireSchema.Proofs.Rendering.Brackets.Package
import WireSchema.Proofs.Convert.WideIntegers
import WireSchema.Proofs.PublicKey
import WireSchema.Proofs.Text.Occurrences
import WireSchema.Proofs.Rendering.Boxes
import WireSchema.Proofs.Rendering.Conversions
import WireSchema.Proofs.Rendering.SingleSource
