import TypedDoc.Binary
import TypedDoc.CommandLine
import TypedDoc.CommandLine.Session
import TypedDoc.CommandLine.Usage
import TypedDoc.Decode
import TypedDoc.Decode.Dense
import TypedDoc.Decode.Rule
import TypedDoc.Decode.Scalar
import TypedDoc.Document
import TypedDoc.Element
import TypedDoc.Error
import TypedDoc.Field
import TypedDoc.FileSystem
import TypedDoc.Json
import TypedDoc.Json.Export
import TypedDoc.Kind
import TypedDoc.Main
import TypedDoc.Markup.Depth
import TypedDoc.Markup.Fault
import TypedDoc.Markup.Lexeme
import TypedDoc.Markup.Name
import TypedDoc.Markup.Namespace
import TypedDoc.Markup.Node
import TypedDoc.Markup.Read
import TypedDoc.Markup.Reference
import TypedDoc.Markup.Tag
import TypedDoc.Markup.Tree
import TypedDoc.Numeral.Binary64
import TypedDoc.Numeral.Decimal
import TypedDoc.Numeral.Integer
import TypedDoc.Numeral.Layout
import TypedDoc.Numeral.Shortest
import TypedDoc.ObjectId
import TypedDoc.OrderedMap
import TypedDoc.OrderedMap.Cursor
import TypedDoc.OrderedMap.Invariant
import TypedDoc.Plain
import TypedDoc.Reading
import TypedDoc.RegexOptions
import TypedDoc.Table
import TypedDoc.Text.Base64
import TypedDoc.Text.Blank
import TypedDoc.Text.Hex
import TypedDoc.Text.Printable
import TypedDoc.Text.Quoted
import TypedDoc.Timestamp
import TypedDoc.Value
import TypedDoc.Value.Detail
import TypedDoc.Value.Equality
import TypedDoc.Value.Text
import TypedDoc.Proofs.Agreement
import TypedDoc.Proofs.PairList
import TypedDoc.Proofs.Decoding
import TypedDoc.Proofs.Grammar
import TypedDoc.Proofs.Nesting
import TypedDoc.Proofs.Updating
import TypedDoc.Proofs.Parts
import TypedDoc.Proofs.Bounds
import TypedDoc.Proofs.Levels
import TypedDoc.Proofs.DepthLimit
import TypedDoc.Proofs.Threshold
import TypedDoc.Proofs.Positions
import TypedDoc.Proofs.Numerals
import TypedDoc.Proofs.Bytes
import TypedDoc.Proofs.Scalars
import TypedDoc.Proofs.Items
import TypedDoc.Proofs.Encoding
import TypedDoc.Proofs.Alike
import TypedDoc.Proofs.Copies
import TypedDoc.Proofs.HigherLimits
import TypedDoc.Proofs.ByteOrder
import TypedDoc.Proofs.Flattening
import TypedDoc.Proofs.Rendering
import TypedDoc.Proofs.DenseArrays
import TypedDoc.Proofs.Calendar
import TypedDoc.Proofs.Exporting
import TypedDoc.Proofs.Merging
import TypedDoc.Proofs.Walks
import TypedDoc.Proofs.Equality
import TypedDoc.Proofs.PartialEquivalence
import TypedDoc.Proofs.Navigation
import TypedDoc.Proofs.Payloads
import TypedDoc.Proofs.Identifiers
import TypedDoc.Proofs.Integers
import TypedDoc.Proofs.Moments
import TypedDoc.Proofs.OptionLetters
import TypedDoc.Proofs.Readability
