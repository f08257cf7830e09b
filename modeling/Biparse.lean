import Biparse.Component
import Biparse.Diagnostic.Basic
import Biparse.Diagnostic.Code
import Biparse.Diagnostic.Json
import Biparse.Elem.Basic
import Biparse.Elem.Number
import Biparse.Error
import Biparse.Grammar.Basic
import Biparse.Grammar.List
import Biparse.Grammar.Parse
import Biparse.Grammar.Print
import Biparse.Grammar.Record
import Biparse.Grammar.Stream
import Biparse.Integer.Component
import Biparse.Integer.Literal
import Biparse.Json.Basic
import Biparse.Json.Decode
import Biparse.Json.Reader
import Biparse.Json.Writer
import Biparse.KeyedMap.Basic
import Biparse.KeyedMap.Component
import Biparse.Program.Basic
import Biparse.Program.KeyedMap
import Biparse.Program.PropertyMap
import Biparse.Program.Record
import Biparse.Program.Sequence
import Biparse.Program.Value
import Biparse.PropertyMap.Basic
import Biparse.PropertyMap.Component
import Biparse.Record.Builder
import Biparse.Record.Creator
import Biparse.Record.Sample
import Biparse.Record.Shape
import Biparse.Sequence.Basic
import Biparse.Sequence.Component
import Biparse.Sequence.Permutation
import Biparse.Sequence.Traced
import Biparse.SortedMap
import Biparse.Source.LineIndex
import Biparse.Source.Location
import Biparse.Source.Span
import Biparse.Text.Outline
import Biparse.Value
import Biparse.Proofs.Grammar.Backtracking
import Biparse.Proofs.Grammar.Offsets
import Biparse.Proofs.Text.Joined
import Biparse.Proofs.Grammar.Reading
import Biparse.Proofs.Grammar.Printing
import Biparse.Proofs.PropertyMap.Recency
import Biparse.Proofs.Sequence.Permutation
import Biparse.Proofs.Record.Lawful
import Biparse.Proofs.Record.Bijection
import Biparse.Proofs.Record.History
import Biparse.Proofs.Record.Skipping
import Biparse.Proofs.Grammar.Properties
import Biparse.Proofs.Grammar.Items
import Biparse.Proofs.Grammar.Lists
import Biparse.Proofs.Grammar.Promotion
import Biparse.Proofs.Edit
import Biparse.Proofs.PropertyMap.Edits
import Biparse.Proofs.Elem.Equality
import Biparse.Proofs.KeyedMap.PartialKeys
import Biparse.Proofs.KeyedMap.Order
import Biparse.Proofs.Sequence.Refinement
import Biparse.Proofs.Grammar.Counters
import Biparse.Proofs.Grammar.Consumers
import Biparse.Proofs.Sequence.Identity
import Biparse.Proofs.Json.RoundTrip
import Biparse.Proofs.Diagnostic.RoundTrip
import Biparse.Proofs.Grammar.Scopes
import Biparse.Proofs.Record.Locations
import Biparse.Proofs.Grammar.Contexts
import Biparse.Proofs.Grammar.Shifting
import Biparse.Proofs.Program.Registers
import Biparse.Proofs.Value.Identity
import Biparse.Proofs.Source.LineIndex
import Biparse.Proofs.Integer.Literal
import Biparse.Proofs.Record.Commuting
import Biparse.Proofs.Text.ByteOrder
import Biparse.Proofs.Record.Registration
import Biparse.Proofs.Unwinding
import Biparse.Proofs.Sequence.Unwinding
import Biparse.Proofs.PropertyMap.Inversion
import Biparse.Proofs.KeyedMap.Inversion
import Biparse.Proofs.Equality
import Biparse.Proofs.Sequence.Ends
import Biparse.Proofs.Diagnostic.Distinct
import Biparse.Proofs.Grammar.Swapping
import Biparse.Proofs.Grammar.TwoWords
import Biparse.Proofs.Source.Cover
import Biparse.Proofs.Grammar.Rounds
import Biparse.Proofs.Grammar.Undoing
