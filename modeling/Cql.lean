import Cql.Codec.Document
import Cql.Codec.OfType
import Cql.Codec.Zoned
import Cql.Schema.Session
import Cql.Text.ByteScanner
import Cql.Text.Cursor
import Cql.Type.BytePass
import Cql.Number.Word
import Cql.Wire.Buffer
import Cql.Proofs.AddressText
import Cql.Proofs.BigEndian
import Cql.Proofs.Blanks
import Cql.Proofs.BracketedLiterals
import Cql.Proofs.BracketedText
import Cql.Proofs.Calendar
import Cql.Proofs.Canonical
import Cql.Proofs.DecimalText
import Cql.Proofs.DependencyOrder
import Cql.Proofs.Dictionary
import Cql.Proofs.FloatText
import Cql.Proofs.Integers
import Cql.Proofs.LiteralRoundTrip
import Cql.Proofs.Names
import Cql.Proofs.Quoting
import Cql.Proofs.Rounding
import Cql.Proofs.ScalarBytes
import Cql.Proofs.ScalarLiterals
import Cql.Proofs.Sequences
import Cql.Proofs.ShortestDigits
import Cql.Proofs.Spacing
import Cql.Proofs.StoredTimes
import Cql.Proofs.TimeText
import Cql.Proofs.TypeBatch
import Cql.Proofs.TypeMeaning
import Cql.Proofs.TypeParts
import Cql.Proofs.TypeText
import Cql.Proofs.Utf8
import Cql.Proofs.UuidText
import Cql.Proofs.ValueParts
import Cql.Proofs.ValueScan
import Cql.Proofs.Wire
import Cql.Proofs.WireRoundTrip
import Cql.Proofs.Words
import Cql.Proofs.DecodedValues
import Cql.Proofs.TrailingFields
import Cql.Proofs.TypeReferences
import Cql.Schema.InPlace
import Cql.Proofs.TypeBatchInPlace
import Cql.Proofs.FieldFraming
import Cql.Proofs.TemporalLiterals
import Cql.Proofs.ZonedTimestamps
import Cql.Proofs.CatalogSteps
import Cql.Proofs.TypeOrigins
import Cql.Proofs.CatalogRuns
import Cql.Proofs.CatalogHistory
import Cql.Proofs.TableOrigins
import Cql.Proofs.ViewBases
import Cql.Proofs.PrintedValues
import Cql.Proofs.StoredLiterals
import Cql.Proofs.ScannedLiterals
import Cql.Proofs.DependencyCircles
import Cql.Proofs.FrozenTypes
import Cql.Proofs.TypeCuts
import Cql.Proofs.CutFlaws
import Cql.Proofs.TypeLevels
import Cql.Proofs.ParameterFrames
import Cql.Proofs.TypeParameters
import Cql.Proofs.ColumnOrder
import Cql.Proofs.KeyPositions
import Cql.Proofs.OptionLiterals
import Cql.Proofs.FaultPositions
import Cql.Proofs.ViewStatements
import Cql.Proofs.ExactFrames
import Cql.Proofs.TruncatedParts
import Cql.Proofs.TimestampGrammar
import Cql.Proofs.LeapSeconds
import Cql.Proofs.ScannedBrackets
import Cql.Proofs.DisplayedValues
import Cql.Proofs.RepeatedFields
import Cql.Proofs.ByteScans
import Cql.Proofs.CursorPlaces
import Cql.Proofs.Documents
import Cql.Proofs.FieldNames
import Cql.Proofs.ParameterLayout
import Cql.Proofs.BufferedItems
import Cql.Proofs.EndOfInput
import Cql.Proofs.WordConversions
