import CStable.Stx.Stream
import CStable.Support.Wire
import CStable.Support.Disk
import CStable.Stx.SHA1
import CStable.Format
import CStable.Columns.UInt64Page
import CStable.Proofs.Pages
import CStable.Io.PageIndex
import CStable.Support.BitPack
import CStable.Stx.BitPack
import CStable.Stx.Text
import CStable.Stx.Csv
import CStable.Columns.V1.Writer
import CStable.Columns.UnsignedInt
import CStable.TableSchema
import CStable.CSTableWriter
import CStable.Proofs.PageStream
import CStable.CSTableReader
import CStable.Proofs.Header
import CStable.Support.TwoSlot
import CStable.Proofs.MetaBlock
import CStable.Proofs.Store
import CStable.Proofs.TableV2
import CStable.Proofs.IndexKeys
import CStable.Proofs.BitStream
import CStable.Proofs.V1Column
import CStable.Proofs.CommitV1
import CStable.Proofs.HeaderV1
import CStable.Proofs.TableV1
import CStable.Proofs.ReadBack
import CStable.Proofs.ReaderClasses
import CStable.Proofs.AtomicCommit
import CStable.Proofs.HeaderRoundTrip
import CStable.Proofs.IndexPage
import CStable.Proofs.IntegerColumn
import CStable.Columns.V1.Access
import CStable.Proofs.TypedViews
import CStable.Proofs.CopyColumn
import CStable.RecordShredder
import CStable.Support.Striping
import CStable.Proofs.ShredSteps
import CStable.Proofs.Shredding
import CStable.Proofs.Reached
import CStable.Proofs.ShreddedTable
import CStable.Proofs.CsvSteps
import CStable.Proofs.CsvImport
import CStable.Proofs.CsvTypes
import CStable.Proofs.CsvCells
import CStable.Proofs.CsvStored
import CStable.RecordMaterializer
import CStable.TableColumns
import CStable.Proofs.SkipRecord
import CStable.Proofs.Grammar
import CStable.Proofs.SchemaCopy
import CStable.Proofs.DistinctColumns
import CStable.Proofs.BodyBytes
import CStable.Proofs.FileBytes
import CStable.Columns.V1.Calls
import CStable.Proofs.ReaderCalls
import CStable.Proofs.LevelStream
import CStable.Proofs.Peeking
import CStable.Proofs.EndOfColumn
import CStable.Proofs.IndexBounds
import CStable.Proofs.CutHeader
import CStable.Proofs.StreamBounds
import CStable.Proofs.DataBounds
import CStable.Proofs.BodyBounds
import CStable.Proofs.MessageLeaves
import CStable.Proofs.Conformance
import CStable.Proofs.WrittenRecords
import CStable.Proofs.Assemble
import CStable.Proofs.LoadedRecords
import CStable.Proofs.RecordRoundTrip
import CStable.Proofs.Projection
import CStable.Proofs.Replay
import CStable.Proofs.LeafColumns
import CStable.Proofs.WrittenFile
import CStable.Proofs.RecordFile
import CStable.Proofs.SameTables
import CStable.Proofs.Canonical
import CStable.Proofs.SchemaEvolution
import CStable.Proofs.MergedTables
import CStable.Proofs.RepeatedCommits
import CStable.Proofs.CrashedRuns
import CStable.Proofs.CsvRecords
