import CStable.Columns.UnsignedInt
import CStable.Columns.V1.Reader
import CStable.Io.PageManager

/-!
# `CStable.CSTableReader`: opening a table

`CSTableReader::openFile` on the bytes of a file. A v0.1.0 file is mapped into
memory: the mapping is the file, filled up with zeros to the end of its last
page of 4096 bytes. For v0.2.0 the page readers are registered with a
`PageIndexReader`, whose keys are kept here.
-/

set_option autoImplicit false

namespace CStable

open Support

/-- A column reader of either version. -/
inductive ColumnReader where
  | v1 (r : v1.ColumnReader)
  | v2 (r : UnsignedIntColumnReader)
  deriving DecidableEq, Repr

/-- `CSTableReader`, with the mapping of a v0.1.0 file and the keys the page
readers of a v0.2.0 file are registered under. -/
structure CSTableReader where
  version : BinaryFormatVersion
  columns : List ColumnConfig
  column_readers : List ColumnReader
  num_rows : UInt64
  mmap : Mapping
  page_idx : PageIndexReader
  deriving DecidableEq, Repr

namespace ColumnReader

/-- `type`. -/
def type : ColumnReader → ColumnType
  | v1 r => r.data_reader.type
  | v2 _ => .UNSIGNED_INT

/-- `encoding`: a reader of v0.2.0 returns what the header says. -/
def encoding : ColumnReader → UInt8
  | v1 r => r.data_reader.encoding.code
  | v2 r => r.config.storage_type

end ColumnReader

namespace CSTableReader

/-- The size of a page of memory. -/
def kMemoryPageSize : Nat := 4096

/-- `MmappedFile`: the file can be mapped unless it is empty. -/
def mapFile (file : Bytes) : Result Mapping :=
  if file.length = 0 then RAISE .kIllegalArgumentError "can't mmap() empty file"
  else
    let size := (file.length + (kMemoryPageSize - 1)) / kMemoryPageSize * kMemoryPageSize
    .ok (file ++ List.replicate (size - file.length) 0)

/-- `openColumnV1`. -/
def openColumnV1 (mmap : Mapping) (c : ColumnConfig) : Result v1.ColumnReader :=
  match ColumnEncoding.ofCode? c.storage_type with
  | some encoding =>
    v1.ColumnReader.new mmap encoding c.rlevel_max c.dlevel_max c.body_offset c.body_size
  | none => RAISEF .kRuntimeError "unsupported column type: $0" [[c.storage_type]]

/-- `openColumnV2`: a reader for the definition levels is never made. -/
def openColumnV2 (c : ColumnConfig) (page_idx : PageIndexReader) :
    Result (UnsignedIntColumnReader × PageIndexReader) :=
  let page_idx :=
    if c.rlevel_max > 0 then page_idx.addPageReader ⟨c.column_id, .RLEVEL⟩ else page_idx
  match ColumnType.ofCode? c.logical_type with
  | some .UNSIGNED_INT =>
    UnsignedIntColumnReader.new c (decide (c.rlevel_max > 0)) page_idx
  | _ => RAISEF .kRuntimeError "unsupported column type: $0" [[c.storage_type]]

/-- The loop of `openFile` over the columns of a v0.2.0 file. -/
def openColumnsV2 :
    PageIndexReader → List ColumnConfig → Result (List UnsignedIntColumnReader × PageIndexReader)
  | page_idx, [] => .ok ([], page_idx)
  | page_idx, c :: cs => do
    let (reader, page_idx) ← openColumnV2 c page_idx
    let (readers, page_idx) ← openColumnsV2 page_idx cs
    .ok (reader :: readers, page_idx)

/-- `openFile`. -/
def openFile (mem : Uninit) (file : Bytes) : Result CSTableReader := do
  let (hdr, _) ← readHeader mem file
  match hdr.version with
  | .v0_1_0 =>
    let mmap ← mapFile file
    let readers ← hdr.header.columns.mapM (openColumnV1 mmap)
    .ok
      { version := .v0_1_0
        columns := hdr.header.columns
        column_readers := readers.map ColumnReader.v1
        num_rows := hdr.header.num_rows
        mmap := mmap
        page_idx := [] }
  | .v0_2_0 =>
    match hdr.metablock with
    | none => .error .fault
    | some metablock =>
      let (readers, page_idx) ← openColumnsV2 [] hdr.header.columns
      .ok
        { version := .v0_2_0
          columns := hdr.header.columns
          column_readers := readers.map ColumnReader.v2
          num_rows := metablock.num_rows
          mmap := []
          page_idx }

/-- `numRecords`. -/
def numRecords (r : CSTableReader) : UInt64 := r.num_rows

/-! ### Columns by their name -/

/-- The lookup in `column_readers_by_name_`: of columns with the same name `emplace` keeps
the first. -/
def find (r : CSTableReader) (column_name : Bytes) : Option (ColumnConfig × ColumnReader) :=
  (r.columns.zip r.column_readers).find? fun c => c.1.column_name == column_name

/-- `hasColumn`. -/
def hasColumn (r : CSTableReader) (column_name : Bytes) : Bool := (r.find column_name).isSome

/-- `getColumnReader`. -/
def getColumnReader (r : CSTableReader) (column_name : Bytes) : Result ColumnReader :=
  match r.find column_name with
  | some c => .ok c.2
  | none => RAISEF .kNotFoundError "column not found: $0" [column_name]

/-- `getColumnType`. -/
def getColumnType (r : CSTableReader) (column_name : Bytes) : Result ColumnType :=
  (r.getColumnReader column_name).map ColumnReader.type

/-- `getColumnEncoding`. -/
def getColumnEncoding (r : CSTableReader) (column_name : Bytes) : Result UInt8 :=
  (r.getColumnReader column_name).map ColumnReader.encoding

end CSTableReader

end CStable
