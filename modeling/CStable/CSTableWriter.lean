import CStable.Columns.UnsignedInt
import CStable.Columns.V1.Writer
import CStable.TableSchema

/-!
# `CStable.CSTableWriter`: writing a table

`CSTableWriter` creates the file of a table, hands out its column writers and
commits. The columns of a writer are slots: the column writer and, for the
statements about runs only, the list of the calls it accepted (`history`), which
no function of the source reads.

`TableOp` are the operations a client of a writer has between `createFile` and
`commit`.
-/

set_option autoImplicit false

namespace CStable

open Support

/-- A column writer of either version. -/
inductive ColumnWriter where
  | v1 (w : v1.ColumnWriter)
  | v2 (w : UnsignedIntColumnWriter)
  deriving DecidableEq, Repr

namespace ColumnWriter

/-- `type`. -/
def type : ColumnWriter → UInt8
  | v1 w => w.data_writer.type
  | v2 w => w.type

/-- `maxDefinitionLevel`. -/
def maxDefinitionLevel : ColumnWriter → Nat
  | v1 w => w.maxDefinitionLevel
  | v2 w => w.maxDefinitionLevel

end ColumnWriter

/-- A column of a table: its writer, and the calls the writer accepted. -/
structure ColumnSlot where
  writer : ColumnWriter
  history : List WriteCall
  deriving DecidableEq, Repr

/-- `CSTableWriter`. -/
structure CSTableWriter where
  version : BinaryFormatVersion
  schema : TableSchema
  pages : PageStore
  columns : List ColumnConfig
  column_writers : List ColumnSlot
  current_txid : UInt64
  num_rows : UInt64
  cur_idx_ptr : Option PageRef
  free_idx_ptr : Option PageRef

namespace CSTableWriter

/-! ### Creating a table -/

/-- `openColumnV1`. -/
def openColumnV1 (c : ColumnConfig) : Result v1.ColumnWriter :=
  match ColumnEncoding.ofCode? c.storage_type with
  | some encoding =>
    .ok (v1.ColumnWriter.new c.rlevel_max c.dlevel_max
      (v1.ColumnWriter.newDataWriter encoding c.logical_type))
  | none => RAISEF .kRuntimeError "unsupported column type: $0" [[c.storage_type]]

/-- `openColumnV2`: every other case of the switch is commented out, and the
function ends without a `return`. -/
def openColumnV2 (c : ColumnConfig) (pages : PageStore) :
    Result (UnsignedIntColumnWriter × PageStore) :=
  match ColumnType.ofCode? c.logical_type with
  | some .UNSIGNED_INT => UnsignedIntColumnWriter.new c pages
  | _ => .error .fault

/-- The loop of the constructor over the columns. -/
def openColumns (version : BinaryFormatVersion) :
    PageStore → List ColumnConfig → Result (List ColumnSlot × PageStore)
  | pages, [] => .ok ([], pages)
  | pages, c :: cs => do
    let (writer, pages) ←
      match version with
      | .v0_1_0 => do
        let w ← openColumnV1 c
        .ok (ColumnWriter.v1 w, pages)
      | .v0_2_0 => do
        let (w, pages) ← openColumnV2 c pages
        .ok (ColumnWriter.v2 w, pages)
    let (writers, pages) ← openColumns version pages cs
    .ok (⟨writer, []⟩ :: writers, pages)

/-- The header `createFile` writes: nothing for v0.1.0. `FileOutputStream::write`
stores the count `::write` returns in an `int` and raises if that is negative;
`writeHeader` does not look at the count. -/
def initialHeader (version : BinaryFormatVersion) (columns : List ColumnConfig) :
    Result (List FileWrite × Nat) :=
  match version with
  | .v0_1_0 => .ok ([], 0)
  | .v0_2_0 => do
    let header ← v0_2_0.writeHeader columns
    let bytes_written := if header.length < 2 ^ 63 then intOfCount header.length else -1
    if bytes_written < 0 then RAISE .kIOError "write() failed"
    else .ok ([.stream header], header.length)

/-- A header that was written has a length the kernel takes. The file is then the header and
nothing else, and the columns begin behind it. -/
theorem initialHeader_eq_ok {columns : List ColumnConfig} {file : List FileWrite}
    {header_size : Nat} (h : initialHeader .v0_2_0 columns = .ok (file, header_size)) :
    ∃ header, v0_2_0.writeHeader columns = .ok header ∧ header.length < 2 ^ 63 ∧
      file = [.stream header] ∧ header_size = header.length := by
  obtain ⟨header, hheader, h⟩ := Result.bind_eq_ok.mp h
  dsimp only at h
  split_ifs at h with hlen hneg hneg
  · cases h
  · cases h
    exact ⟨header, hheader, hlen, rfl, rfl⟩
  · cases h
  · exact absurd (by decide) hneg

/-- The constructor, which opens a writer for each column. -/
def new (version : BinaryFormatVersion) (schema : TableSchema) (page_mgr : PageManager)
    (columns : List ColumnConfig) : Result CSTableWriter := do
  let (column_writers, pages) ← openColumns version (PageStore.new page_mgr) columns
  .ok
    { version, schema, pages, columns, column_writers
      current_txid := 0
      num_rows := 0
      cur_idx_ptr := none
      free_idx_ptr := none }

/-- `createFile`. The file is opened with `O_CREATE`, so it is a new one. -/
def createFile (mem : Uninit) (order : HashOrder) (version : BinaryFormatVersion)
    (schema : TableSchema) : Result CSTableWriter := do
  let schema := TableSchema.copy order schema
  let columns := TableSchema.flatColumns mem schema
  let (file, header_size) ← initialHeader version columns
  new version schema (PageManager.new version file (UInt64.ofNat header_size)) columns

/-! ### Writing -/

/-- `addRow`. -/
def addRow (t : CSTableWriter) : CSTableWriter := { t with num_rows := t.num_rows + 1 }

/-- `addRows`. -/
def addRows (t : CSTableWriter) (num_rows : UInt64) : CSTableWriter :=
  { t with num_rows := t.num_rows + num_rows }

/-- `hasColumn`. -/
def hasColumn (t : CSTableWriter) (column_name : Bytes) : Bool :=
  t.columns.any fun c => c.column_name == column_name

/-- `getColumnWriter`: the position of the first column of that name, the one
`emplace` keeps. -/
def getColumnWriter (t : CSTableWriter) (column_name : Bytes) : Result Nat :=
  match t.columns.findIdx? fun c => c.column_name == column_name with
  | some i => .ok i
  | none => RAISEF .kNotFoundError "column not found: $0" [column_name]

/-- The writer of a column `getColumnWriter` returned. -/
def slot (t : CSTableWriter) (i : Nat) : Result ColumnSlot :=
  match t.column_writers[i]? with
  | some slot => .ok slot
  | none => .error .fault

/-- A `write*` call on the column at a position. -/
def writeColumn (i : Nat) (c : WriteCall) : CxxM CSTableWriter Unit := fun t =>
  match t.slot i with
  | .error e => (.error e, t)
  | .ok slot =>
    match slot.writer with
    | .v1 w =>
      match w.call c with
      | .ok w =>
        (.ok (), { t with
          column_writers := t.column_writers.set i ⟨.v1 w, slot.history ++ [c]⟩ })
      | .error e => (.error e, t)
    | .v2 w =>
      match CxxM.exec (w.call c) t.pages with
      | (.ok (), pages) =>
        (.ok (), { t with
          pages := pages
          column_writers := t.column_writers.set i ⟨.v2 w, slot.history ++ [c]⟩ })
      | (.error e, pages) => (.error e, { t with pages := pages })

/-- What a client does with a writer between `createFile` and `commit`. -/
inductive TableOp where
  | addRow
  | addRows (num_rows : UInt64)
  /-- `getColumnWriter(column)` and a `write*` call on what it returns. -/
  | write (column : Bytes) (c : WriteCall)
  deriving DecidableEq, Repr

/-- One operation. -/
def apply : TableOp → CxxM CSTableWriter Unit
  | .addRow => fun t => (.ok (), t.addRow)
  | .addRows num_rows => fun t => (.ok (), t.addRows num_rows)
  | .write column c => fun t =>
    match t.getColumnWriter column with
    | .ok i => CxxM.exec (writeColumn i c) t
    | .error e => (.error e, t)

/-- A write of a program is the search for the column and a write to its writer. Where there is
no column of the name the table is left as it is. -/
theorem exec_apply_write (column : Bytes) (c : WriteCall) (t : CSTableWriter) :
    CxxM.exec (apply (.write column c)) t =
      match t.getColumnWriter column with
      | .ok i => CxxM.exec (writeColumn i c) t
      | .error e => (.error e, t) := rfl

/-- Operations one after the other; the first that fails ends the run. -/
def run : List TableOp → CxxM CSTableWriter Unit
  | [] => pure ()
  | op :: ops => do
    apply op
    run ops

/-- The table after operations some of which may have failed: the client catches
the exception and goes on. -/
def after (ops : List TableOp) (t : CSTableWriter) : CSTableWriter :=
  ops.foldl (fun t op => (CxxM.exec (apply op) t).2) t

/-! ### Committing -/

/-- The columns with their writers committed and the sizes of their bodies. -/
def commitColumns (t : CSTableWriter) : Result (List (ColumnConfig × v1.ColumnWriter)) :=
  (t.columns.zip t.column_writers).mapM fun (col, slot) =>
    match slot.writer with
    | .v1 w => .ok ({ col with body_size := w.commit.bodySize }, w.commit)
    | .v2 _ => .error .fault

/-- The loop that assigns the body offsets. -/
def assignOffsets :
    Nat → List (ColumnConfig × v1.ColumnWriter) → List (ColumnConfig × v1.ColumnWriter)
  | _, [] => []
  | offset, (col, w) :: cols =>
    ({ col with body_offset := offset }, w) :: assignOffsets (offset + col.body_size) cols

/-- A column record of the v0.1.0 header. -/
def columnHeaderV1 (col : ColumnConfig) : Bytes :=
  appendUInt32 col.storage_type.toNat ++ appendUInt32 col.column_name.length ++
    col.column_name ++ appendUInt32 col.rlevel_max ++ appendUInt32 col.dlevel_max ++
    appendUInt64 col.body_offset ++ appendUInt64 col.body_size

/-- The part of the v0.1.0 header before the column records. -/
def headerPreludeV1 (num_rows : UInt64) (ncols : Nat) : Bytes :=
  appendUInt32 v0_1_0.kMagicBytesUInt32 ++ appendUInt16 v0_1_0.kVersion ++ appendUInt64 0 ++
    appendUInt64 num_rows.toNat ++ appendUInt32 ncols

/-- The size of the v0.1.0 header as `commitV1` computes it. -/
def headerSizeV1 (t : CSTableWriter) : Nat :=
  (headerPreludeV1 t.num_rows t.columns.length).length +
    (t.columns.map fun col => 32 + col.column_name.length).sum

/-- The loop that writes the bodies; the buffer of a body is not initialised. -/
def writeBodies (mem : Uninit) :
    PageManager → Nat → List (ColumnConfig × v1.ColumnWriter) → Result PageManager
  | page_mgr, _, [] => .ok page_mgr
  | page_mgr, i, (col, w) :: cols => do
    let buf ← w.write (mem.buffer i col.body_size)
    RCHECK (buf.length == col.body_size) "invalid column body size"
    let page_mgr ← page_mgr.writePage col.body_offset col.body_size buf
    writeBodies mem page_mgr (i + 1) cols

/-- `commitV1`. -/
def commitV1 (mem : Uninit) (t : CSTableWriter) : Result CSTableWriter := do
  let cols ← t.commitColumns
  let cols := assignOffsets t.headerSizeV1 cols
  let columns := cols.map Prod.fst
  let header := headerPreludeV1 t.num_rows columns.length ++ columns.flatMap columnHeaderV1
  let page_mgr ← t.pages.page_mgr.writePage 0 header.length header
  let page_mgr ← writeBodies mem page_mgr 0 cols
  .ok { t with
    columns := columns
    column_writers := List.zipWith (fun slot col => { slot with writer := .v1 col.2 })
      t.column_writers cols
    pages := { t.pages with page_mgr := page_mgr } }

/-- The metablock `commitV2` writes. -/
def newMetaBlock (t : CSTableWriter) (idx_head : PageRef) (page_mgr : PageManager) :
    MetaBlock where
  transaction_id := t.current_txid + 1
  num_rows := t.num_rows
  head_index_page_offset := idx_head.offset
  head_index_page_size := idx_head.size
  file_size := page_mgr.getOffset

/-- `commitV2`. -/
def commitV2 (t : CSTableWriter) : Result CSTableWriter := do
  let (idx_head, page_mgr) ← PageIndex.write t.pages t.free_idx_ptr
  let page_mgr ← page_mgr.writeTransaction (t.newMetaBlock idx_head page_mgr)
  .ok { t with
    pages := { t.pages with page_mgr := page_mgr }
    free_idx_ptr := t.cur_idx_ptr
    cur_idx_ptr := some idx_head }

/-- `commit`. -/
def commit (mem : Uninit) (t : CSTableWriter) : Result CSTableWriter :=
  match t.version with
  | .v0_1_0 => commitV1 mem t
  | .v0_2_0 => commitV2 t

/-- Operations with a commit after each round of them, as long as the commits succeed. What
the memory a commit allocates holds is different every time. -/
def commits : List (Uninit × List TableOp) → CSTableWriter → Result CSTableWriter
  | [], t => .ok t
  | (mem, ops) :: rounds, t => do
    let t ← (t.after ops).commit mem
    commits rounds t

/-- The writes issued to the file of the table so far. -/
def file (t : CSTableWriter) : List FileWrite := t.pages.page_mgr.file

end CSTableWriter

end CStable
