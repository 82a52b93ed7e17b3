import CStable.CSTableWriter
import CStable.Stx.Csv
import Mathlib.Data.List.Sort
import Mathlib.Data.List.Dedup

/-!
# `CStable.RecordShredder`: writing records to the columns of a table

`RecordShredder` takes a record apart and writes its values to the columns of a
table with their levels. The functions of the source take the writer as an
argument; here they are computations on it, so that an exception leaves behind
what had been written before (`CxxM`).

`addProtoRecordField` treats leaf columns and sub-records alike up to what it does
with one occurrence of the field. That part is `forField`, with the treatment of an
occurrence as an argument.

`addRecordsFromCSV` looks the columns of the header up and then treats the rows of
the stream one after the other, cell by cell.
-/

set_option autoImplicit false

namespace CStable

open TableSchema (dot)

namespace RecordShredder

/-- `writer->getColumnWriter(column)`. -/
def getColumnWriter (column : Bytes) : CxxM CSTableWriter Nat := fun t =>
  (t.getColumnWriter column, t)

mutual

/-- `writeProtoNull`. -/
def writeProtoNull (r d : Nat) (column : Bytes) (field : Column) : CxxM CSTableWriter Unit :=
  match field with
  | .subrecord _ subschema _ _ => writeProtoNulls r d (column ++ [dot]) subschema
  | .leaf _ _ _ _ _ => do
    let col ← getColumnWriter column
    CSTableWriter.writeColumn col ⟨r, d, .null⟩

/-- The loop of `writeProtoNull` over the columns of a sub-record. -/
def writeProtoNulls (r d : Nat) (pre : Bytes) (fields : List Column) :
    CxxM CSTableWriter Unit :=
  match fields with
  | [] => pure ()
  | f :: fs => do
    writeProtoNull r d (pre ++ f.name) f
    writeProtoNulls r d pre fs

end

/-- `writeProtoField`, with `type` the type of the field. A sub-record never gets
here. -/
def writeProtoField (r d : Nat) (msg : MessageObject) (column : Bytes) (type : LeafType) :
    CxxM CSTableWriter Unit := do
  let col ← getColumnWriter column
  match type.val with
  | .STRING => do
    let str ← CxxM.lift msg.asString
    CSTableWriter.writeColumn col ⟨r, d, .string str⟩
  | .UNSIGNED_INT => do
    let value ← CxxM.lift msg.asUInt64
    CSTableWriter.writeColumn col ⟨r, d, .unsignedInt value⟩
  | .SIGNED_INT => CxxM.lift (RAISE .kNotImplementedError "")
  | .DATETIME => do
    let value ← CxxM.lift msg.asUnixTime
    CSTableWriter.writeColumn col ⟨r, d, .dateTime value⟩
  | .FLOAT => do
    let value ← CxxM.lift msg.asDouble
    CSTableWriter.writeColumn col ⟨r, d, .float value⟩
  | .BOOLEAN => do
    let value ← CxxM.lift msg.asBool
    CSTableWriter.writeColumn col ⟨r, d, .boolean value⟩
  | .SUBRECORD => CxxM.lift (RAISE .kIllegalStateError "")

/-- The loop of `addProtoRecordField` over the children of the message: `act` treats
an occurrence of the field, the first with the repetition level the loop was
started with, the others with `rmax`. The result is the number of occurrences. -/
def forOccurrences {σ : Type} (field_id : UInt32) (rmax : Nat)
    (act : Nat → MessageObject → CxxM σ Unit) :
    Nat → Nat → List MessageObject → CxxM σ Nat
  | n, _, [] => pure n
  | n, next_r, o :: os =>
    if o.id ≠ field_id then forOccurrences field_id rmax act n next_r os
    else do
      act next_r o
      forOccurrences field_id rmax act (n + 1) rmax os

/-- `addProtoRecordField` but for the treatment `act` of an occurrence, which is
given the id of the field, the maximal repetition level and the definition level
below it, and the repetition level of the occurrence. -/
def forField (r rmax d : Nat) (msg : MessageObject) (msg_schema : MessageSchema) (column : Bytes)
    (field : Column) (act : UInt32 → Nat → Nat → Nat → MessageObject → CxxM CSTableWriter Unit) :
    CxxM CSTableWriter Unit := do
  let rmax := if field.repeated then rmax + 1 else rmax
  let next_d := if field.optional || field.repeated then d + 1 else d
  let field_id ← CxxM.lift (msg_schema.fieldId field.name)
  let children ← CxxM.lift msg.asObject
  let n ← forOccurrences field_id rmax (act field_id rmax next_d) 0 r children
  if n = 0 then
    if !(field.optional || field.repeated) then
      CxxM.lift (RAISEF .kIllegalArgumentError "missing field: $0" [column ++ field.name])
    else writeProtoNull r d (column ++ field.name) field
  else pure ()

mutual

/-- `addProtoRecordField`. -/
def addProtoRecordField (r rmax d : Nat) (msg : MessageObject) (msg_schema : MessageSchema)
    (column : Bytes) (field : Column) : CxxM CSTableWriter Unit :=
  match field with
  | .subrecord name subschema repeated optional =>
    forField r rmax d msg msg_schema column (.subrecord name subschema repeated optional)
      fun field_id rmax next_d next_r o => do
        let o_schema ← CxxM.lift (msg_schema.fieldSchema field_id)
        addProtoRecordFields next_r rmax next_d o o_schema (column ++ name ++ [dot]) subschema
  | .leaf name type encoding repeated optional =>
    forField r rmax d msg msg_schema column (.leaf name type encoding repeated optional)
      fun _ _ next_d next_r o => writeProtoField next_r next_d o (column ++ name) type

/-- The loop over the columns of a schema. The schema of the message is a pointer,
which is null for a field that is not an object. -/
def addProtoRecordFields (r rmax d : Nat) (msg : MessageObject)
    (msg_schema : Option MessageSchema) (column : Bytes) (fields : List Column) :
    CxxM CSTableWriter Unit :=
  match fields with
  | [] => pure ()
  | f :: fs =>
    match msg_schema with
    | none => CxxM.lift (.error .fault)
    | some schema => do
      addProtoRecordField r rmax d msg schema column f
      addProtoRecordFields r rmax d msg (some schema) column fs

end

/-- `addRecordFromProtobuf`, with `schema_` the schema of the shredder. -/
def addRecordFromProtobuf (schema_ : TableSchema) (msg : MessageObject)
    (schema : MessageSchema) : CxxM CSTableWriter Unit := do
  addProtoRecordFields 0 0 0 msg (some schema) [] schema_
  fun t => (.ok (), t.addRow)

/-! ### CSV -/

/-- The conversions of a cell whose code is left open: `std::stod`, and
`Human::parseTime`, which depends on the clock as well and so on the cell it is
called for, given by the number of its row and its position. -/
structure CSVOps where
  stod : Bytes → Result UInt64
  parseTime : Nat → Nat → Bytes → Result (Option UInt64)

/-- A column of the header: the writer found for it, and what the writer says of
itself. The source asks the writer again for each cell; the answers are constants of
the writer. -/
structure CSVColumn where
  name : Bytes
  writer : Nat
  maxDefinitionLevel : Nat
  type : UInt8
  deriving DecidableEq, Repr

/-- Ask the table something. -/
def reading {α : Type} (f : CSTableWriter → Result α) : CxxM CSTableWriter α := fun t => (f t, t)

/-- A round of the loop over the header. -/
def openCSVColumn (t : CSTableWriter) (col : Bytes) : Result CSVColumn := do
  if !t.hasColumn col then RAISEF .kRuntimeError "column '$0' not found in schema" [col]
  else
    let i ← t.getColumnWriter col
    let cwriter ← t.slot i
    .ok ⟨col, i, cwriter.writer.maxDefinitionLevel, cwriter.writer.type⟩

/-- `missing_columns`: a `std::set` iterates in order. -/
def missingColumns (t : CSTableWriter) (columns : List Bytes) : List Bytes :=
  ((t.columns.map ColumnConfig.column_name).dedup.insertionSort (· ≤ ·)).filter (· ∉ columns)

/-- A round of the loop over the missing columns. -/
def openMissingColumn (t : CSTableWriter) (col : Bytes) : Result Nat := do
  let i ← t.getColumnWriter col
  let cwriter ← t.slot i
  if cwriter.writer.maxDefinitionLevel = 0 then
    RAISEF .kRuntimeError "missing required column: $0" [col]
  else .ok i

/-- `try { x } catch (const StandardException& e) { RAISEF(kTypeError, message, val); }`. -/
def tryConvert {α : Type} (x : Result α) (message : String) (val : Bytes) : Result α :=
  match x with
  | .error (.raised _) => RAISEF .kTypeError message [val]
  | .error .fault => .error .fault
  | .ok v => .ok v

/-- The value of a cell, by the type of its column. -/
def csvArg (ops : CSVOps) (n i : Nat) (val : Bytes) : ColumnType → Result WriteArg
  | .STRING => .ok (.string val)
  | .UNSIGNED_INT =>
    (tryConvert (stoull val) "can't convert '$0' to UINT64" val).map .unsignedInt
  | .SIGNED_INT => (tryConvert (stoll val) "can't convert '$0' to INT64" val).map .signedInt
  | .DATETIME => do
    let t ← ops.parseTime n i val
    match t with
    | none => RAISEF .kTypeError "can't convert '$0' to DATETIME" [val]
    | some t => .ok (.dateTime t)
  | .FLOAT => (tryConvert (ops.stod val) "can't convert '$0' to DOUBLE" val).map .float
  | .BOOLEAN => .ok (.boolean ((Human.parseBoolean val).getD false))
  | .SUBRECORD => RAISE .kIllegalStateError "can't read SUBRECORDs from CSV"

/-- The cell at position `i` of row `n`. -/
def addCSVCell (ops : CSVOps) (n i : Nat) (col : CSVColumn) (val : Bytes) :
    CxxM CSTableWriter Unit :=
  if Human.isNullOrEmpty val then
    if col.maxDefinitionLevel = 0 then
      CxxM.lift (RAISEF .kRuntimeError "missing value for required column: $0" [col.name])
    else CSTableWriter.writeColumn col.writer ⟨0, 0, .null⟩
  else
    match ColumnType.ofCode? col.type with
    | none => pure ()
    | some type => do
      let arg ← CxxM.lift (csvArg ops n i val type)
      CSTableWriter.writeColumn col.writer ⟨0, col.maxDefinitionLevel, arg⟩

/-- The loop over the cells of row `n`, from position `i` on. -/
def addCSVCells (ops : CSVOps) (n : Nat) :
    Nat → List CSVColumn → List Bytes → CxxM CSTableWriter Unit
  | i, col :: columns, val :: row => do
    addCSVCell ops n i col val
    addCSVCells ops n (i + 1) columns row
  | _, [], _ => pure ()
  | _, _ :: _, [] => pure ()

/-- The loop over the missing columns of a row. -/
def addMissing : List Nat → CxxM CSTableWriter Unit
  | [] => pure ()
  | col :: missing => do
    CSTableWriter.writeColumn col ⟨0, 0, .null⟩
    addMissing missing

/-- The body of the loop over the rows, for row `n`. -/
def addCSVRow (ops : CSVOps) (columns : List CSVColumn) (missing : List Nat) (n : Nat)
    (row : List Bytes) : CxxM CSTableWriter Unit := do
  addCSVCells ops n 0 columns row
  addMissing missing
  fun t => (.ok (), t.addRow)

/-- The loop over the rows of a stream, the first of which is row `n`. -/
def addCSVRows (add : Nat → List Bytes → CxxM CSTableWriter Unit) (n : Nat)
    (csv : CSVInputStream) : CxxM CSTableWriter Unit :=
  match _h : csv.readNextRow with
  | (true, row, csv') => do
    add n row
    addCSVRows add (n + 1) csv'
  | (false, _, _) => pure ()
termination_by csv.input.length
decreasing_by exact CSVInputStream.length_readNextRow _h

/-- `addRecordsFromCSV`. -/
def addRecordsFromCSV (ops : CSVOps) (csv : CSVInputStream) : CxxM CSTableWriter Unit := do
  let (_, header, csv) := csv.readNextRow
  let columns ← reading fun t => header.mapM (openCSVColumn t)
  let missing ← reading fun t => (missingColumns t header).mapM (openMissingColumn t)
  addCSVRows (addCSVRow ops columns missing) 0 csv

end RecordShredder

end CStable
