import CStable.CSTableReader
import CStable.RecordMaterializer

/-!
# `CStable.TableColumns`: the columns of an opened table

The column readers of an opened table as a materializer sees them: through the virtual
functions of `ColumnReader`, whichever version the table is of. A v0.1.0 reader decodes
the mapping of the file. The page reader of v0.2.0 is a stub that returns zeros and has no
end, so the column does the same.
-/

set_option autoImplicit false

namespace CStable

namespace UnsignedIntColumnReader

/-- `UInt64PageReader::readUnsignedInt`. -/
def pageValue : UInt64 := 0

/-- `readUnsignedInt`. -/
def readUnsignedInt (r : UnsignedIntColumnReader) : v1.View UInt64 :=
  let rlvl := if r.has_rlevel then pageValue.toNat else 0
  let dlvl := 0
  if dlvl = r.config.dlevel_max then ⟨rlvl, dlvl, pageValue, true⟩ else ⟨rlvl, dlvl, 0, false⟩

/-- The other read functions: the unsigned integer, converted, or a default. -/
def readAs {α : Type} (r : UnsignedIntColumnReader) (convert : UInt64 → α) (default : α) :
    v1.View α :=
  let v := r.readUnsignedInt
  ⟨v.rlvl, v.dlvl, if v.defined then convert v.value else default, v.defined⟩

/-- `readSignedInt`. -/
def readSignedInt (r : UnsignedIntColumnReader) : v1.View Int64 := r.readAs UInt64.toInt64 0

/-- `readFloat`. -/
def readFloat (ops : FloatOps) (r : UnsignedIntColumnReader) : v1.View UInt64 :=
  r.readAs (fun value => UInt64.ofNat (ops.ofUInt64 value.toNat)) 0

/-- `readString`. -/
def readString (r : UnsignedIntColumnReader) : v1.View Bytes :=
  r.readAs (fun value => toText value.toNat) []

/-- `eofReached`. -/
def eofReached (_r : UnsignedIntColumnReader) : Bool := false

/-- `maxRepetitionLevel`. -/
def maxRepetitionLevel (r : UnsignedIntColumnReader) : Nat := r.config.rlevel_max

end UnsignedIntColumnReader

/-- A column of an opened table. -/
inductive TableColumn where
  | v1 (column : MappedColumn)
  | v2 (ops : FloatOps) (reader : UnsignedIntColumnReader)

namespace TableColumn

/-- A read function of the class of the column. -/
def readWith {α : Type} (readV1 : MappedColumn → Result (v1.View α × MappedColumn))
    (readV2 : FloatOps → UnsignedIntColumnReader → v1.View α) :
    TableColumn → Result (v1.View α × TableColumn)
  | v1 column => (readV1 column).map fun (v, column) => (v, v1 column)
  | v2 ops reader => .ok (readV2 ops reader, v2 ops reader)

instance : AbstractColumnReader TableColumn where
  type
    | v1 column => AbstractColumnReader.type column
    | v2 _ _ => .UNSIGNED_INT
  maxRepetitionLevel
    | v1 column => AbstractColumnReader.maxRepetitionLevel column
    | v2 _ reader => reader.maxRepetitionLevel
  eofReached
    | v1 column => AbstractColumnReader.eofReached column
    | v2 _ reader => reader.eofReached
  readUnsignedInt :=
    readWith AbstractColumnReader.readUnsignedInt fun _ reader => reader.readUnsignedInt
  readSignedInt :=
    readWith AbstractColumnReader.readSignedInt fun _ reader => reader.readSignedInt
  readFloat := readWith AbstractColumnReader.readFloat UnsignedIntColumnReader.readFloat
  readString := readWith AbstractColumnReader.readString fun _ reader => reader.readString

end TableColumn

/-- `getColumnReader` for the columns `hasColumn` knows. -/
def CSTableReader.tableColumn (ops : FloatOps) (r : CSTableReader) (column_name : Bytes) :
    Option TableColumn :=
  if r.hasColumn column_name then
    match r.getColumnReader column_name with
    | .ok (.v1 reader) => some (.v1 ⟨ops, r.mmap, reader⟩)
    | .ok (.v2 reader) => some (.v2 ops reader)
    | .error _ => none
  else none

/-- The materializer of an opened table. -/
def RecordMaterializer.ofTable (ops : FloatOps) (walk : WalkOrder TableColumn)
    (schema : MessageSchema) (table : CSTableReader) (columns : List Bytes) :
    RecordMaterializer TableColumn :=
  new walk schema (table.tableColumn ops) columns

end CStable
