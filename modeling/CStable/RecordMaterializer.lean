import CStable.Columns.V1.Access
import CStable.Stx.Message
import CStable.TableSchema

/-!
# `CStable.RecordMaterializer`: putting the records of a table together again

`RecordMaterializer` reads the columns of a message schema one record at a time. It
reaches its columns through the abstract class `ColumnReader` only, so the column
readers are a parameter: a type with the functions it calls.

Every column looks one entry ahead: a record ends in front of the next entry with
the repetition level zero, and that entry stays pending for the next call. The loops
of `loadColumn` and `skipRecord` stop at such an entry or at the end of the column. A
reader that has neither would keep them going, so they are given the number of
rounds they may take.

An exception leaves a record half filled and some columns ahead of the others; a
caller that goes on after one is not modelled.
-/

set_option autoImplicit false

namespace CStable

open TableSchema (dot)

/-- The virtual functions of `ColumnReader` that a materializer calls. -/
class AbstractColumnReader (ρ : Type) where
  type : ρ → ColumnType
  maxRepetitionLevel : ρ → Nat
  eofReached : ρ → Bool
  readUnsignedInt : ρ → Result (v1.View UInt64 × ρ)
  readSignedInt : ρ → Result (v1.View Int64 × ρ)
  readFloat : ρ → Result (v1.View UInt64 × ρ)
  readString : ρ → Result (v1.View Bytes × ρ)

/-- A column reader of v0.1.0, with the mapping it reads from. -/
structure MappedColumn where
  ops : FloatOps
  mem : Mapping
  reader : v1.ColumnReader

namespace MappedColumn

/-- A read function, its value in the type the materializer has for it. -/
def readWith {α β : Type}
    (read : FloatOps → Mapping → v1.ColumnReader → Result (v1.View α × v1.ColumnReader))
    (convert : α → β) (c : MappedColumn) : Result (v1.View β × MappedColumn) := do
  let (v, reader) ← read c.ops c.mem c.reader
  .ok (⟨v.rlvl, v.dlvl, convert v.value, v.defined⟩, { c with reader })

instance : AbstractColumnReader MappedColumn where
  type c := c.reader.data_reader.type
  maxRepetitionLevel c := c.reader.r_max
  eofReached c := c.reader.eofReached
  readUnsignedInt c := c.readWith v1.ColumnReader.readUnsignedInt UInt64.ofNat
  readSignedInt c := c.readWith v1.ColumnReader.readSignedInt id
  readFloat c := c.readWith v1.ColumnReader.readFloat UInt64.ofNat
  readString c := c.readWith v1.ColumnReader.readString id

end MappedColumn

/-- Conversions of a double, with the one of a signed integer. -/
structure DoubleOps extends FloatOps where
  /-- `(double) value` of a signed integer. -/
  ofInt64 : Int64 → Nat

namespace RecordMaterializer

open AbstractColumnReader

/-- An object on the way to a leaf: its id, whether it is repeated, and the definition
level from which on it is there. -/
structure Parent where
  id : UInt32
  repeated : Bool
  dmax : Nat
  deriving DecidableEq, Repr

/-- `ColumnState`. The members for values are not set before the first entry with a
value, and not used either. -/
structure ColumnState (ρ : Type) where
  reader : ρ
  r : Nat := 0
  d : Nat := 0
  pending : Bool := false
  defined : Bool := false
  parents : List Parent
  field_id : UInt32
  field_type : ScalarType
  col_type : ColumnType
  val_str : Bytes := []
  val_uint : UInt64 := 0
  val_sint : Int64 := 0
  val_float : UInt64 := 0
  deriving DecidableEq, Repr

namespace ColumnState

variable {ρ : Type}

/-- `fetchIfNotPending`. -/
def fetchIfNotPending [AbstractColumnReader ρ] (c : ColumnState ρ) : Result (ColumnState ρ) :=
  if c.pending then .ok c
  else
    match c.col_type with
    | .SUBRECORD => RAISE .kIllegalStateError ""
    | .BOOLEAN | .UNSIGNED_INT | .DATETIME => do
      let (v, reader) ← readUnsignedInt c.reader
      .ok { c with
        reader, r := v.rlvl, d := v.dlvl, val_uint := v.value, defined := v.defined
        pending := true }
    | .SIGNED_INT => do
      let (v, reader) ← readSignedInt c.reader
      .ok { c with
        reader, r := v.rlvl, d := v.dlvl, val_sint := v.value, defined := v.defined
        pending := true }
    | .STRING => do
      let (v, reader) ← AbstractColumnReader.readString c.reader
      .ok { c with
        reader, r := v.rlvl, d := v.dlvl, val_str := v.value, defined := v.defined
        pending := true }
    | .FLOAT => do
      let (v, reader) ← readFloat c.reader
      .ok { c with
        reader, r := v.rlvl, d := v.dlvl, val_float := v.value, defined := v.defined
        pending := true }

/-- `consume`. -/
def consume (c : ColumnState ρ) : ColumnState ρ := { c with pending := false }

/-- `getUnsignedInteger`. -/
def getUnsignedInteger (ops : DoubleOps) (c : ColumnState ρ) : Result UInt64 :=
  match c.col_type with
  | .SUBRECORD => RAISE .kIllegalStateError ""
  | .BOOLEAN | .UNSIGNED_INT | .DATETIME => .ok c.val_uint
  | .SIGNED_INT => .ok c.val_sint.toUInt64
  | .STRING => stoull c.val_str
  | .FLOAT => .ok (UInt64.ofNat (ops.toUInt64 c.val_float.toNat))

/-- `getString`. -/
def getString (ops : DoubleOps) (c : ColumnState ρ) : Result Bytes :=
  match c.col_type with
  | .SUBRECORD => RAISE .kIllegalStateError ""
  | .BOOLEAN | .UNSIGNED_INT | .DATETIME => .ok (toText c.val_uint.toNat)
  | .SIGNED_INT => .ok (toTextSigned c.val_sint)
  | .STRING => .ok c.val_str
  | .FLOAT => .ok (ops.toText c.val_float.toNat)

/-- `getFloat`. -/
def getFloat (ops : DoubleOps) (c : ColumnState ρ) : Result UInt64 :=
  match c.col_type with
  | .SUBRECORD => RAISE .kIllegalStateError ""
  | .BOOLEAN | .UNSIGNED_INT | .DATETIME => .ok (UInt64.ofNat (ops.ofUInt64 c.val_uint.toNat))
  | .SIGNED_INT => .ok (UInt64.ofNat (ops.ofInt64 c.val_sint))
  | .STRING => (ops.stod c.val_str).map UInt64.ofNat
  | .FLOAT => .ok c.val_float

/-- The value `insertValue` adds to the record, by the type of the field. -/
def fieldValue (ops : DoubleOps) (c : ColumnState ρ) : Result ScalarValue :=
  match c.field_type with
  | ⟨.OBJECT, h⟩ => absurd rfl h
  | ⟨.UINT32, _⟩ => (c.getUnsignedInteger ops).map fun v => .uint32 v.toUInt32
  | ⟨.UINT64, _⟩ => (c.getUnsignedInteger ops).map .uint64
  | ⟨.DATETIME, _⟩ => (c.getUnsignedInteger ops).map .dateTime
  | ⟨.STRING, _⟩ => (c.getString ops).map .string
  | ⟨.BOOLEAN, _⟩ => (c.getUnsignedInteger ops).map fun v => .boolean (v == 1)
  | ⟨.DOUBLE, _⟩ => (c.getFloat ops).map .double

end ColumnState

/-! ### Inserting an entry into a record -/

/-- The loops over the children of a record: go on in the child with the id that has
`n` others of this id before it. Where there are not that many, add what is missing
and a new one. -/
def visitChild (id : UInt32) (go : MessageObject → Result MessageObject) :
    Nat → List MessageObject → Result (List MessageObject)
  | n, [] => do
    let new_cld ← go (.object id [])
    .ok (List.replicate n (.object id []) ++ [new_cld])
  | n, cld :: rest =>
    if cld.id = id then
      match n with
      | 0 => do
        let cld ← go cld
        .ok (cld :: rest)
      | n + 1 => do
        let rest ← visitChild id go n rest
        .ok (cld :: rest)
    else do
      let rest ← visitChild id go n rest
      .ok (cld :: rest)

/-- `visitChild` on the children of a record. -/
def visit (id : UInt32) (n : Nat) (go : MessageObject → Result MessageObject)
    (record : MessageObject) : Result MessageObject := do
  let children ← record.asObject
  let children ← visitChild id go n children
  .ok (.object record.id children)

/-- What `insertValue` and `insertNull` share: go down the parents as long as `enter`
says so, then do `leaf`. The first index belongs to the first repeated parent. -/
def insertAt (enter : Parent → Bool) (leaf : MessageObject → Result MessageObject) :
    List Parent → List Nat → MessageObject → Result MessageObject
  | [], _, record => leaf record
  | parent :: parents, indexes, record =>
    if !enter parent then .ok record
    else if parent.repeated then
      match indexes with
      | [] => .error .fault
      | target_idx :: indexes =>
        visit parent.id target_idx (insertAt enter leaf parents indexes) record
    else visit parent.id 0 (insertAt enter leaf parents indexes) record

variable {ρ : Type}

/-- `insertValue`. -/
def insertValue (ops : DoubleOps) (column : ColumnState ρ) (indexes : List Nat)
    (record : MessageObject) : Result MessageObject :=
  insertAt (fun _ => true)
    (fun record => do
      let value ← column.fieldValue ops
      record.addChild (.scalar column.field_id value))
    column.parents indexes record

/-- `insertNull`: a parent above the definition level of the entry is not there. -/
def insertNull (column : ColumnState ρ) (indexes : List Nat) (record : MessageObject) :
    Result MessageObject :=
  insertAt (fun parent => !decide (parent.dmax > column.d)) .ok column.parents indexes record

/-- Count up the indexes for an entry with repetition level `r`: its own goes up by
one, those below start again. -/
def countUp (r : Nat) (indexes : List Nat) : Result (List Nat) :=
  if r > 0 then
    if r - 1 < indexes.length then
      .ok ((indexes.modify (r - 1) (· + 1)).mapIdx fun x i => if r ≤ x then 0 else i)
    else .error .fault
  else .ok indexes

/-! ### Records -/

variable [AbstractColumnReader ρ]

/-- The loop of `loadColumn`. -/
def loadEntries (ops : DoubleOps) :
    Nat → ColumnState ρ → List Nat → MessageObject → Result (ColumnState ρ × MessageObject)
  | 0, _, _, _ => .error .fault
  | fuel + 1, column, indexes, record => do
    let column ← column.fetchIfNotPending
    let indexes ← countUp column.r indexes
    let record ← (if column.defined then insertValue ops column indexes record
      else insertNull column indexes record)
    let column := column.consume
    if eofReached column.reader then .ok (column, record)
    else do
      let column ← column.fetchIfNotPending
      if column.r = 0 then .ok (column, record)
      else loadEntries ops fuel column indexes record

/-- `loadColumn`. -/
def loadColumn (ops : DoubleOps) (fuel : Nat) (column : ColumnState ρ) (record : MessageObject) :
    Result (ColumnState ρ × MessageObject) :=
  loadEntries ops fuel column (List.replicate (maxRepetitionLevel column.reader) 0) record

/-- The loop of `skipRecord` for one column. -/
def skipEntries : Nat → ColumnState ρ → Result (ColumnState ρ)
  | 0, _ => .error .fault
  | fuel + 1, column => do
    let column ← column.fetchIfNotPending
    let column := column.consume
    if eofReached column.reader then .ok column
    else do
      let column ← column.fetchIfNotPending
      if column.r = 0 then .ok column
      else skipEntries fuel column

end RecordMaterializer

/-- `RecordMaterializer`: its columns in the order in which the hash map is walked. -/
structure RecordMaterializer (ρ : Type) where
  columns_ : List (Bytes × RecordMaterializer.ColumnState ρ)

namespace RecordMaterializer

variable {ρ : Type} [AbstractColumnReader ρ]

/-- The loop of `nextRecord` over the columns. -/
def loadColumns (ops : DoubleOps) (fuel : Nat) :
    List (Bytes × ColumnState ρ) → MessageObject →
      Result (List (Bytes × ColumnState ρ) × MessageObject)
  | [], record => .ok ([], record)
  | (name, column) :: columns, record => do
    let (column, record) ← loadColumn ops fuel column record
    let (columns, record) ← loadColumns ops fuel columns record
    .ok ((name, column) :: columns, record)

/-- `nextRecord`. -/
def nextRecord (ops : DoubleOps) (fuel : Nat) (m : RecordMaterializer ρ) (record : MessageObject) :
    Result (RecordMaterializer ρ × MessageObject) := do
  let (columns_, record) ← loadColumns ops fuel m.columns_ record
  .ok (⟨columns_⟩, record)

/-- The loop of `skipRecord` over the columns. -/
def skipColumns (fuel : Nat) :
    List (Bytes × ColumnState ρ) → Result (List (Bytes × ColumnState ρ))
  | [] => .ok []
  | (name, column) :: columns => do
    let column ← skipEntries fuel column
    let columns ← skipColumns fuel columns
    .ok ((name, column) :: columns)

/-- `skipRecord`. -/
def skipRecord (fuel : Nat) (m : RecordMaterializer ρ) : Result (RecordMaterializer ρ) := do
  let columns_ ← skipColumns fuel m.columns_
  .ok ⟨columns_⟩

/-! ### Construction -/

/-- `emplace`: a name that is there keeps its column. -/
def emplace (columns_ : List (Bytes × ColumnState ρ)) (name : Bytes) (column : ColumnState ρ) :
    List (Bytes × ColumnState ρ) :=
  if columns_.any fun c => c.1 == name then columns_ else columns_ ++ [(name, column)]

mutual

/-- `createColumns`, with `reader` the column readers by their name, for those
`hasColumn` knows. -/
def createColumns (pre : Bytes) (dmax : Nat) (parents : List Parent) (field : MessageSchemaField)
    (reader : Bytes → Option ρ) (columns : List Bytes) (columns_ : List (Bytes × ColumnState ρ)) :
    List (Bytes × ColumnState ρ) :=
  match field with
  | .object id name repeated optional schema =>
    let dmax := if repeated || optional then dmax + 1 else dmax
    createColumnsOf (pre ++ name ++ [dot]) dmax (parents ++ [⟨id, repeated, dmax⟩]) schema reader
      columns columns_
  | .scalar id name type _ _ =>
    match reader (pre ++ name) with
    | none => columns_
    | some r =>
      if columns.isEmpty || columns.contains (pre ++ name) then
        emplace columns_ (pre ++ name)
          { reader := r, parents, field_id := id, field_type := type
            col_type := AbstractColumnReader.type r }
      else columns_

/-- `createColumns` for each field of a schema. -/
def createColumnsOf (pre : Bytes) (dmax : Nat) (parents : List Parent)
    (fields : List MessageSchemaField) (reader : Bytes → Option ρ) (columns : List Bytes)
    (columns_ : List (Bytes × ColumnState ρ)) : List (Bytes × ColumnState ρ) :=
  match fields with
  | [] => columns_
  | f :: fs =>
    createColumnsOf pre dmax parents fs reader columns
      (createColumns pre dmax parents f reader columns columns_)

end

/-- The order in which the hash map of the columns is walked. -/
structure WalkOrder (ρ : Type) where
  iterate : List (Bytes × ColumnState ρ) → List (Bytes × ColumnState ρ)
  perm : ∀ columns, (iterate columns).Perm columns

/-- The constructor. An empty set of column names stands for all columns. -/
def new (order : WalkOrder ρ) (schema : MessageSchema) (reader : Bytes → Option ρ)
    (columns : List Bytes) : RecordMaterializer ρ where
  columns_ := order.iterate (createColumnsOf [] 0 [] schema reader columns [])

end RecordMaterializer

end CStable
