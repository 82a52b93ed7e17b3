import CStable.Format
import CStable.Stx.Message

/-!
# `CStable.TableSchema`: the schema of a table and its flat columns

`TableSchema` is the list of its columns in the order of `columns_`. A column of
type `SUBRECORD` always has a subschema, as the `addSubrecord` functions build
it, and no other column has one, so the two kinds are two constructors.

The copy constructor walks a hash map, so the order of the columns in a copy is
whatever order the standard library iterates in. That order is a parameter,
`HashOrder`; all that is known of it is that every entry comes up once.
-/

set_option autoImplicit false

namespace CStable

/-- A column type that is not `SUBRECORD`. -/
abbrev LeafType := {t : ColumnType // t ≠ .SUBRECORD}

/-- `TableSchema::Column`. -/
inductive Column where
  | leaf (name : Bytes) (type : LeafType) (encoding : ColumnEncoding) (repeated optional : Bool)
  | subrecord (name : Bytes) (subschema : List Column) (repeated optional : Bool)

namespace Column

/-- The name of the column within its schema. -/
def name : Column → Bytes
  | leaf name _ _ _ _ => name
  | subrecord name _ _ _ => name

/-- Whether the column may have several values in a record. -/
def repeated : Column → Bool
  | leaf _ _ _ repeated _ => repeated
  | subrecord _ _ repeated _ => repeated

/-- Whether the column may have no value in a record. -/
def optional : Column → Bool
  | leaf _ _ _ _ optional => optional
  | subrecord _ _ _ optional => optional

end Column

/-- `TableSchema`: its columns in order. -/
abbrev TableSchema := List Column

/-- The order in which a hash map built by inserting the columns of a list is
walked. -/
structure HashOrder where
  iterate : List Column → List Column
  perm : ∀ columns, (iterate columns).Perm columns

namespace TableSchema

mutual

/-- The copy of one column. -/
def copyColumn (order : HashOrder) : Column → Column
  | .leaf name type encoding repeated optional => .leaf name type encoding repeated optional
  | .subrecord name subschema repeated optional =>
    .subrecord name (order.iterate (copyColumns order subschema)) repeated optional

/-- The copies of the columns of a schema. -/
def copyColumns (order : HashOrder) : List Column → List Column
  | [] => []
  | c :: cs => copyColumn order c :: copyColumns order cs

end

/-- The copy constructor. -/
def copy (order : HashOrder) (schema : TableSchema) : TableSchema :=
  order.iterate (copyColumns order schema)

/-- The type and encoding `fromProtobuf` chooses for a field type. -/
def columnOfFieldType (t : ScalarType) : LeafType × ColumnEncoding :=
  match t with
  | ⟨.BOOLEAN, _⟩ => (⟨.BOOLEAN, by decide⟩, .BOOLEAN_BITPACKED)
  | ⟨.STRING, _⟩ => (⟨.STRING, by decide⟩, .STRING_PLAIN)
  | ⟨.UINT64, _⟩ => (⟨.UNSIGNED_INT, by decide⟩, .UINT64_LEB128)
  | ⟨.UINT32, _⟩ => (⟨.UNSIGNED_INT, by decide⟩, .UINT64_LEB128)
  | ⟨.DOUBLE, _⟩ => (⟨.FLOAT, by decide⟩, .FLOAT_IEEE754)
  | ⟨.DATETIME, _⟩ => (⟨.DATETIME, by decide⟩, .UINT64_LEB128)
  | ⟨.OBJECT, h⟩ => absurd rfl h

mutual

/-- The column `fromProtobuf` adds for a field. `addSubrecord` stores a copy of
the subschema. -/
def columnFromProtobuf (order : HashOrder) : MessageSchemaField → Column
  | .scalar _ name type repeated optional =>
    .leaf name (columnOfFieldType type).1 (columnOfFieldType type).2 repeated optional
  | .object _ name repeated optional schema =>
    .subrecord name (copy order (fromProtobuf order schema)) repeated optional

/-- `fromProtobuf`. -/
def fromProtobuf (order : HashOrder) : List MessageSchemaField → TableSchema
  | [] => []
  | f :: fs => columnFromProtobuf order f :: fromProtobuf order fs

end

/-! ### Flat columns -/

/-- The byte of the separator of column paths. -/
def dot : UInt8 := 0x2e

/-- The fields of a `ColumnConfig` that `listFlatColumns` sets. -/
structure FlatColumn where
  column_name : Bytes
  storage_type : ColumnEncoding
  logical_type : LeafType
  rlevel_max : Nat
  dlevel_max : Nat
  deriving DecidableEq

mutual

/-- `listFlatColumns`, with `pre` the prefix of the name. -/
def listFlatColumns (pre : Bytes) (r_max d_max : Nat) (field : Column) : List FlatColumn :=
  match field with
  | .leaf name type encoding repeated optional =>
    let r_max := if repeated then r_max + 1 else r_max
    let d_max := if repeated || optional then d_max + 1 else d_max
    [⟨pre ++ name, encoding, type, r_max, d_max⟩]
  | .subrecord name subschema repeated optional =>
    let r_max := if repeated then r_max + 1 else r_max
    let d_max := if repeated || optional then d_max + 1 else d_max
    listFlatColumnsOf (pre ++ name ++ [dot]) r_max d_max subschema

/-- `listFlatColumns` for each column of a schema in order. -/
def listFlatColumnsOf (pre : Bytes) (r_max d_max : Nat) (fields : List Column) :
    List FlatColumn :=
  match fields with
  | [] => []
  | f :: fs => listFlatColumns pre r_max d_max f ++ listFlatColumnsOf pre r_max d_max fs

end

/-- The `ColumnConfig` of a flat column: its id and the fields of a v0.1.0 body
are not set. -/
def FlatColumn.config (mem : Uninit) (i : Nat) (c : FlatColumn) : ColumnConfig where
  column_id := mem.column_id i
  column_name := c.column_name
  storage_type := c.storage_type.code
  logical_type := c.logical_type.val.code
  rlevel_max := c.rlevel_max
  dlevel_max := c.dlevel_max
  body_offset := mem.column_config.body_offset
  body_size := mem.column_config.body_size

/-- `flatColumns`. -/
def flatColumns (mem : Uninit) (schema : TableSchema) : List ColumnConfig :=
  (listFlatColumnsOf [] 0 0 schema).mapIdx (FlatColumn.config mem)

end TableSchema

end CStable
