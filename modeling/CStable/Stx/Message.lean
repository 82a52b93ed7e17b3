import CStable.Stx.Exception

/-!
# `CStable.Stx.Message`: messages and their schemas

`MessageObject` and `MessageSchema` of `stx/protobuf`. A message schema is the
list of its fields; the hash maps of the class are looked up by the first field
with the name or id, which is what `emplace` keeps. An `OBJECT` field always has
a schema, as `mkObjectField` builds it, and a field of another type has none.
-/

set_option autoImplicit false

namespace CStable

/-- `FieldType`. -/
inductive FieldType where
  | OBJECT
  | BOOLEAN
  | UINT32
  | STRING
  | UINT64
  | DOUBLE
  | DATETIME
  deriving DecidableEq, Repr

/-- A field type that is not `OBJECT`. -/
abbrev ScalarType := {t : FieldType // t ≠ .OBJECT}

/-- The value of a message that is not an object. Doubles are bit patterns,
times microseconds. -/
inductive ScalarValue where
  | boolean (value : Bool)
  | uint32 (value : UInt32)
  | string (value : Bytes)
  | uint64 (value : UInt64)
  | double (value : UInt64)
  | dateTime (value : UInt64)
  deriving DecidableEq, Repr

/-- The type tag of a value. -/
def ScalarValue.type : ScalarValue → FieldType
  | boolean _ => .BOOLEAN
  | uint32 _ => .UINT32
  | string _ => .STRING
  | uint64 _ => .UINT64
  | double _ => .DOUBLE
  | dateTime _ => .DATETIME

/-- `MessageObject`. -/
inductive MessageObject where
  | object (id : UInt32) (children : List MessageObject)
  | scalar (id : UInt32) (value : ScalarValue)
  deriving Repr

namespace MessageObject

/-- The field id. -/
def id : MessageObject → UInt32
  | object id _ => id
  | scalar id _ => id

/-- `asObject`. -/
def asObject : MessageObject → Result (List MessageObject)
  | object _ children => .ok children
  | scalar _ _ => RAISE .kTypeError ""

/-- `addChild`. -/
def addChild (record child : MessageObject) : Result MessageObject :=
  match record with
  | object id children => .ok (object id (children ++ [child]))
  | scalar _ _ => RAISE .kTypeError ""

/-- `asString`. -/
def asString : MessageObject → Result Bytes
  | scalar _ (.string value) => .ok value
  | _ => RAISE .kTypeError ""

/-- `asUInt64`. -/
def asUInt64 : MessageObject → Result UInt64
  | scalar _ (.uint32 value) => .ok value.toUInt64
  | scalar _ (.uint64 value) => .ok value
  | scalar _ (.dateTime value) => .ok value
  | _ => RAISE .kTypeError "can't convert MessageObject to UINT64"

/-- `asDouble`. -/
def asDouble : MessageObject → Result UInt64
  | scalar _ (.double value) => .ok value
  | _ => RAISE .kTypeError ""

/-- `asBool`. -/
def asBool : MessageObject → Result Bool
  | scalar _ (.uint32 value) => .ok (value > 0)
  | scalar _ (.boolean value) => .ok value
  | _ => RAISE .kTypeError ""

/-- `asUnixTime`. -/
def asUnixTime : MessageObject → Result UInt64
  | scalar _ (.dateTime value) => .ok value
  | _ => RAISE .kTypeError ""

end MessageObject

/-- `MessageSchemaField`. -/
inductive MessageSchemaField where
  | scalar (id : UInt32) (name : Bytes) (type : ScalarType) (repeated optional : Bool)
  | object (id : UInt32) (name : Bytes) (repeated optional : Bool)
      (schema : List MessageSchemaField)

namespace MessageSchemaField

/-- The field id. -/
def id : MessageSchemaField → UInt32
  | scalar id _ _ _ _ => id
  | object id _ _ _ _ => id

/-- The field name. -/
def name : MessageSchemaField → Bytes
  | scalar _ name _ _ _ => name
  | object _ name _ _ _ => name

/-- Whether the field may occur more than once. -/
def repeated : MessageSchemaField → Bool
  | scalar _ _ _ repeated _ => repeated
  | object _ _ repeated _ _ => repeated

/-- Whether the field may be missing. -/
def optional : MessageSchemaField → Bool
  | scalar _ _ _ _ optional => optional
  | object _ _ _ optional _ => optional

/-- The schema pointer of the field. -/
def schema : MessageSchemaField → Option (List MessageSchemaField)
  | scalar _ _ _ _ _ => none
  | object _ _ _ _ schema => some schema

end MessageSchemaField

/-- `MessageSchema`: its fields in order. -/
abbrev MessageSchema := List MessageSchemaField

namespace MessageSchema

/-- `fieldId`. -/
def fieldId (schema : MessageSchema) (path : Bytes) : Result UInt32 :=
  match schema.find? fun f => f.name == path with
  | some f => .ok f.id
  | none => RAISEF .kIndexError "field not found: $0" [path]

/-- `fieldSchema`: null for a field that is not an object. -/
def fieldSchema (schema : MessageSchema) (id : UInt32) : Result (Option MessageSchema) :=
  match schema.find? fun f => f.id == id with
  | some f => .ok f.schema
  | none => RAISEF .kIndexError "field not found: $0" []

end MessageSchema

end CStable
