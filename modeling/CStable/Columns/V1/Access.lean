import CStable.Columns.V1.Reader
import CStable.Columns.V1.Writer
import CStable.Stx.Text

/-!
# `CStable.Columns.V1.Access`: typed reads and copies of a v0.1.0 column

Every column reader has a read function for each type. One of them decodes the
data of the class (`readNext` of `Columns.V1.Reader`); the others call it and
convert the value it stored, or store a default for a null. Each class has its own
conversions, so they are given here by the encoding, one line for each class as
its source file has it.

A conversion of text (`std::stoull` and the like) may raise. The reader has then
moved on all the same; a caller that goes on with it is not modelled.
-/

set_option autoImplicit false

namespace CStable

/-- Conversions of a double that the language and the C++ library provide. A double
is its bit pattern. -/
structure FloatOps where
  /-- `value > 1`. -/
  greaterThanOne : Nat → Bool
  /-- `(uint64_t) value`. -/
  toUInt64 : Nat → Nat
  /-- `(int64_t) value`. -/
  toInt64 : Nat → Int64
  /-- `StringUtil::toString(value)`. -/
  toText : Nat → Bytes
  /-- `(double) value` of an unsigned integer. -/
  ofUInt64 : Nat → Nat
  /-- `std::stod`. -/
  stod : Bytes → Result Nat

namespace v1

/-- What a typed read function stores through its arguments, and what it returns. -/
structure View (α : Type) where
  rlvl : Nat
  dlvl : Nat
  value : α
  defined : Bool
  deriving DecidableEq, Repr

/-! ### The conversions of the classes -/

/-- The value `readBoolean` stores for a value of the class. -/
def asBoolean (ops : FloatOps) : ColumnEncoding → Datum → Result Bool
  | .BOOLEAN_BITPACKED, .unsignedInt tmp => .ok (decide (tmp > 0))
  | .UINT32_BITPACKED, .unsignedInt tmp => .ok (decide (tmp > 1))
  | .UINT32_PLAIN, .unsignedInt tmp => .ok (decide (tmp > 1))
  | .UINT64_PLAIN, .unsignedInt tmp => .ok (decide (tmp > 1))
  | .UINT64_LEB128, .unsignedInt tmp => .ok (decide (tmp > 1))
  | .FLOAT_IEEE754, .float tmp => .ok (ops.greaterThanOne tmp)
  | .STRING_PLAIN, .string tmp => .ok (tmp == chars ['t', 'r', 'u', 'e'])
  | _, _ => .error .fault

/-- The value `readUnsignedInt` stores for a value of the class. -/
def asUnsignedInt (ops : FloatOps) : ColumnEncoding → Datum → Result Nat
  | .BOOLEAN_BITPACKED, .unsignedInt tmp => .ok tmp
  | .UINT32_BITPACKED, .unsignedInt tmp => .ok tmp
  | .UINT32_PLAIN, .unsignedInt tmp => .ok tmp
  | .UINT64_PLAIN, .unsignedInt tmp => .ok tmp
  | .UINT64_LEB128, .unsignedInt tmp => .ok tmp
  | .FLOAT_IEEE754, .float tmp => .ok (ops.toUInt64 tmp)
  | .STRING_PLAIN, .string tmp => (stoull tmp).map UInt64.toNat
  | _, _ => .error .fault

/-- The value `readSignedInt` stores for a value of the class. -/
def asSignedInt (ops : FloatOps) : ColumnEncoding → Datum → Result Int64
  | .BOOLEAN_BITPACKED, .unsignedInt tmp => .ok (UInt64.ofNat tmp).toInt64
  | .UINT32_BITPACKED, .unsignedInt tmp => .ok (UInt64.ofNat tmp).toInt64
  | .UINT32_PLAIN, .unsignedInt tmp => .ok (UInt64.ofNat tmp).toInt64
  | .UINT64_PLAIN, .unsignedInt tmp => .ok (UInt64.ofNat tmp).toInt64
  | .UINT64_LEB128, .unsignedInt tmp => .ok (UInt64.ofNat tmp).toInt64
  | .FLOAT_IEEE754, .float tmp => .ok (ops.toInt64 tmp)
  | .STRING_PLAIN, .string tmp => stoll tmp
  | _, _ => .error .fault

/-- The value `readFloat` stores for a value of the class. -/
def asFloat (ops : FloatOps) : ColumnEncoding → Datum → Result Nat
  | .BOOLEAN_BITPACKED, .unsignedInt tmp => .ok (ops.ofUInt64 tmp)
  | .UINT32_BITPACKED, .unsignedInt tmp => .ok (ops.ofUInt64 tmp)
  | .UINT32_PLAIN, .unsignedInt tmp => .ok (ops.ofUInt64 tmp)
  | .UINT64_PLAIN, .unsignedInt tmp => .ok (ops.ofUInt64 tmp)
  | .UINT64_LEB128, .unsignedInt tmp => .ok (ops.ofUInt64 tmp)
  | .FLOAT_IEEE754, .float tmp => .ok tmp
  | .STRING_PLAIN, .string tmp => ops.stod tmp
  | _, _ => .error .fault

/-- The value `readString` stores for a value of the class.
`BooleanColumnReader` compares the pointer it was given with zero, not the value
it has read, and the pointer is never null. -/
def asString (ops : FloatOps) : ColumnEncoding → Datum → Result Bytes
  | .BOOLEAN_BITPACKED, .unsignedInt _ => .ok (chars ['t', 'r', 'u', 'e'])
  | .UINT32_BITPACKED, .unsignedInt tmp => .ok (toText tmp)
  | .UINT32_PLAIN, .unsignedInt tmp => .ok (toText tmp)
  | .UINT64_PLAIN, .unsignedInt tmp => .ok (toText tmp)
  | .UINT64_LEB128, .unsignedInt tmp => .ok (toText tmp)
  | .FLOAT_IEEE754, .float tmp => .ok (ops.toText tmp)
  | .STRING_PLAIN, .string tmp => .ok tmp
  | _, _ => .error .fault

/-! ### The read functions -/

namespace ColumnReader

/-- The shape all read functions share: the value of the class is read and
converted, and a null leaves the default behind. -/
def readAs {α : Type} (mem : Mapping) (convert : ColumnEncoding → Datum → Result α) (default : α)
    (c : ColumnReader) : Result (View α × ColumnReader) := do
  let (e, c') ← c.readNext mem
  match e.value with
  | some v => do
    let value ← convert c.data_reader.encoding v
    .ok (⟨e.rlvl, e.dlvl, value, true⟩, c')
  | none => .ok (⟨e.rlvl, e.dlvl, default, false⟩, c')

/-- `readBoolean`. -/
def readBoolean (ops : FloatOps) (mem : Mapping) (c : ColumnReader) :
    Result (View Bool × ColumnReader) :=
  c.readAs mem (asBoolean ops) false

/-- `readUnsignedInt`. -/
def readUnsignedInt (ops : FloatOps) (mem : Mapping) (c : ColumnReader) :
    Result (View Nat × ColumnReader) :=
  c.readAs mem (asUnsignedInt ops) 0

/-- `readSignedInt`. -/
def readSignedInt (ops : FloatOps) (mem : Mapping) (c : ColumnReader) :
    Result (View Int64 × ColumnReader) :=
  c.readAs mem (asSignedInt ops) 0

/-- `readFloat`. -/
def readFloat (ops : FloatOps) (mem : Mapping) (c : ColumnReader) :
    Result (View Nat × ColumnReader) :=
  c.readAs mem (asFloat ops) 0

/-- `readString`. -/
def readString (ops : FloatOps) (mem : Mapping) (c : ColumnReader) :
    Result (View Bytes × ColumnReader) :=
  c.readAs mem (asString ops) []

/-! ### Copying -/

/-- The call `copyValue` makes for a value it has read: `writeNull` unless the value
is at the maximal definition level of the reader. -/
def copyCall {α : Type} (d_max : Nat) (write : α → WriteArg) (v : View α) : WriteCall :=
  ⟨v.rlvl, v.dlvl, if v.dlvl = d_max then write v.value else .null⟩

/-- `copyValue`. -/
def copyValue (ops : FloatOps) (mem : Mapping) (c : ColumnReader) (writer : ColumnWriter) :
    Result (ColumnReader × ColumnWriter) :=
  match c.data_reader with
  | .boolean _ => do
    let (v, c') ← c.readBoolean ops mem
    let writer ← writer.call (copyCall c.d_max .boolean v)
    .ok (c', writer)
  | .double _ => do
    let (v, c') ← c.readFloat ops mem
    let writer ← writer.call (copyCall c.d_max (fun bits => .float (UInt64.ofNat bits)) v)
    .ok (c', writer)
  | .string _ => do
    let (v, c') ← c.readString ops mem
    let writer ← writer.call (copyCall c.d_max .string v)
    .ok (c', writer)
  | .bitPackedInt _ _ | .uint32 _ | .uint64 _ | .leb128 _ => do
    let (v, c') ← c.readUnsignedInt ops mem
    let writer ← writer.call (copyCall c.d_max (fun value => .unsignedInt (UInt64.ofNat value)) v)
    .ok (c', writer)

end ColumnReader

end v1

end CStable
