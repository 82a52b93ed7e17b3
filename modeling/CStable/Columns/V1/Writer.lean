import CStable.Columns.WriteCall
import CStable.Format
import CStable.Stx.BitPack

/-!
# `CStable.Columns.V1.Writer`: column writers of v0.1.0

`v1::ColumnWriter` and its seven subclasses. All of them keep the two level
streams and a count of the entries; they differ in how `addDatum` stores a
value. The values of the `write*` functions reach `addDatum` as a memory region,
here as its bytes: eight for everything but a string.

Each `addDatum` checks the size of the region before it changes anything, so a
call that raises leaves the writer as it was.
-/

set_option autoImplicit false

namespace CStable

open Support

namespace v1

/-- The data stream of a column writer, one constructor for each subclass.
`type` is the logical type the constructor of the class was given. -/
inductive DataWriter where
  /-- `BooleanColumnWriter`. -/
  | boolean (data_writer : BitPackEncoder)
  /-- `BitPackedIntColumnWriter`. -/
  | bitPackedInt (max_value : Nat) (data_writer : BitPackEncoder)
  /-- `UInt32ColumnWriter`. -/
  | uint32 (type : UInt8) (data_writer : Bytes)
  /-- `UInt64ColumnWriter`. -/
  | uint64 (type : UInt8) (data_writer : Bytes)
  /-- `LEB128ColumnWriter`. -/
  | leb128 (type : UInt8) (data_writer : Bytes)
  /-- `DoubleColumnWriter`. -/
  | double (data_writer : Bytes)
  /-- `StringColumnWriter`. -/
  | string (data_writer : Bytes)
  deriving DecidableEq, Repr

namespace DataWriter

/-- Store the value of a memory region. -/
def addDatum : DataWriter → Bytes → Result DataWriter
  | boolean w, data =>
    if data.length = 0 then .ok (boolean (w.encode 0))
    else if data.length = 1 ∨ data.length = 4 ∨ data.length = 8 then
      .ok (boolean (w.encode (if leNat data > 0 then 1 else 0)))
    else RAISE .kIllegalArgumentError "invalid size"
  | bitPackedInt max_value w, data =>
    if data.length = 1 ∨ data.length = 4 ∨ data.length = 8 then
      .ok (bitPackedInt max_value (w.encode (leNat data)))
    else RAISE .kIllegalArgumentError "invalid size"
  | uint32 type w, data =>
    if data.length = 1 ∨ data.length = 4 ∨ data.length = 8 then
      .ok (uint32 type (w ++ appendUInt32 (leNat data)))
    else RAISE .kIllegalArgumentError "invalid size"
  | uint64 type w, data =>
    if data.length ≠ 8 then RAISE .kIllegalArgumentError "size != sizeof(uint64_t)"
    else .ok (uint64 type (w ++ appendUInt64 (leNat data)))
  | leb128 type w, data =>
    if data.length ≠ 4 ∧ data.length ≠ 8 then
      RAISE .kIllegalArgumentError "size != sizeof(uint32_t)"
    else .ok (leb128 type (w ++ appendVarUInt (leNat data)))
  | double w, data =>
    if data.length ≠ 8 then RAISE .kIllegalArgumentError "size != sizeof(double)"
    else .ok (double (w ++ appendUInt64 (leNat data)))
  | string w, data => .ok (string (w ++ appendUInt32 data.length ++ data))

/-- `commit`, for the data stream. -/
def commit : DataWriter → DataWriter
  | boolean w => boolean w.flush
  | bitPackedInt max_value w => bitPackedInt max_value w.flush
  | w => w

/-- `size`: some classes count more bytes than `bytes` has. -/
def size : DataWriter → Nat
  | boolean w => w.size
  | bitPackedInt _ w => 4 + w.size
  | uint32 _ w => 4 + w.length
  | uint64 _ w => 8 + w.length
  | leb128 _ w => w.length
  | double w => 8 + w.length
  | string w => w.length

/-- The bytes `write(BinaryMessageWriter*)` appends. -/
def bytes : DataWriter → Bytes
  | boolean w => w.buf
  | bitPackedInt max_value w => appendUInt32 max_value ++ w.buf
  | uint32 _ w => w
  | uint64 _ w => w
  | leb128 _ w => w
  | double w => w
  | string w => w

/-- `type`. -/
def type : DataWriter → UInt8
  | boolean _ => ColumnType.UNSIGNED_INT.code
  | bitPackedInt _ _ => ColumnType.UNSIGNED_INT.code
  | uint32 type _ => type
  | uint64 type _ => type
  | leb128 type _ => type
  | double _ => ColumnType.FLOAT.code
  | string _ => ColumnType.STRING.code

/-- `encoding`. -/
def encoding : DataWriter → ColumnEncoding
  | boolean _ => .BOOLEAN_BITPACKED
  | bitPackedInt _ _ => .UINT32_BITPACKED
  | uint32 _ _ => .UINT32_PLAIN
  | uint64 _ _ => .UINT64_PLAIN
  | leb128 _ _ => .UINT64_LEB128
  | double _ => .FLOAT_IEEE754
  | string _ => .STRING_PLAIN

/-- `max_value_` of `BitPackedIntColumnWriter`; zero for the other classes. -/
def maxValue : DataWriter → Nat
  | bitPackedInt max_value _ => max_value
  | _ => 0

end DataWriter

/-- `v1::ColumnWriter`. -/
structure ColumnWriter where
  r_max : Nat
  d_max : Nat
  rlvl_writer : BitPackEncoder
  dlvl_writer : BitPackEncoder
  num_vals : Nat
  data_writer : DataWriter
  deriving DecidableEq, Repr

namespace ColumnWriter

/-- The constructor of the base class. -/
def new (r_max d_max : Nat) (data_writer : DataWriter) : ColumnWriter where
  r_max := r_max
  d_max := d_max
  rlvl_writer := BitPackEncoder.new r_max
  dlvl_writer := BitPackEncoder.new d_max
  num_vals := 0
  data_writer := data_writer

/-- The data stream the constructor of the class for a storage type starts
with. -/
def newDataWriter (encoding : ColumnEncoding) (type : UInt8) : DataWriter :=
  match encoding with
  | .BOOLEAN_BITPACKED => .boolean (BitPackEncoder.new 1)
  | .UINT32_BITPACKED => .bitPackedInt 0xffffffff (BitPackEncoder.new 0xffffffff)
  | .UINT32_PLAIN => .uint32 type []
  | .UINT64_PLAIN => .uint64 type []
  | .UINT64_LEB128 => .leb128 type []
  | .FLOAT_IEEE754 => .double []
  | .STRING_PLAIN => .string []

/-- The data stream of a new column of a class that was given the maximum of its
values, which is a parameter of the constructor of `BitPackedIntColumnWriter`, by
default `0xffffffff`. The other classes do not have it. -/
def dataWriterOf (encoding : ColumnEncoding) (type : UInt8) (max_value : Nat) : DataWriter :=
  match encoding with
  | .UINT32_BITPACKED => .bitPackedInt max_value (BitPackEncoder.new max_value)
  | _ => newDataWriter encoding type

/-- Both levels and the count of an entry. -/
def addLevels (w : ColumnWriter) (rlvl dlvl : Nat) : ColumnWriter :=
  { w with
    rlvl_writer := w.rlvl_writer.encode rlvl
    dlvl_writer := w.dlvl_writer.encode dlvl
    num_vals := w.num_vals + 1 }

/-- `writeNull`. -/
def writeNull (w : ColumnWriter) (rlvl dlvl : Nat) : ColumnWriter := w.addLevels rlvl dlvl

/-- `addDatum`. -/
def addDatum (w : ColumnWriter) (rlvl dlvl : Nat) (data : Bytes) : Result ColumnWriter := do
  let data_writer ← w.data_writer.addDatum data
  .ok { w.addLevels rlvl dlvl with data_writer }

/-- The memory region the `write*` functions pass to `addDatum`. -/
def datum : WriteArg → Option Bytes
  | .null => none
  | .boolean value => some (leBytes 8 (if value then 1 else 0))
  | .unsignedInt value => some (leBytes 8 value.toNat)
  | .signedInt value => some (leBytes 8 value.toUInt64.toNat)
  | .float value => some (leBytes 8 value.toNat)
  | .string value => some value
  | .dateTime value => some (leBytes 8 value.toNat)

/-- The `write*` functions. -/
def call (w : ColumnWriter) (c : WriteCall) : Result ColumnWriter :=
  match datum c.arg with
  | none => .ok (w.writeNull c.rlvl c.dlvl)
  | some data => w.addDatum c.rlvl c.dlvl data

/-- `commit`. -/
def commit (w : ColumnWriter) : ColumnWriter :=
  { w with
    rlvl_writer := w.rlvl_writer.flush
    dlvl_writer := w.dlvl_writer.flush
    data_writer := w.data_writer.commit }

/-- `bodySize`. -/
def bodySize (w : ColumnWriter) : Nat :=
  32 + w.rlvl_writer.size + w.dlvl_writer.size + w.data_writer.size

/-- The bytes `write` appends to its buffer. -/
def body (w : ColumnWriter) : Bytes :=
  appendUInt64 w.num_vals ++ appendUInt64 w.rlvl_writer.size ++ appendUInt64 w.dlvl_writer.size ++
    appendUInt64 w.data_writer.size ++ w.rlvl_writer.buf ++ w.dlvl_writer.buf ++
    w.data_writer.bytes

/-- `write(buf, buf_len)`: bytes of the buffer that are not written keep what
they hold. -/
def write (w : ColumnWriter) (buf : Bytes) : Result Bytes :=
  if w.body.length > buf.length then
    RAISE .kBufferOverflowError "provided buffer is too small"
  else .ok (w.body ++ buf.drop w.body.length)

/-- `maxDefinitionLevel`. -/
def maxDefinitionLevel (w : ColumnWriter) : Nat := w.d_max

end ColumnWriter

end v1

end CStable
