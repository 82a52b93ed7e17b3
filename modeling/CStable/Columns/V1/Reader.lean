import CStable.Format
import CStable.Stx.BitPack

/-!
# `CStable.Columns.V1.Reader`: column readers of v0.1.0

`v1::ColumnReader` and its seven subclasses, over a memory mapping of the file.
A reader is given the address and the size of a column body; the sizes of the
streams come from the body itself. `readNext` is the read function in which the
class decodes its data: `readFloat` for doubles, `readString` for strings and
`readUnsignedInt` for the rest.
-/

set_option autoImplicit false

namespace CStable

open Support

/-- `BinaryMessageReader`: a region of the mapping and a position in it. -/
structure BinaryMessageReader where
  ptr : Nat
  size : Nat
  pos : Nat
  deriving DecidableEq, Repr

namespace BinaryMessageReader

/-- The constructor. -/
def new (buf buf_len : Nat) : BinaryMessageReader := ⟨buf, buf_len, 0⟩

/-- `read`, and the access to what it returns a pointer to. -/
def read (mem : Mapping) (r : BinaryMessageReader) (size : Nat) :
    Result (Bytes × BinaryMessageReader) :=
  if r.pos + size > r.size then
    RAISE .kBufferOverflowError "requested read exceeds message bounds"
  else do
    let bytes ← load mem (r.ptr + r.pos) size
    .ok (bytes, { r with pos := r.pos + size })

/-- `readUInt32`. -/
def readUInt32 (mem : Mapping) (r : BinaryMessageReader) :
    Result (Nat × BinaryMessageReader) := do
  let (bytes, r) ← r.read mem 4
  .ok (leNat bytes, r)

/-- `readUInt64`, and `readDouble` with the double as its bit pattern. -/
def readUInt64 (mem : Mapping) (r : BinaryMessageReader) :
    Result (Nat × BinaryMessageReader) := do
  let (bytes, r) ← r.read mem 8
  .ok (leNat bytes, r)

/-- The loop of `readVarUInt`. Every round moves the position on by one, so the
fuel `readVarUInt` starts it with is never used up. -/
def readVarUIntFrom (mem : Mapping) :
    Nat → Nat → Nat → BinaryMessageReader → Result (Nat × BinaryMessageReader)
  | 0, _, _, _ => RAISE .kBufferOverflowError "requested read exceeds message bounds"
  | fuel + 1, i, value, r => do
    let (bytes, r) ← r.read mem 1
    let b := leNat bytes
    let value := value ||| ((b &&& 0x7f) <<< (7 * i % 64)) % 2 ^ 64
    if b &&& 0x80 = 0 then .ok (value, r) else readVarUIntFrom mem fuel (i + 1) value r

/-- `readVarUInt`. -/
def readVarUInt (mem : Mapping) (r : BinaryMessageReader) :
    Result (Nat × BinaryMessageReader) :=
  readVarUIntFrom mem (r.size - r.pos + 1) 0 0 r

end BinaryMessageReader

namespace v1

/-- A value as the class of a column decodes it. -/
inductive Datum where
  | unsignedInt (value : Nat)
  | float (value : Nat)
  | string (value : Bytes)
  deriving DecidableEq, Repr

/-- The data stream of a column reader, one constructor for each subclass. -/
inductive DataReader where
  /-- `BooleanColumnReader`. -/
  | boolean (data_reader : BitPackDecoder)
  /-- `BitPackedIntColumnReader`. -/
  | bitPackedInt (max_value : Nat) (data_reader : BitPackDecoder)
  /-- `UInt32ColumnReader`. -/
  | uint32 (data_reader : BinaryMessageReader)
  /-- `UInt64ColumnReader`. -/
  | uint64 (data_reader : BinaryMessageReader)
  /-- `LEB128ColumnReader`. -/
  | leb128 (data_reader : BinaryMessageReader)
  /-- `DoubleColumnReader`. -/
  | double (data_reader : BinaryMessageReader)
  /-- `StringColumnReader`. -/
  | string (data_reader : BinaryMessageReader)
  deriving DecidableEq, Repr

namespace DataReader

/-- What the constructor of the class for a storage type does with the data
stream. The size that is left without the maximum of a bit-packed column wraps
when the stream is shorter. -/
def new (mem : Mapping) (encoding : ColumnEncoding) (data data_size : Nat) :
    Result DataReader :=
  match encoding with
  | .BOOLEAN_BITPACKED => .ok (boolean (BitPackDecoder.new data data_size 1))
  | .UINT32_BITPACKED => do
    let bytes ← load mem data 4
    let max_value := leNat bytes
    .ok (bitPackedInt max_value
      (BitPackDecoder.new (data + 4) ((data_size + 2 ^ 64 - 4) % 2 ^ 64) max_value))
  | .UINT32_PLAIN => .ok (uint32 (BinaryMessageReader.new data data_size))
  | .UINT64_PLAIN => .ok (uint64 (BinaryMessageReader.new data data_size))
  | .UINT64_LEB128 => .ok (leb128 (BinaryMessageReader.new data data_size))
  | .FLOAT_IEEE754 => .ok (double (BinaryMessageReader.new data data_size))
  | .STRING_PLAIN => .ok (string (BinaryMessageReader.new data data_size))

/-- Decode the next value. -/
def next (mem : Mapping) : DataReader → Result (Datum × DataReader)
  | boolean r => do
    let (v, r) ← r.next mem
    .ok (.unsignedInt v, boolean r)
  | bitPackedInt max_value r => do
    let (v, r) ← r.next mem
    .ok (.unsignedInt v, bitPackedInt max_value r)
  | uint32 r => do
    let (v, r) ← r.readUInt32 mem
    .ok (.unsignedInt v, uint32 r)
  | uint64 r => do
    let (v, r) ← r.readUInt64 mem
    .ok (.unsignedInt v, uint64 r)
  | leb128 r => do
    let (v, r) ← r.readVarUInt mem
    .ok (.unsignedInt v, leb128 r)
  | double r => do
    let (v, r) ← r.readUInt64 mem
    .ok (.float v, double r)
  | string r => do
    let (data_len, r) ← r.readUInt32 mem
    let (data, r) ← r.read mem data_len
    .ok (.string data, string r)

/-- `type`. -/
def type : DataReader → ColumnType
  | boolean _ => .BOOLEAN
  | bitPackedInt _ _ => .UNSIGNED_INT
  | uint32 _ => .UNSIGNED_INT
  | uint64 _ => .UNSIGNED_INT
  | leb128 _ => .UNSIGNED_INT
  | double _ => .FLOAT
  | string _ => .STRING

/-- `encoding`. -/
def encoding : DataReader → ColumnEncoding
  | boolean _ => .BOOLEAN_BITPACKED
  | bitPackedInt _ _ => .UINT32_BITPACKED
  | uint32 _ => .UINT32_PLAIN
  | uint64 _ => .UINT64_PLAIN
  | leb128 _ => .UINT64_LEB128
  | double _ => .FLOAT_IEEE754
  | string _ => .STRING_PLAIN

/-- `max_value_` of `BitPackedIntColumnReader`; zero for the other classes. -/
def maxValue : DataReader → Nat
  | bitPackedInt max_value _ => max_value
  | _ => 0

end DataReader

/-- `v1::ColumnReader`. -/
structure ColumnReader where
  r_max : Nat
  d_max : Nat
  vals_total : Nat
  vals_read : Nat
  rlvl_reader : BitPackDecoder
  dlvl_reader : BitPackDecoder
  data_reader : DataReader
  deriving DecidableEq, Repr

/-- What a read function stores through its arguments, and the value if it
returns `true`. -/
structure Entry where
  rlvl : Nat
  dlvl : Nat
  value : Option Datum
  deriving DecidableEq, Repr

namespace ColumnReader

/-- The constructors: `data` is the address of the body. Its streams are looked for
where the sizes in the body say, which are compared with nothing. -/
def new (mem : Mapping) (encoding : ColumnEncoding) (r_max d_max data size : Nat) :
    Result ColumnReader := do
  let reader := BinaryMessageReader.new data size
  let (vals_total, reader) ← reader.readUInt64 mem
  let (rlvl_size, reader) ← reader.readUInt64 mem
  let (dlvl_size, reader) ← reader.readUInt64 mem
  let (data_size, _) ← reader.readUInt64 mem
  let data_reader ←
    DataReader.new mem encoding (pointerSum mem (data + 32 + rlvl_size + dlvl_size)) data_size
  .ok
    { r_max, d_max, vals_total
      vals_read := 0
      rlvl_reader := BitPackDecoder.new (pointerSum mem (data + 32)) rlvl_size r_max
      dlvl_reader := BitPackDecoder.new (pointerSum mem (data + 32 + rlvl_size)) dlvl_size d_max
      data_reader }

/-- The read function of the class. -/
def readNext (mem : Mapping) (c : ColumnReader) : Result (Entry × ColumnReader) := do
  let (r, rlvl_reader) ← c.rlvl_reader.next mem
  let (d, dlvl_reader) ← c.dlvl_reader.next mem
  let c := { c with rlvl_reader, dlvl_reader, vals_read := c.vals_read + 1 }
  if d = c.d_max then
    let (v, data_reader) ← c.data_reader.next mem
    .ok (⟨r, d, some v⟩, { c with data_reader })
  else
    .ok (⟨r, d, none⟩, c)

/-- `nextRepetitionLevel`. -/
def nextRepetitionLevel (mem : Mapping) (c : ColumnReader) : Result (Nat × ColumnReader) := do
  let (r, rlvl_reader) ← c.rlvl_reader.peek mem
  .ok (r, { c with rlvl_reader })

/-- `eofReached`. -/
def eofReached (c : ColumnReader) : Bool := decide (c.vals_read ≥ c.vals_total)

end ColumnReader

end v1

end CStable
