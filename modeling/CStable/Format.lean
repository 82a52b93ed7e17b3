import CStable.Stx.Stream
import CStable.Stx.SHA1
import CStable.Support.Disk

/-!
# `CStable.Format`: the binary format of both versions

The types of `cstable.h` and the header functions of `cstable.cc`.

Sizes and levels (`size_t`) are natural numbers, fields of the format are
machine integers. An enumeration field holds any byte, as the enum classes of
the source do; `ColumnEncoding.ofCode?` and `ColumnType.ofCode?` are the
`switch` over the named values.

Some storage is read or copied before it is set: the buffers of `readHeader`
where the stream is short, and the fields of a `ColumnConfig` that a format
does not carry. What it holds is a parameter, `Uninit`.
-/

set_option autoImplicit false

namespace CStable

open Support Support.Parser

/-! ### Types -/

/-- `ColumnType`, the logical type of a column. -/
inductive ColumnType where
  | SUBRECORD
  | BOOLEAN
  | UNSIGNED_INT
  | SIGNED_INT
  | STRING
  | FLOAT
  | DATETIME
  deriving DecidableEq, Repr

/-- The value of the enumerator. -/
def ColumnType.code : ColumnType → UInt8
  | SUBRECORD => 0
  | BOOLEAN => 1
  | UNSIGNED_INT => 2
  | SIGNED_INT => 3
  | STRING => 4
  | FLOAT => 5
  | DATETIME => 6

/-- The enumerator with the given value, if there is one. -/
def ColumnType.ofCode? (code : UInt8) : Option ColumnType :=
  [SUBRECORD, BOOLEAN, UNSIGNED_INT, SIGNED_INT, STRING, FLOAT, DATETIME].find?
    fun t => t.code == code

/-- `ColumnEncoding`, the storage type of a column. -/
inductive ColumnEncoding where
  | BOOLEAN_BITPACKED
  | UINT32_BITPACKED
  | UINT32_PLAIN
  | UINT64_PLAIN
  | UINT64_LEB128
  | FLOAT_IEEE754
  | STRING_PLAIN
  deriving DecidableEq, Repr

/-- The value of the enumerator. -/
def ColumnEncoding.code : ColumnEncoding → UInt8
  | BOOLEAN_BITPACKED => 1
  | UINT32_BITPACKED => 10
  | UINT32_PLAIN => 11
  | UINT64_PLAIN => 12
  | UINT64_LEB128 => 13
  | FLOAT_IEEE754 => 14
  | STRING_PLAIN => 100

/-- The enumerator with the given value, if there is one. -/
def ColumnEncoding.ofCode? (code : UInt8) : Option ColumnEncoding :=
  [BOOLEAN_BITPACKED, UINT32_BITPACKED, UINT32_PLAIN, UINT64_PLAIN, UINT64_LEB128,
    FLOAT_IEEE754, STRING_PLAIN].find? fun t => t.code == code

/-- The enumerators of the logical types have different values. -/
@[simp] theorem ColumnType.ofCode?_code (t : ColumnType) : ofCode? t.code = some t := by
  cases t <;> rfl

/-- The enumerators of the encodings have different values. -/
@[simp] theorem ColumnEncoding.ofCode?_code (t : ColumnEncoding) : ofCode? t.code = some t := by
  cases t <;> rfl

/-- Different types have different codes, so a header tells the types of its columns. -/
theorem ColumnType.code_injective : Function.Injective ColumnType.code := fun t t' h =>
  Option.some.inj (by rw [← ofCode?_code t, ← ofCode?_code t', h])

/-- Different encodings have different codes. -/
theorem ColumnEncoding.code_injective : Function.Injective ColumnEncoding.code := fun e e' h =>
  Option.some.inj (by rw [← ofCode?_code e, ← ofCode?_code e', h])

/-- A switch on a storage type takes the branch of an enumerator exactly for
its value. -/
theorem ColumnEncoding.ofCode?_eq_some {code : UInt8} {t : ColumnEncoding} :
    ofCode? code = some t ↔ code = t.code := by
  constructor
  · intro h
    unfold ofCode? at h
    have hcode := List.find?_some h
    exact (beq_iff_eq.mp hcode).symm
  · rintro rfl
    exact ofCode?_code t

/-- A switch on a logical type takes the branch of an enumerator exactly for
its value. -/
theorem ColumnType.ofCode?_eq_some {code : UInt8} {t : ColumnType} :
    ofCode? code = some t ↔ code = t.code := by
  constructor
  · intro h
    unfold ofCode? at h
    have hcode := List.find?_some h
    exact (beq_iff_eq.mp hcode).symm
  · rintro rfl
    exact ofCode?_code t

/-- `BinaryFormatVersion`. -/
inductive BinaryFormatVersion where
  | v0_1_0
  | v0_2_0
  deriving DecidableEq, Repr

/-- `ColumnConfig`. `body_offset` and `body_size` are not used from v0.2.0 on. -/
structure ColumnConfig where
  column_id : UInt32
  column_name : Bytes
  storage_type : UInt8
  logical_type : UInt8
  rlevel_max : Nat
  dlevel_max : Nat
  body_offset : Nat
  body_size : Nat
  deriving DecidableEq, Repr

/-- `MetaBlock`. -/
structure MetaBlock where
  transaction_id : UInt64
  num_rows : UInt64
  head_index_page_offset : UInt64
  head_index_page_size : UInt32
  file_size : UInt64
  deriving DecidableEq, Repr

/-- `PageRef`. -/
structure PageRef where
  offset : UInt64
  size : UInt32
  deriving DecidableEq, Repr

/-- `PageIndexEntryType`. -/
inductive PageIndexEntryType where
  | DATA
  | RLEVEL
  | DLEVEL
  deriving DecidableEq, Repr

/-- The value of the enumerator. -/
def PageIndexEntryType.code : PageIndexEntryType → UInt8
  | DATA => 1
  | RLEVEL => 2
  | DLEVEL => 3

/-- `FileHeader`; its schema is filled in and used by the writer only. -/
structure FileHeader where
  columns : List ColumnConfig
  num_rows : UInt64
  deriving DecidableEq, Repr

/-- What storage holds that the code reads or copies before setting it: the
bytes of the `malloc`ed buffers, counted in the order they are allocated, the
column ids of the flat columns of a schema, and the fields of a local
`ColumnConfig` or `FileHeader`. -/
structure Uninit where
  bytes : Nat → Nat → UInt8
  column_id : Nat → UInt32
  column_config : ColumnConfig
  num_rows : UInt64

/-- `Buffer(size)`: the allocated bytes are not initialised. -/
def Uninit.buffer (mem : Uninit) (n size : Nat) : Bytes := (List.range size).map (mem.bytes n)

/-- A buffer has the size it was allocated with, whatever memory holds. -/
@[simp] theorem Uninit.length_buffer (mem : Uninit) (n size : Nat) :
    (mem.buffer n size).length = size := by
  rw [Uninit.buffer, List.length_map, List.length_range]

/-- Storage that happens to hold zeros, for runs on fixed inputs. -/
def zeroUninit : Uninit := ⟨fun _ _ => 0, fun _ => 0, ⟨0, [], 0, 0, 0, 0, 0, 0⟩, 0⟩

/-- Storage that holds something else. -/
def oneUninit : Uninit := ⟨fun _ _ => 1, fun _ => 1, ⟨1, [], 0, 0, 1, 1, 1, 1⟩, 1⟩

/-- `kMagicBytes`. -/
def kMagicBytes : Bytes := [0x23, 0x17, 0x23, 0x17]

/-- `kSectorSize`. -/
def kSectorSize : Nat := 512

/-- `padToNextSector`. The arguments are 32-bit page sizes and sizes of buffers
in memory, so the 64-bit sum of the source does not wrap. -/
def padToNextSector (val : Nat) : Nat := ((val + (kSectorSize - 1)) / kSectorSize) * kSectorSize

/-- Positions behind a padded size lie on sectors again. -/
theorem padToNextSector_dvd (val : Nat) : 512 ∣ padToNextSector val :=
  Dvd.intro_left _ rfl

/-- Padding never makes a size smaller, so what was asked for fits. -/
theorem le_padToNextSector (val : Nat) : val ≤ padToNextSector val := by
  unfold padToNextSector kSectorSize
  omega

/-- Less than a sector is added. This bounds the pages of a file by the sizes that were asked
for. -/
theorem padToNextSector_lt (val : Nat) : padToNextSector val < val + 512 := by
  unfold padToNextSector kSectorSize
  omega

/-- `readNextBytes` into a buffer: the bytes past the end of the stream keep
what the buffer held. -/
def readInto (buf : Bytes) : Read Bytes := do
  let bs ← readNextBytes buf.length
  pure (bs ++ buf.drop bs.length)

/-! ### Version 0.1.0 -/

namespace v0_1_0

/-- `kVersion`. -/
def kVersion : Nat := 1

/-- `kMagicBytesUInt32`. -/
def kMagicBytesUInt32 : Nat := 0x17231723

/-- One column record of the header; `col` is the local the fields are read
into. -/
def readColumn (col : ColumnConfig) : Read ColumnConfig := do
  let storage_type ← readUInt32
  let column_name ← readUInt32 >>= readString
  let rlevel_max ← readUInt32
  let dlevel_max ← readUInt32
  let body_offset ← readUInt64
  let body_size ← readUInt64
  pure { col with
    storage_type := UInt8.ofNat storage_type
    column_name, rlevel_max, dlevel_max, body_offset, body_size
    column_id := 0 }

/-- The comparison of the `std::sort` of the columns. -/
def nameLE (a b : ColumnConfig) : Bool := decide (a.column_name ≤ b.column_name)

/-- `v0_1_0::readHeader`: the columns are returned in the order of their names. -/
def readHeader (mem : Uninit) : Read FileHeader := do
  let _flags ← readUInt64
  let num_rows ← readUInt64
  let ncols ← readUInt32
  let columns ← repeatN (readColumn mem.column_config) ncols
  pure { columns := columns.mergeSort nameLE, num_rows := UInt64.ofNat num_rows }

end v0_1_0

/-! ### Version 0.2.0 -/

namespace v0_2_0

/-- `kMetaBlockPosition`. -/
def kMetaBlockPosition : Nat := 14

/-- `kMetaBlockSize`. -/
def kMetaBlockSize : Nat := 56

/-- The fields of a metablock, without the checksum. -/
def metaBlockFields (mb : MetaBlock) : Bytes :=
  appendUInt64 mb.transaction_id.toNat ++ appendUInt64 mb.num_rows.toNat ++
    appendUInt64 mb.head_index_page_offset.toNat ++
    appendUInt32 mb.head_index_page_size.toNat ++ appendUInt64 mb.file_size.toNat

/-- `writeMetaBlock`: the fields and their SHA-1 hash. -/
def writeMetaBlock (mb : MetaBlock) : Bytes :=
  metaBlockFields mb ++ SHA1.compute (metaBlockFields mb)

/-- The check of `readMetaBlock`: the hash of all but the last twenty bytes is
the last twenty. -/
def hashMatches (buf : Bytes) : Bool :=
  SHA1.compute (buf.take (kMetaBlockSize - SHA1.kSize)) ==
    (buf.drop (kMetaBlockSize - SHA1.kSize)).take SHA1.kSize

/-- The fields `readMetaBlock` reads from a buffer that passed the check. -/
def readFields (buf : Bytes) : MetaBlock where
  transaction_id := UInt64.ofNat (leNat (readAt buf 0 8))
  num_rows := UInt64.ofNat (leNat (readAt buf 8 8))
  head_index_page_offset := UInt64.ofNat (leNat (readAt buf 16 8))
  head_index_page_size := UInt32.ofNat (leNat (readAt buf 24 4))
  file_size := UInt64.ofNat (leNat (readAt buf 28 8))

/-- `readMetaBlock`, with `buf` the uninitialised buffer it reads into. -/
def readMetaBlock (buf : Bytes) : Read (Option MetaBlock) := do
  let buf ← readInto buf
  pure (if hashMatches buf then some (readFields buf) else none)

/-- One column record of the header. -/
def columnRecord (col : ColumnConfig) : Bytes :=
  appendVarUInt col.logical_type.toNat ++ appendVarUInt col.storage_type.toNat ++
    appendVarUInt col.column_id.toNat ++ appendLenencString col.column_name ++
    appendVarUInt col.rlevel_max ++ appendVarUInt col.dlevel_max

/-- The bytes of the header before the padding. -/
def headerFields (columns : List ColumnConfig) : Bytes :=
  List.replicate (kMetaBlockSize * 2) 0 ++ List.replicate 128 0 ++
    appendVarUInt columns.length ++ columns.flatMap columnRecord

/-- `writeHeader`: the bytes written to the file; their number is returned. -/
def writeHeader (columns : List ColumnConfig) : Result Bytes := do
  let buf := kMagicBytes ++ appendUInt16 2 ++ appendUInt64 0
  RCHECK (buf.length == kMetaBlockPosition) "invalid meta block offset"
  let buf := buf ++ headerFields columns
  let header_padding := padToNextSector buf.length - buf.length
  pure (buf ++ List.replicate header_padding 0)

/-- One column record of the header; `col` is the local the fields are read
into. -/
def readColumn (col : ColumnConfig) : Read ColumnConfig := do
  let logical_type ← readVarUInt
  let storage_type ← readVarUInt
  let column_id ← readVarUInt
  let column_name ← readLenencString
  let rlevel_max ← readVarUInt
  let dlevel_max ← readVarUInt
  pure { col with
    logical_type := UInt8.ofNat logical_type
    storage_type := UInt8.ofNat storage_type
    column_id := UInt32.ofNat column_id
    column_name, rlevel_max, dlevel_max }

/-- `v0_2_0::readHeader`: the columns, and the metablocks that pass the check
in the order of their slots. -/
def readHeader (mem : Uninit) : Read (FileHeader × List MetaBlock) := do
  let _flags ← readUInt64
  let a ← readMetaBlock (mem.buffer 1 kMetaBlockSize)
  let b ← readMetaBlock (mem.buffer 2 kMetaBlockSize)
  skipNextBytes 128
  let ncols ← readVarUInt
  let columns ← repeatN (readColumn mem.column_config) ncols
  pure ({ columns, num_rows := mem.num_rows }, a.toList ++ b.toList)

end v0_2_0

/-! ### Either version -/

/-- What `readHeader` stores through its arguments. The metablock is left as it
is for v0.1.0. -/
structure HeaderData where
  version : BinaryFormatVersion
  header : FileHeader
  metablock : Option MetaBlock
  free_index : Option PageRef
  deriving DecidableEq, Repr

/-- The head index page a metablock refers to. -/
def MetaBlock.headIndexPage (mb : MetaBlock) : PageRef :=
  ⟨mb.head_index_page_offset, mb.head_index_page_size⟩

/-- The choice `readHeader` makes between the valid metablocks: the newest one,
and the index page of the other. -/
def selectMetaBlock : List MetaBlock → Result (MetaBlock × Option PageRef)
  | [] => RAISE .kRuntimeError "can't open cstable: no valid metablocks found"
  | [a] => .ok (a, none)
  | [a, b] =>
    if a.transaction_id > b.transaction_id then
      .ok (a, some b.headIndexPage)
    else
      .ok (b, some a.headIndexPage)
  | _ => RAISE .kRuntimeError "can't open cstable: too many metablocks found"

/-- `readHeader`. -/
def readHeader (mem : Uninit) : Read HeaderData := do
  let prelude ← readInto (mem.buffer 0 6)
  if prelude.take 4 ≠ kMagicBytes then
    liftM (RAISE .kRuntimeError "not a valid cstable file" : Result Unit)
  match prelude.getD 4 0 with
  | 0x1 =>
    let header ← v0_1_0.readHeader mem
    pure { version := .v0_1_0, header, metablock := none, free_index := none }
  | 0x2 =>
    let (header, metablocks) ← v0_2_0.readHeader mem
    let (metablock, free_index) ← liftM (selectMetaBlock metablocks)
    pure { version := .v0_2_0, header, metablock := some metablock, free_index }
  | vnum =>
    liftM (RAISEF .kRuntimeError "unsupported cstable version: $0" [[vnum]] : Result HeaderData)

end CStable
