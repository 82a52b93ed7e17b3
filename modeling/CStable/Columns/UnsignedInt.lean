import CStable.Columns.WriteCall
import CStable.Io.PageIndex
import CStable.Stx.Text

/-!
# `CStable.Columns.UnsignedInt`: columns of v0.2.0

`DefaultColumnWriter` creates the page writers of the levels, its subclass
`UnsignedIntColumnWriter` the one of the data. The page writers live in the
`PageStore`. A `write*` call appends to the streams one after the other, so an
exception of the second or third leaves the earlier ones appended.

The reader of the source registers its page readers with the index and returns
zeros: the page reader is a stub.
-/

set_option autoImplicit false

namespace CStable

/-! ### Writer -/

/-- `DefaultColumnWriter`. -/
structure DefaultColumnWriter where
  config : ColumnConfig
  rlevel_writer : Option Nat
  dlevel_writer : Option Nat
  deriving DecidableEq, Repr

namespace DefaultColumnWriter

/-- A page writer for a level stream: its own constructor registers it with the
index, and the constructor of the column writer registers it again. -/
def newLevelWriter (s : PageStore) (key : PageIndexKey) : Nat × PageStore :=
  let (page_writer, s) := s.newPageWriter key
  (page_writer, s.addPageWriter key page_writer)

/-- The constructor. -/
def new (config : ColumnConfig) (s : PageStore) : DefaultColumnWriter × PageStore :=
  let (rlevel_writer, s) :=
    if config.rlevel_max > 0 then
      let (page_writer, s) := newLevelWriter s ⟨config.column_id, .RLEVEL⟩
      (some page_writer, s)
    else (none, s)
  let (dlevel_writer, s) :=
    if config.dlevel_max > 0 then
      let (page_writer, s) := newLevelWriter s ⟨config.column_id, .DLEVEL⟩
      (some page_writer, s)
    else (none, s)
  (⟨config, rlevel_writer, dlevel_writer⟩, s)

/-- Append to a level stream, if the column has it. -/
def appendLevel (page_writer : Option Nat) (lvl : Nat) : CxxM PageStore Unit :=
  match page_writer with
  | some page_writer => PageStore.appendValue page_writer (UInt64.ofNat lvl)
  | none => pure ()

/-- `writeNull`. -/
def writeNull (w : DefaultColumnWriter) (rep_level def_level : Nat) : CxxM PageStore Unit := do
  appendLevel w.rlevel_writer rep_level
  appendLevel w.dlevel_writer def_level

end DefaultColumnWriter

/-- `UnsignedIntColumnWriter`. -/
structure UnsignedIntColumnWriter extends DefaultColumnWriter where
  data_writer : Nat
  deriving DecidableEq, Repr

namespace UnsignedIntColumnWriter

/-- The constructor. -/
def new (config : ColumnConfig) (s : PageStore) : Result (UnsignedIntColumnWriter × PageStore) :=
  let (base, s) := DefaultColumnWriter.new config s
  match ColumnEncoding.ofCode? config.storage_type with
  | some .UINT64_PLAIN =>
    let (data_writer, s) := s.newPageWriter ⟨config.column_id, .DATA⟩
    .ok (⟨base, data_writer⟩, s)
  | _ =>
    RAISEF .kIllegalArgumentError "invalid storage type for unsigned integer column '$0'"
      [config.column_name]

/-- `writeUnsignedInt`. -/
def writeUnsignedInt (w : UnsignedIntColumnWriter) (rlvl dlvl : Nat) (value : UInt64) :
    CxxM PageStore Unit := do
  DefaultColumnWriter.appendLevel w.rlevel_writer rlvl
  DefaultColumnWriter.appendLevel w.dlevel_writer dlvl
  PageStore.appendValue w.data_writer value

/-- The `write*` functions: values of the other types are converted. -/
def call (w : UnsignedIntColumnWriter) (c : WriteCall) : CxxM PageStore Unit :=
  match c.arg with
  | .null => w.writeNull c.rlvl c.dlvl
  | .boolean value => w.writeUnsignedInt c.rlvl c.dlvl (if value then 1 else 0)
  | .unsignedInt value => w.writeUnsignedInt c.rlvl c.dlvl value
  | .signedInt value =>
    w.writeUnsignedInt c.rlvl c.dlvl (if value < 0 then 0 else value.toUInt64)
  | .float value => do
    let value ← CxxM.lift (doubleToUInt64 value)
    w.writeUnsignedInt c.rlvl c.dlvl value
  | .string value => do
    let value ← CxxM.lift (stoull value)
    w.writeUnsignedInt c.rlvl c.dlvl value
  | .dateTime value => w.writeUnsignedInt c.rlvl c.dlvl value

/-- `type`. -/
def type (_w : UnsignedIntColumnWriter) : UInt8 := ColumnType.UNSIGNED_INT.code

/-- `maxDefinitionLevel`. -/
def maxDefinitionLevel (w : UnsignedIntColumnWriter) : Nat := w.config.dlevel_max

end UnsignedIntColumnWriter

/-! ### Reader -/

/-- `UnsignedIntColumnReader`; `has_rlevel` says that it was given a reader for
the repetition levels. It never has one for the definition levels. -/
structure UnsignedIntColumnReader where
  config : ColumnConfig
  has_rlevel : Bool
  deriving DecidableEq, Repr

namespace UnsignedIntColumnReader

/-- The constructor: the data reader is registered with the index. -/
def new (config : ColumnConfig) (has_rlevel : Bool) (page_idx : PageIndexReader) :
    Result (UnsignedIntColumnReader × PageIndexReader) :=
  match ColumnEncoding.ofCode? config.storage_type with
  | some .UINT64_PLAIN =>
    .ok (⟨config, has_rlevel⟩, page_idx.addPageReader ⟨config.column_id, .DATA⟩)
  | _ =>
    RAISEF .kIllegalArgumentError "invalid storage type for unsigned integer column '$0'"
      [config.column_name]

end UnsignedIntColumnReader

end CStable
