import CStable.Proofs.CsvImport
import CStable.Proofs.IntegerColumn
import CStable.Proofs.ReadBack

/-!
# `CStable.Proofs.CsvTypes`: the type of a column, and what a cell stands for

The import asks the column writer for the type of a column, not the schema. The chain
from the declared type over the default encoding to the class of the writer and the
type this class reports keeps every type but `BOOLEAN`, whose writer says it is one
of unsigned integers.

`declaredRows` are the writes a stream stands for when every cell is read by the parser
of the declared type. `csvArg_declared` compares a cell's own parser with that one, and
`cellSteps_declared` the step of the import with the write the cell stands for.
-/

set_option autoImplicit false

namespace CStable

open Support

namespace RecordShredder

open CSTableWriter (TableOp columnEntry openColumns_v1_spec)

/-! ### What a stream stands for -/

/-- The encoding the `add*` functions of `TableSchema` choose for a type. -/
def defaultEncoding : ColumnType → ColumnEncoding
  | .BOOLEAN => .BOOLEAN_BITPACKED
  | .FLOAT => .FLOAT_IEEE754
  | .STRING => .STRING_PLAIN
  | .UNSIGNED_INT | .SIGNED_INT | .DATETIME | .SUBRECORD => .UINT64_LEB128

/-- A column has the type and its default encoding. -/
structure Declares (col : ColumnConfig) (type : LeafType) : Prop where
  logical_type : col.logical_type = type.val.code
  storage_type : col.storage_type = (defaultEncoding type.val).code

/-- The value of a cell by the parser of the declared type. A time is stored as its
microseconds, and so is a signed integer as its 64 bits. -/
def declaredArg (ops : CSVOps) (n i : Nat) (val : Bytes) : ColumnType → Option WriteArg
  | .BOOLEAN => (Human.parseBoolean val).map .boolean
  | .UNSIGNED_INT => (stoull val).toOption.map .unsignedInt
  | .SIGNED_INT => (stoll val).toOption.map fun v => .unsignedInt v.toUInt64
  | .STRING => some (.string val)
  | .DATETIME => (ops.parseTime n i val).toOption.join.map .unsignedInt
  | .FLOAT => (ops.stod val).toOption.map .float
  | .SUBRECORD => none

/-- The call for a cell: null or the value at the definition level of the column. -/
def declaredCall (ops : CSVOps) (columns : List ColumnConfig) (n i : Nat) (name val : Bytes) :
    Option WriteCall :=
  (columns.find? fun c => c.column_name == name).bind fun col =>
    if Human.isNullOrEmpty val then
      if col.dlevel_max = 0 then none else some ⟨0, 0, .null⟩
    else
      (ColumnType.ofCode? col.logical_type).bind fun type =>
        (declaredArg ops n i val type).map fun arg => ⟨0, col.dlevel_max, arg⟩

/-- The writes of the cells of row `n`, from position `i` on. -/
def declaredCells (ops : CSVOps) (columns : List ColumnConfig) (n : Nat) :
    Nat → List Bytes → List Bytes → Option (List TableOp)
  | i, name :: header, val :: row => do
    let c ← declaredCall ops columns n i name val
    let rest ← declaredCells ops columns n (i + 1) header row
    some (.write name c :: rest)
  | _, [], _ => some []
  | _, _ :: _, [] => some []

/-- The writes of row `n` and its counting. -/
def declaredRow (ops : CSVOps) (t : CSTableWriter) (header : List Bytes) (n : Nat)
    (row : List Bytes) : Option (List TableOp) := do
  let cells ← declaredCells ops t.columns n 0 header row
  some (cells ++ (missingColumns t header).map (fun name => .write name ⟨0, 0, .null⟩) ++ [.addRow])

/-- The writes of rows, the first of them row `n`. -/
def declaredRows (ops : CSVOps) (t : CSTableWriter) (header : List Bytes) :
    Nat → List (List Bytes) → Option (List TableOp)
  | _, [] => some []
  | n, row :: rows => do
    let first ← declaredRow ops t header n row
    let rest ← declaredRows ops t header (n + 1) rows
    some (first ++ rest)

/-- What a reader returns for a value. -/
def readDatum : WriteArg → Option v1.Datum
  | .null => none
  | .boolean value => some (.unsignedInt (if value then 1 else 0))
  | .unsignedInt value => some (.unsignedInt value.toNat)
  | .signedInt value => some (.unsignedInt value.toUInt64.toNat)
  | .float value => some (.float value.toNat)
  | .string value => some (.string value)
  | .dateTime value => some (.unsignedInt value.toNat)

/-- The entry of a write to a column. -/
def readEntry (col : ColumnConfig) : TableOp → Option v1.Entry
  | .write name c =>
    if name = col.column_name then some ⟨c.rlvl, c.dlvl, readDatum c.arg⟩ else none
  | .addRow => none
  | .addRows _ => none

/-- A cell that the import stores as it is declared. -/
def Storable (columns : List ColumnConfig) (name val : Bytes) : Prop :=
  Human.isNullOrEmpty val = true ∨ ∀ col ∈ columns, col.column_name = name →
    col.logical_type ≠ ColumnType.BOOLEAN.code ∧
      (col.logical_type = ColumnType.STRING.code → val.length < 2 ^ 32)

/-! ### The chain of types -/

/-- The type a column writer reports for a declared type. -/
def reportedType : ColumnType → ColumnType
  | .BOOLEAN => .UNSIGNED_INT
  | type => type

/-- The writer of a declared column reports the type of the declaration, except that a boolean
column reports an integer. -/
theorem Declares.type_new {col : ColumnConfig} {type : LeafType} (h : Declares col type)
    {encoding : ColumnEncoding}
    (hencoding : ColumnEncoding.ofCode? col.storage_type = some encoding) :
    (v1.ColumnWriter.newDataWriter encoding col.logical_type).type =
      (reportedType type.val).code := by
  rw [h.storage_type, ColumnEncoding.ofCode?_code] at hencoding
  cases hencoding
  rw [h.logical_type]
  obtain ⟨type, htype⟩ := type
  cases type <;> rfl

/-- What the column writers of a new table say of themselves follows from the declarations. -/
theorem createFile_answers {mem : Uninit} {order : HashOrder} {schema : TableSchema}
    {t : CSTableWriter} (h : CSTableWriter.createFile mem order .v0_1_0 schema = .ok t) :
    List.Forall₂ (fun col slot => ∀ type, Declares col type →
      ColumnSlot.answers slot = ((reportedType type.val).code, col.dlevel_max))
      t.columns t.column_writers := by
  obtain ⟨_, -, h⟩ := Result.bind_eq_ok.mp h
  obtain ⟨⟨slots, pages⟩, hopen, hret⟩ := Result.bind_eq_ok.mp h
  cases hret
  refine (openColumns_v1_spec hopen).2.imp ?_
  rintro col slot ⟨encoding, hencoding, rfl⟩ type hdeclares
  exact Prod.ext (hdeclares.type_new hencoding) rfl

/-- No text for a boolean is one for an unsigned integer: the texts are words, and `stoull`
wants a digit. -/
theorem stoull_boolean {val : Bytes} (h : (Human.parseBoolean val).isSome) (v : UInt64) :
    stoull val ≠ .ok v := by
  -- the texts of booleans are eight, and none of them begins with a digit
  have htexts : val ∈ [chars ['t', 'r', 'u', 'e'], chars ['T', 'R', 'U', 'E'],
      chars ['y', 'e', 's'], chars ['Y', 'E', 'S'], chars ['f', 'a', 'l', 's', 'e'],
      chars ['F', 'A', 'L', 'S', 'E'], chars ['n', 'o'], chars ['N', 'O']] := by
    unfold Human.parseBoolean at h
    simp only [List.mem_cons, List.not_mem_nil, or_false]
    split at h
    · next htrue =>
      simp only [Bool.or_eq_true, beq_iff_eq] at htrue
      tauto
    · split at h
      · next hfalse =>
        simp only [Bool.or_eq_true, beq_iff_eq] at hfalse
        tauto
      · cases h
  have hraises : ∀ text ∈ [chars ['t', 'r', 'u', 'e'], chars ['T', 'R', 'U', 'E'],
      chars ['y', 'e', 's'], chars ['Y', 'E', 'S'], chars ['f', 'a', 'l', 's', 'e'],
      chars ['F', 'A', 'L', 'S', 'E'], chars ['n', 'o'], chars ['N', 'O']],
      stoull text = RAISE .stdInvalidArgument "stoull" := by decide +kernel
  rw [hraises val htexts]
  intro habs
  cases habs

/-- A value that is there was returned. -/
theorem toOption_eq_some {α : Type} {x : Result α} {a : α} (h : x.toOption = some a) :
    x = .ok a := by
  cases x with
  | error e => cases h
  | ok b =>
    cases h
    rfl

/-- The value the import takes from a cell passes on the bytes of the declared one, for all
types but the boolean, which it takes for a number. -/
theorem csvArg_declared {ops : CSVOps} {n i : Nat} {val : Bytes} {type : LeafType}
    {arg : WriteArg} (h : declaredArg ops n i val type.val = some arg)
    (hbool : type.val ≠ .BOOLEAN) :
    ∃ arg₀, csvArg ops n i val (reportedType type.val) = .ok arg₀ ∧
      v1.ColumnWriter.datum arg₀ = v1.ColumnWriter.datum arg := by
  obtain ⟨type, htype⟩ := type
  cases type with
  | SUBRECORD => exact absurd rfl htype
  | BOOLEAN => exact absurd rfl hbool
  | UNSIGNED_INT =>
    obtain ⟨v, hv, rfl⟩ := Option.map_eq_some_iff.mp h
    refine ⟨.unsignedInt v, ?_, rfl⟩
    show (tryConvert (stoull val) _ val).map _ = _
    rw [toOption_eq_some hv]
    rfl
  | SIGNED_INT =>
    obtain ⟨v, hv, rfl⟩ := Option.map_eq_some_iff.mp h
    refine ⟨.signedInt v, ?_, rfl⟩
    show (tryConvert (stoll val) _ val).map _ = _
    rw [toOption_eq_some hv]
    rfl
  | STRING =>
    cases h
    exact ⟨.string val, rfl, rfl⟩
  | FLOAT =>
    obtain ⟨v, hv, rfl⟩ := Option.map_eq_some_iff.mp h
    refine ⟨.float v, ?_, rfl⟩
    show (tryConvert (ops.stod val) _ val).map _ = _
    rw [toOption_eq_some hv]
    rfl
  | DATETIME =>
    obtain ⟨v, hv, rfl⟩ := Option.map_eq_some_iff.mp h
    refine ⟨.dateTime v, ?_, rfl⟩
    show (ops.parseTime n i val >>= _) = _
    rw [toOption_eq_some (Option.join_eq_some_iff.mp hv)]
    rfl

/-- The declared value is one for the default encoding of the type; a text has to fit the 32
bits of its length. -/
theorem nativeDatum_declared {ops : CSVOps} {n i : Nat} {val : Bytes} {type : LeafType}
    {arg : WriteArg} (h : declaredArg ops n i val type.val = some arg)
    (hbool : type.val ≠ .BOOLEAN) (hlength : type.val = .STRING → val.length < 2 ^ 32) :
    arg ≠ .null ∧ ∃ v, v1.nativeDatum (defaultEncoding type.val) arg = some v := by
  obtain ⟨type, htype⟩ := type
  cases type with
  | SUBRECORD => exact absurd rfl htype
  | BOOLEAN => exact absurd rfl hbool
  | STRING =>
    cases h
    exact ⟨WriteArg.noConfusion, _, if_pos (hlength rfl)⟩
  | _ =>
    obtain ⟨v, -, rfl⟩ := Option.map_eq_some_iff.mp h
    exact ⟨WriteArg.noConfusion, _, rfl⟩

/-! ### Cells -/

/-- What is known of a column of the header on a table with default encodings. -/
structure Found (columns : List ColumnConfig) (name : Bytes) (col : CSVColumn)
    (cfg : ColumnConfig) (type : LeafType) : Prop where
  name_eq : col.name = name
  mem : cfg ∈ columns
  column_name : cfg.column_name = name
  find : (columns.find? fun c => c.column_name == name) = some cfg
  declares : Declares cfg type
  answers : (col.type, col.maxDefinitionLevel) = ((reportedType type.val).code, cfg.dlevel_max)

/-- A write step of the import and the write it stands for. -/
def StandsFor (columns : List ColumnConfig) (s : Step) (op : TableOp) : Prop :=
  ∃ name c₀ c cfg, s = .write name c₀.rlvl c₀.dlvl (.ok c₀.arg) ∧ op = .write name c ∧
    v1.SameBytes c₀ c ∧ cfg ∈ columns ∧ cfg.column_name = name ∧ (columnEntry cfg c).isSome

/-- A null of a cell lies at the levels zero, which is below the maximum of a column that takes
nulls. -/
theorem entryOf_null {encoding : ColumnEncoding} {r_max d_max : Nat} (h : d_max ≠ 0) :
    v1.entryOf encoding r_max d_max ⟨0, 0, .null⟩ = some ⟨0, 0, none⟩ := by
  unfold v1.entryOf
  rw [if_pos (Nat.zero_le r_max)]
  exact if_pos (Nat.pos_of_ne_zero h)

/-- A value of a cell lies at the highest definition level. -/
theorem entryOf_value {encoding : ColumnEncoding} {r_max d_max : Nat} {arg : WriteArg}
    {v : v1.Datum} (hne : arg ≠ .null) (h : v1.nativeDatum encoding arg = some v) :
    v1.entryOf encoding r_max d_max ⟨0, d_max, arg⟩ = some ⟨0, d_max, some v⟩ := by
  unfold v1.entryOf
  rw [if_pos (Nat.zero_le r_max)]
  split
  · next harg => exact absurd harg hne
  · rw [if_pos rfl, h]
    rfl

/-- A column that takes nulls has an entry for one. -/
theorem columnEntry_null {cfg : ColumnConfig} {type : LeafType} (h : Declares cfg type)
    (hmax : cfg.dlevel_max ≠ 0) : (columnEntry cfg ⟨0, 0, .null⟩).isSome := by
  unfold columnEntry
  rw [h.storage_type, ColumnEncoding.ofCode?_code, Option.bind_some, entryOf_null hmax]
  rfl

/-- A storable cell is one step, which stands for the declared write. -/
theorem cellSteps_declared {columns : List ColumnConfig} {name val : Bytes} {col : CSVColumn}
    {cfg : ColumnConfig} {type : LeafType} (hfound : Found columns name col cfg type) {ops : CSVOps}
    {n i : Nat} {c : WriteCall} (h : declaredCall ops columns n i name val = some c)
    (hstorable : Storable columns name val) :
    ∃ s, cellSteps ops n i col val = [s] ∧ StandsFor columns s (.write name c) := by
  unfold declaredCall at h
  rw [hfound.find, Option.bind_some] at h
  obtain ⟨htype, hmax⟩ := Prod.mk.inj hfound.answers
  unfold cellSteps
  cases hnull : Human.isNullOrEmpty val with
  | true =>
    rw [hnull, if_pos rfl] at h
    rw [if_pos rfl, hmax, hfound.name_eq]
    split at h
    · cases h
    · next hd =>
      cases h
      rw [if_neg hd]
      exact ⟨_, rfl, name, ⟨0, 0, .null⟩, ⟨0, 0, .null⟩, cfg, rfl, rfl, .refl _, hfound.mem,
        hfound.column_name, columnEntry_null hfound.declares hd⟩
  | false =>
    rw [hnull, if_neg Bool.false_ne_true, hfound.declares.logical_type, ColumnType.ofCode?_code,
      Option.bind_some] at h
    obtain ⟨arg, harg, rfl⟩ := Option.map_eq_some_iff.mp h
    -- `Storable` of a text that is not null speaks of its column, which names are unique for
    obtain ⟨hbool, hlength⟩ : type.val ≠ .BOOLEAN ∧ (type.val = .STRING → val.length < 2 ^ 32) := by
      rcases hstorable with habs | hcol
      · rw [hnull] at habs
        cases habs
      · obtain ⟨hbool, hlength⟩ := hcol cfg hfound.mem hfound.column_name
        rw [hfound.declares.logical_type] at hbool hlength
        exact ⟨fun heq => hbool (congrArg _ heq), fun heq => hlength (congrArg _ heq)⟩
    obtain ⟨arg₀, harg₀, hdatum⟩ := csvArg_declared harg hbool
    obtain ⟨hne, v, hv⟩ := nativeDatum_declared harg hbool hlength
    rw [if_neg Bool.false_ne_true, htype, ColumnType.ofCode?_code, hmax, hfound.name_eq]
    dsimp only
    rw [harg₀]
    refine ⟨_, rfl, name, ⟨0, cfg.dlevel_max, arg₀⟩, ⟨0, cfg.dlevel_max, arg⟩, cfg, rfl, rfl,
      ⟨rfl, rfl, hdatum⟩, hfound.mem, hfound.column_name, ?_⟩
    unfold columnEntry
    rw [hfound.declares.storage_type, ColumnEncoding.ofCode?_code, Option.bind_some,
      entryOf_value hne hv]
    rfl
end RecordShredder

end CStable
