import CStable.Proofs.ShredSteps

/-!
# `CStable.Proofs.Reached`: the tables between creation and commit

Every function of the shredder changes a table through `writeColumn` and `addRow`
only, so a property that these keep (`KeptByWrites`) is one of all tables a program
can have between `createFile` and `commit` (`Reached.keeps`), whatever exceptions it
caught on the way. The first such property is that the table has the flat columns of
its schema, each with a writer (`OwnSchema`).
-/

set_option autoImplicit false

namespace CStable

/-! ### Tables -/

namespace CSTableWriter

/-- The columns of the table are the flat columns of its schema, and each has a
writer. -/
structure OwnSchema (mem : Uninit) (t : CSTableWriter) : Prop where
  columns : t.columns = TableSchema.flatColumns mem t.schema
  length : t.column_writers.length = t.columns.length

/-- Every column gets a writer, or none is opened. By induction on the columns. -/
theorem length_openColumns {version : BinaryFormatVersion} {columns : List ColumnConfig}
    {pages pages' : PageStore} {slots : List ColumnSlot}
    (h : openColumns version pages columns = .ok (slots, pages')) :
    slots.length = columns.length := by
  induction columns generalizing pages slots with
  | nil =>
    cases version <;> cases h <;> rfl
  | cons c cs ih =>
    have hrest : ∃ pages₁ slot slots', openColumns version pages₁ cs = .ok (slots', pages') ∧
        slots = slot :: slots' := by
      cases version with
      | v0_1_0 =>
        obtain ⟨w, -, h₁⟩ := Result.bind_eq_ok.mp h
        obtain ⟨⟨slots', pages₂⟩, hrest, hret⟩ := Result.bind_eq_ok.mp
          ((Result.ok_bind _ _).symm.trans h₁)
        cases hret
        exact ⟨_, _, slots', hrest, rfl⟩
      | v0_2_0 =>
        obtain ⟨⟨w, pages₁⟩, -, h₁⟩ := Result.bind_eq_ok.mp h
        obtain ⟨⟨slots', pages₂⟩, hrest, hret⟩ := Result.bind_eq_ok.mp
          ((Result.ok_bind _ _).symm.trans h₁)
        cases hret
        exact ⟨_, _, slots', hrest, rfl⟩
    obtain ⟨pages₁, slot, slots', hrest, rfl⟩ := hrest
    rw [List.length_cons, List.length_cons, ih hrest]

/-- The columns of a new table are those of its own copy of the schema, each with a writer of
its own. -/
theorem createFile_ownSchema {mem : Uninit} {order : HashOrder} {version : BinaryFormatVersion}
    {schema : TableSchema} {t : CSTableWriter} (h : createFile mem order version schema = .ok t) :
    t.OwnSchema mem := by
  obtain ⟨_, -, h⟩ := Result.bind_eq_ok.mp h
  obtain ⟨_, hopen, hret⟩ := Result.bind_eq_ok.mp h
  cases hret
  exact ⟨rfl, length_openColumns hopen⟩

end CSTableWriter

/-! ### What the functions of the shredder keep -/

/-- A property of tables that a call on a column keeps, also one that raises, and the
counting of rows. -/
structure KeptByWrites (P : CSTableWriter → Prop) : Prop where
  writeColumn : ∀ i c, CxxM.Preserves P (CSTableWriter.writeColumn i c)
  addRow : ∀ t, P t → P t.addRow
  addRows : ∀ t n, P t → P (t.addRows n)

namespace KeptByWrites

open RecordShredder

variable {P : CSTableWriter → Prop}

/-- An operation of a program keeps what writes keep. -/
theorem apply (h : KeptByWrites P) (op : CSTableWriter.TableOp) :
    CxxM.Preserves P (CSTableWriter.apply op) := by
  intro t ht
  cases op with
  | addRow => exact h.addRow t ht
  | addRows n => exact h.addRows t n ht
  | write column c =>
    rw [CSTableWriter.exec_apply_write]
    cases t.getColumnWriter column with
    | ok i => exact h.writeColumn i c t ht
    | error e => exact ht

/-- The steps of a record are writes and checks, so that they keep what writes keep. By
induction on the steps. -/
theorem execSteps (h : KeptByWrites P) (steps : List Step) :
    CxxM.Preserves P (execSteps steps) := by
  induction steps with
  | nil => exact .pure ()
  | cons s ss ih =>
    have hstep : CxxM.Preserves P s.exec := by
      cases s with
      | fail e => exact .lift _
      | write column r d arg =>
        -- looking the column up changes nothing
        exact .bind (fun _ ht => ht) fun i => .bind (.lift arg) fun arg =>
          h.writeColumn i ⟨r, d, arg⟩
    exact .bind hstep fun _ => ih

/-- A record keeps what writes keep, accepted or not. -/
theorem addRecord (h : KeptByWrites P) (schema_ : TableSchema) (msg : MessageObject)
    (schema : MessageSchema) : CxxM.Preserves P (addRecordFromProtobuf schema_ msg schema) := by
  unfold addRecordFromProtobuf
  rw [addProtoRecordFields_eq]
  exact .bind (h.execSteps _) fun _ t ht => h.addRow t ht

/-- A cell is a write, a null, or an exception. -/
theorem addCSVCell (h : KeptByWrites P) (ops : CSVOps) (n i : Nat) (col : CSVColumn)
    (val : Bytes) : CxxM.Preserves P (addCSVCell ops n i col val) := by
  unfold RecordShredder.addCSVCell
  split
  · split
    · exact .lift _
    · exact h.writeColumn _ _
  · split
    · exact .pure ()
    · exact .bind (.lift _) fun _ => h.writeColumn _ _

/-- The cells of a row, one after the other. By induction on the columns, along with the row. -/
theorem addCSVCells (h : KeptByWrites P) (ops : CSVOps) (n : Nat) (columns : List CSVColumn) :
    ∀ (i : Nat) (row : List Bytes), CxxM.Preserves P (addCSVCells ops n i columns row) := by
  induction columns with
  | nil =>
    intro i row
    exact .pure ()
  | cons col columns ih =>
    intro i row
    cases row with
    | nil => exact .pure ()
    | cons val row => exact .bind (h.addCSVCell ops n i col val) fun _ => ih (i + 1) row

/-- The columns missing from the header get a null each. -/
theorem addMissing (h : KeptByWrites P) (missing : List Nat) :
    CxxM.Preserves P (addMissing missing) := by
  induction missing with
  | nil => exact .pure ()
  | cons i missing ih => exact .bind (h.writeColumn _ _) fun _ => ih

/-- A row is its cells, the nulls of the missing columns and a row more in the count. -/
theorem addCSVRow (h : KeptByWrites P) (ops : CSVOps) (columns : List CSVColumn)
    (missing : List Nat) (n : Nat) (row : List Bytes) :
    CxxM.Preserves P (addCSVRow ops columns missing n row) :=
  .bind (h.addCSVCells ops n columns 0 row) fun _ =>
    .bind (h.addMissing missing) fun _ t ht => h.addRow t ht

end KeptByWrites

namespace RecordShredder

/-- The rows one after the other, the first of them row `n`. -/
def forRows (add : Nat → List Bytes → CxxM CSTableWriter Unit) :
    Nat → List (List Bytes) → CxxM CSTableWriter Unit
  | _, [] => pure ()
  | n, row :: rows => do
    add n row
    forRows add (n + 1) rows

/-- The loop over a stream goes over the rows of the stream. The rows are a list, so that later
proofs are inductions on lists and not on bytes. -/
theorem addCSVRows_eq (add : Nat → List Bytes → CxxM CSTableWriter Unit) (n : Nat)
    (csv : CSVInputStream) : addCSVRows add n csv = forRows add n csv.rows := by
  rw [addCSVRows]
  split
  · next row csv' h =>
    rw [CSVInputStream.rows_of_true h, forRows, addCSVRows_eq]
  · next h => rw [CSVInputStream.rows_of_false h, forRows]
termination_by csv.input.length
decreasing_by exact CSVInputStream.length_readNextRow (by assumption)

end RecordShredder

namespace KeptByWrites

open RecordShredder

variable {P : CSTableWriter → Prop}

/-- A loop over rows keeps what each of the rows keeps. -/
theorem forRows {add : Nat → List Bytes → CxxM CSTableWriter Unit}
    (hadd : ∀ n row, CxxM.Preserves P (add n row)) (rows : List (List Bytes)) :
    ∀ n, CxxM.Preserves P (forRows add n rows) := by
  induction rows with
  | nil =>
    intro n
    exact .pure ()
  | cons row rows ih =>
    intro n
    exact .bind (hadd n row) fun _ => ih (n + 1)

/-- An import keeps what writes keep, however far it gets. A row that raises leaves what it has
written. -/
theorem addRecordsFromCSV (h : KeptByWrites P) (ops : CSVOps) (csv : CSVInputStream) :
    CxxM.Preserves P (addRecordsFromCSV ops csv) := by
  unfold RecordShredder.addRecordsFromCSV
  refine .bind (fun t ht => ht) fun columns => .bind (fun t ht => ht) fun missing => ?_
  rw [addCSVRows_eq]
  exact forRows (h.addCSVRow ops columns missing) _ 0

end KeptByWrites

namespace CSTableWriter

/-! ### The tables a program can have -/

/-- The tables a program can have between creating and committing a table. Any of
the calls may have ended with an exception that the program caught. -/
inductive Reached (mem : Uninit) : CSTableWriter → Prop where
  | createFile {order : HashOrder} {version : BinaryFormatVersion} {schema : TableSchema}
      {t : CSTableWriter} (h : CSTableWriter.createFile mem order version schema = .ok t) :
      Reached mem t
  | apply {t : CSTableWriter} (h : Reached mem t) (op : TableOp) :
      Reached mem (CxxM.exec (CSTableWriter.apply op) t).2
  | addRecord {t : CSTableWriter} (h : Reached mem t) (schema_ : TableSchema)
      (msg : MessageObject) (schema : MessageSchema) :
      Reached mem (CxxM.exec (RecordShredder.addRecordFromProtobuf schema_ msg schema) t).2
  | addCSV {t : CSTableWriter} (h : Reached mem t) (ops : RecordShredder.CSVOps)
      (csv : CSVInputStream) :
      Reached mem (CxxM.exec (RecordShredder.addRecordsFromCSV ops csv) t).2

/-- A run of operations leads from a table a program can have to another one. By induction on
the operations. -/
theorem Reached.after {mem : Uninit} {ops : List TableOp} :
    ∀ {t : CSTableWriter}, Reached mem t → Reached mem (t.after ops) := by
  induction ops with
  | nil => exact fun h => h
  | cons op ops ih => exact fun h => ih (h.apply op)

/-- What holds of new tables and is kept by writes holds of all of them. Each invariant of
tables is an instance of this. -/
theorem Reached.keeps {mem : Uninit} {t : CSTableWriter} {P : CSTableWriter → Prop}
    (ht : Reached mem t) (h : KeptByWrites P)
    (hcreate : ∀ order version schema t,
      CSTableWriter.createFile mem order version schema = .ok t → P t) : P t := by
  induction ht with
  | createFile hnew => exact hcreate _ _ _ _ hnew
  | apply _ op ih => exact h.apply op _ ih
  | addRecord _ schema_ msg schema ih => exact h.addRecord schema_ msg schema _ ih
  | addCSV _ ops csv ih => exact h.addRecordsFromCSV ops csv _ ih

/-- Writes change neither the schema of a table nor its list of columns. -/
theorem OwnSchema.of_wrote {mem : Uninit} {t t' : CSTableWriter} {calls : Nat → List WriteCall}
    (h : t.OwnSchema mem) (hwrote : RecordShredder.Wrote t t' calls) : t'.OwnSchema mem where
  columns := by rw [hwrote.columns, hwrote.schema, h.columns]
  length := by rw [hwrote.length, hwrote.columns, h.length]

/-- So every way to write to a table keeps its columns those of its schema. The columns are made
when the table is created. -/
theorem keptByWrites_ownSchema (mem : Uninit) : KeptByWrites (OwnSchema mem) where
  writeColumn := by
    intro i c t h
    rcases RecordShredder.exec_writeColumn (i := i) (c := c) (t := t) with ⟨-, hwrote⟩ | ⟨-, hwrote⟩
    · exact h.of_wrote hwrote
    · exact h.of_wrote hwrote
  addRow t h := ⟨h.columns, h.length⟩
  addRows t n h := ⟨h.columns, h.length⟩

/-- In every table a program can have, the columns are those of its schema. By induction on the
way the table was reached. -/
theorem Reached.ownSchema {mem : Uninit} {t : CSTableWriter} (h : Reached mem t) :
    t.OwnSchema mem :=
  h.keeps (keptByWrites_ownSchema mem) fun _ _ _ _ hnew => createFile_ownSchema hnew

end CSTableWriter

end CStable
