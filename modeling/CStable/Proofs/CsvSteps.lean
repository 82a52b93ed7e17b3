import CStable.Proofs.Reached

/-!
# `CStable.Proofs.CsvSteps`: a CSV row as steps

What `addRecordsFromCSV` does for a row is a list of steps (`rowSteps`) on the columns
of the header and the missing ones, followed by the counting of the row
(`exec_addCSVRow`). So the lemmas on runs of steps apply: an accepted row has made all
its calls, a rejected one those before the failing cell.
-/

set_option autoImplicit false

namespace CStable

/-- A loop over a list that succeeds has succeeded in every round. -/
theorem Result.forall₂_of_mapM {α β : Type} {f : α → Result β} {xs : List α} :
    ∀ {ys : List β}, xs.mapM f = .ok ys → List.Forall₂ (fun x y => f x = .ok y) xs ys := by
  induction xs with
  | nil =>
    intro ys h
    cases h
    exact .nil
  | cons x xs ih =>
    intro ys h
    rw [List.mapM_cons] at h
    obtain ⟨y, hy, h⟩ := Result.bind_eq_ok.mp h
    obtain ⟨ys', hys, hret⟩ := Result.bind_eq_ok.mp h
    cases hret
    exact .cons hy (ih hys)

namespace RecordShredder

open CSTableWriter (writeColumn)

/-! ### The header -/

/-- A column of the header has been found by its name, and says of itself what its
writer does. -/
structure Opens (t : CSTableWriter) (name : Bytes) (col : CSVColumn) : Prop where
  name_eq : col.name = name
  writer : t.getColumnWriter name = .ok col.writer
  slot : ∃ slot, t.column_writers[col.writer]? = some slot ∧
    col.maxDefinitionLevel = slot.writer.maxDefinitionLevel ∧ col.type = slot.writer.type

/-- The writer at a position is the one of the list. -/
theorem slot_eq_ok {t : CSTableWriter} {i : Nat} {slot : ColumnSlot} :
    t.slot i = .ok slot ↔ t.column_writers[i]? = some slot := by
  unfold CSTableWriter.slot
  cases t.column_writers[i]? with
  | none => simp
  | some s => simp

/-- A column of the header is found by its name, and its type and level are what its writer
reports. -/
theorem openCSVColumn_eq_ok {t : CSTableWriter} {name : Bytes} {col : CSVColumn}
    (h : openCSVColumn t name = .ok col) : Opens t name col := by
  unfold openCSVColumn at h
  split at h
  · cases h
  · obtain ⟨i, hi, h⟩ := Result.bind_eq_ok.mp h
    obtain ⟨slot, hslot, hret⟩ := Result.bind_eq_ok.mp h
    cases hret
    exact ⟨rfl, hi, slot, slot_eq_ok.mp hslot, rfl, rfl⟩

/-- A missing column has been found by its name, and takes nulls. One that is required raises at
the header already. -/
theorem openMissingColumn_eq_ok {t : CSTableWriter} {name : Bytes} {i : Nat}
    (h : openMissingColumn t name = .ok i) : t.getColumnWriter name = .ok i ∧
      ∃ slot, t.column_writers[i]? = some slot ∧ slot.writer.maxDefinitionLevel ≠ 0 := by
  obtain ⟨j, hj, h⟩ := Result.bind_eq_ok.mp h
  obtain ⟨slot, hslot, h⟩ := Result.bind_eq_ok.mp h
  split at h
  · cases h
  · next hmax =>
    cases h
    exact ⟨hj, slot, slot_eq_ok.mp hslot, hmax⟩

/-- What the import has found for the header: the columns of the header, and the
missing ones. -/
structure Header (t : CSTableWriter) (header : List Bytes) (columns : List CSVColumn)
    (missing : List Nat) : Prop where
  columns : header.mapM (openCSVColumn t) = .ok columns
  missing : (missingColumns t header).mapM (openMissingColumn t) = .ok missing

namespace Header

variable {t : CSTableWriter} {header : List Bytes} {columns : List CSVColumn}
  {missing : List Nat}

/-- Each name of the header has a column, in the order of the header. A name without one has
raised before. -/
theorem opens (h : Header t header columns missing) :
    List.Forall₂ (Opens t) header columns :=
  (Result.forall₂_of_mapM h.columns).imp fun _ _ => openCSVColumn_eq_ok

/-- The columns keep the names of the header, also one that occurs twice. -/
theorem map_name (h : Header t header columns missing) :
    columns.map CSVColumn.name = header := by
  have hall := h.opens
  clear h
  induction hall with
  | nil => rfl
  | cons hopens _ ih => rw [List.map_cons, hopens.name_eq, ih]

/-- Each of the columns was found by its own name. -/
theorem opens_of_mem (h : Header t header columns missing) {col : CSVColumn}
    (hcol : col ∈ columns) : Opens t col.name col := by
  have hall := h.opens
  clear h
  induction hall with
  | nil => cases hcol
  | cons hopens _ ih =>
    rcases List.mem_cons.mp hcol with rfl | hcol
    · exact hopens.name_eq ▸ hopens
    · exact ih hcol

/-- Each missing column was found by its name. The names are those of the table, so the search
succeeds. -/
theorem getColumnWriter_missing (h : Header t header columns missing) :
    List.Forall₂ (fun name i => t.getColumnWriter name = .ok i) (missingColumns t header)
      missing :=
  (Result.forall₂_of_mapM h.missing).imp fun _ _ hi => (openMissingColumn_eq_ok hi).1

end Header

/-! ### Steps -/

/-- The steps of a cell. A column whose type is no enumerator is passed over. -/
def cellSteps (ops : CSVOps) (n i : Nat) (col : CSVColumn) (val : Bytes) : List Step :=
  if Human.isNullOrEmpty val then
    if col.maxDefinitionLevel = 0 then
      [.fail (.raised ⟨.kRuntimeError, "missing value for required column: $0", [col.name]⟩)]
    else [.write col.name 0 0 (.ok .null)]
  else
    match ColumnType.ofCode? col.type with
    | none => []
    | some type => [.write col.name 0 col.maxDefinitionLevel (csvArg ops n i val type)]

/-- The steps of the cells of row `n`, from position `i` on. -/
def cellsSteps (ops : CSVOps) (n : Nat) : Nat → List CSVColumn → List Bytes → List Step
  | i, col :: columns, val :: row =>
    cellSteps ops n i col val ++ cellsSteps ops n (i + 1) columns row
  | _, [], _ => []
  | _, _ :: _, [] => []

/-- The steps of the missing columns. -/
def missingSteps (missing : List Bytes) : List Step :=
  missing.map fun name => .write name 0 0 (.ok .null)

/-- The steps of row `n`. -/
def rowSteps (ops : CSVOps) (columns : List CSVColumn) (missing : List Bytes) (n : Nat)
    (row : List Bytes) : List Step :=
  cellsSteps ops n 0 columns row ++ missingSteps missing

/-- A cell is one step, or none at all where the type of the column has no branch. So a step
that raises is the last of its cell. -/
theorem cellSteps_eq_singleton {ops : CSVOps} {n i : Nat} {col : CSVColumn} {val : Bytes}
    {s : Step} {rest : List Step} (h : cellSteps ops n i col val = s :: rest) : rest = [] := by
  unfold cellSteps at h
  split_ifs at h
  · exact (List.cons.inj h).2.symm
  · exact (List.cons.inj h).2.symm
  · split at h
    · cases h
    · exact (List.cons.inj h).2.symm

/-- Where a row stops: at a cell, behind the cells before it, or at the null of a missing
column, behind all cells and the nulls of the missing columns before it. -/
inductive RowStops (ops : CSVOps) (columns : List CSVColumn) (missing : List Bytes) (n : Nat)
    (row : List Bytes) (done : List Step) (failing : Step) : Prop where
  | cell (i : Nat) (col : CSVColumn) (val : Bytes) (hcol : columns[i]? = some col)
    (hval : row[i]? = some val) (hfailing : cellSteps ops n i col val = [failing])
    (hdone : done = cellsSteps ops n 0 (columns.take i) (row.take i))
  | missing (before : List Bytes) (name : Bytes) (after : List Bytes)
    (hmissing : missing = before ++ name :: after)
    (hfailing : failing = .write name 0 0 (.ok .null))
    (hdone : done = cellsSteps ops n 0 columns row ++ missingSteps before)

/-- A step among those of the cells is the step of one of them, behind those of the cells
before it. -/
theorem cellsSteps_split {ops : CSVOps} {n : Nat} {columns : List CSVColumn} {failing : Step}
    {later : List Step} :
    ∀ {i : Nat} {row : List Bytes} {done : List Step},
      cellsSteps ops n i columns row = done ++ failing :: later →
        ∃ j col val, columns[j]? = some col ∧ row[j]? = some val ∧
          cellSteps ops n (i + j) col val = [failing] ∧
          done = cellsSteps ops n i (columns.take j) (row.take j) := by
  induction columns with
  | nil =>
    intro i row done h
    exact absurd h.symm
      (by cases row <;> exact List.append_ne_nil_of_right_ne_nil done (List.cons_ne_nil _ _))
  | cons col columns ih =>
    intro i row done h
    cases row with
    | nil => exact absurd h.symm (List.append_ne_nil_of_right_ne_nil done (List.cons_ne_nil _ _))
    | cons val row =>
      rw [cellsSteps] at h
      -- the step is the one of the first cell, or behind it
      cases hcell : cellSteps ops n i col val with
      | nil =>
        rw [hcell, List.nil_append] at h
        obtain ⟨j, col', val', hcol, hval, hfailing, rfl⟩ := ih h
        refine ⟨j + 1, col', val', hcol, hval, ?_, ?_⟩
        · rw [← hfailing]
          congr 1
          omega
        · rw [List.take_succ_cons, List.take_succ_cons, cellsSteps, hcell, List.nil_append]
      | cons s rest =>
        obtain rfl : rest = [] := cellSteps_eq_singleton hcell
        rw [hcell] at h
        cases done with
        | nil =>
          obtain ⟨rfl, -⟩ := List.cons.inj h
          exact ⟨0, col, val, rfl, rfl, hcell, rfl⟩
        | cons s' done =>
          obtain ⟨rfl, hrest⟩ := List.cons.inj h
          obtain ⟨j, col', val', hcol, hval, hfailing, rfl⟩ := ih hrest
          refine ⟨j + 1, col', val', hcol, hval, ?_, ?_⟩
          · rw [← hfailing]
            congr 1
            omega
          · rw [List.take_succ_cons, List.take_succ_cons, cellsSteps, hcell]
            rfl

/-- A row that is split at a step stops at a cell or at a missing column, and the missing
columns come after all cells. -/
theorem rowStops {ops : CSVOps} {columns : List CSVColumn} {missing : List Bytes} {n : Nat}
    {row : List Bytes} {done later : List Step} {failing : Step}
    (h : rowSteps ops columns missing n row = done ++ failing :: later) :
    RowStops ops columns missing n row done failing := by
  rcases List.append_eq_append_iff.mp h with ⟨before, rfl, hmissing⟩ | ⟨rest, hcells, hlater⟩
  · -- the cells are done, and so are some of the missing columns
    obtain ⟨names, rest, rfl, rfl, hrest⟩ := List.map_eq_append_iff.mp hmissing
    obtain ⟨name, after, rfl, rfl, -⟩ := List.map_eq_cons_iff.mp hrest
    exact .missing names name after rfl rfl rfl
  · cases rest with
    | nil =>
      rw [List.append_nil] at hcells
      rw [List.nil_append] at hlater
      obtain ⟨name, after, rfl, rfl, -⟩ := List.map_eq_cons_iff.mp hlater.symm
      refine .missing [] name after rfl rfl ?_
      rw [hcells]
      exact (List.append_nil _).symm
    | cons s rest =>
      obtain ⟨rfl, -⟩ := List.cons.inj hlater
      obtain ⟨j, col, val, hcol, hval, hfailing, hdone⟩ := cellsSteps_split hcells
      rw [Nat.zero_add] at hfailing
      exact .cell j col val hcol hval hfailing hdone

/-- Two computations that do the same on tables with the columns. -/
def SameOn (columns : List ColumnConfig) (x y : CxxM CSTableWriter Unit) : Prop :=
  ∀ u : CSTableWriter, u.columns = columns → CxxM.exec x u = CxxM.exec y u

/-- The list of columns is kept by every way to write. -/
theorem keptByWrites_columns (columns : List ColumnConfig) :
    KeptByWrites fun t => t.columns = columns where
  writeColumn := by
    intro i c t h
    rcases exec_writeColumn (i := i) (c := c) (t := t) with ⟨-, hwrote⟩ | ⟨-, hwrote⟩
    · exact hwrote.columns.trans h
    · exact hwrote.columns.trans h
  addRow t h := h
  addRows t n h := h

/-- Computations that are steps, one after the other, are the steps of both. -/
theorem SameOn.bind {columns : List ColumnConfig} {x y : CxxM CSTableWriter Unit}
    {xs ys : List Step} (hx : SameOn columns x (execSteps xs))
    (hy : SameOn columns y (execSteps ys)) :
    SameOn columns (x >>= fun _ => y) (execSteps (xs ++ ys)) := by
  intro u hu
  have hcolumns : (CxxM.exec (execSteps xs) u).2.columns = columns :=
    (keptByWrites_columns columns).execSteps xs u hu
  rw [execSteps_append, CxxM.exec_bind, CxxM.exec_bind, hx u hu]
  rcases hrun : CxxM.exec (execSteps xs) u with ⟨result, u'⟩
  rw [hrun] at hcolumns
  cases result with
  | error e => rfl
  | ok a => exact hy u' hcolumns

/-- A write by position is a write by name, as long as the name leads to the position. The
importer keeps positions, and the steps keep names. -/
theorem sameOn_write {t : CSTableWriter} {name : Bytes} {i : Nat}
    (h : t.getColumnWriter name = .ok i) (r d : Nat) (arg : Result WriteArg) :
    SameOn t.columns (do
      let arg ← CxxM.lift arg
      writeColumn i ⟨r, d, arg⟩) (execSteps [.write name r d arg]) := by
  intro u hu
  have hcol : CxxM.exec (getColumnWriter name) u = (.ok i, u) := by
    show (u.getColumnWriter name, u) = _
    rw [getColumnWriter_congr hu, h]
  rw [execSteps_singleton, Step.exec, CxxM.exec_bind_ok hcol]

/-- A cell of the importer is the step of the cell. The importer writes by position, the steps
by name, so that both walks have the same steps. -/
theorem sameOn_addCSVCell {t : CSTableWriter} {col : CSVColumn}
    (h : t.getColumnWriter col.name = .ok col.writer) (ops : CSVOps) (n i : Nat) (val : Bytes) :
    SameOn t.columns (addCSVCell ops n i col val) (execSteps (cellSteps ops n i col val)) := by
  unfold addCSVCell cellSteps
  cases Human.isNullOrEmpty val with
  | true =>
    rw [if_pos rfl, if_pos rfl]
    split
    · intro u _
      rw [execSteps_singleton]
      rfl
    · exact sameOn_write h 0 0 (.ok .null)
  | false =>
    rw [if_neg Bool.false_ne_true, if_neg Bool.false_ne_true]
    cases ColumnType.ofCode? col.type with
    | none => exact fun u _ => rfl
    | some type => exact sameOn_write h 0 _ _

/-- The cells of a row are their steps. By induction on the columns, along with the row. -/
theorem sameOn_addCSVCells {t : CSTableWriter} (ops : CSVOps) (n : Nat)
    {columns : List CSVColumn}
    (h : ∀ col ∈ columns, t.getColumnWriter col.name = .ok col.writer) :
    ∀ (i : Nat) (row : List Bytes), SameOn t.columns (addCSVCells ops n i columns row)
      (execSteps (cellsSteps ops n i columns row)) := by
  induction columns with
  | nil =>
    intro i row u _
    cases row <;> rfl
  | cons col columns ih =>
    intro i row
    cases row with
    | nil => exact fun u _ => rfl
    | cons val row =>
      exact (sameOn_addCSVCell (h col List.mem_cons_self) ops n i val).bind
        (ih (fun col' hcol' => h col' (List.mem_cons_of_mem col hcol')) (i + 1) row)

/-- The nulls for the missing columns are steps as well. By induction on the missing columns. -/
theorem sameOn_addMissing {t : CSTableWriter} {names : List Bytes} {missing : List Nat}
    (h : List.Forall₂ (fun name i => t.getColumnWriter name = .ok i) names missing) :
    SameOn t.columns (addMissing missing) (execSteps (missingSteps names)) := by
  induction h with
  | nil => exact fun u _ => rfl
  | cons hi _ ih => exact (sameOn_write hi 0 0 (.ok .null)).bind ih

/-- A row is its steps and the counting of the row, which is left out when a step raises. The
steps before that one stay in the table. -/
theorem exec_addCSVRow {t u : CSTableWriter} {header : List Bytes} {columns : List CSVColumn}
    {missing : List Nat} (h : Header t header columns missing) (hu : u.columns = t.columns)
    (ops : CSVOps) (n : Nat) (row : List Bytes) :
    CxxM.exec (addCSVRow ops columns missing n row) u =
      match CxxM.exec (execSteps (rowSteps ops columns (missingColumns t header) n row)) u with
      | (.ok (), u₁) => (.ok (), u₁.addRow)
      | (.error e, u₁) => (.error e, u₁) := by
  have hsteps := (sameOn_addCSVCells ops n (fun col hcol => (h.opens_of_mem hcol).writer)
    0 row).bind
    (sameOn_addMissing h.getColumnWriter_missing) u hu
  unfold addCSVRow
  rw [← bind_assoc, CxxM.exec_bind, hsteps, rowSteps]
  rcases CxxM.exec (execSteps _) u with ⟨result, u₁⟩
  cases result <;> rfl

/-- An import is the header and then the rows. The columns are looked up once, before the first
row. -/
theorem exec_addRecordsFromCSV {ops : CSVOps} {csv csv' : CSVInputStream} {first : Bool}
    {header : List Bytes} (hheader : csv.readNextRow = (first, header, csv'))
    {t : CSTableWriter} {columns : List CSVColumn} {missing : List Nat}
    (h : Header t header columns missing) :
    CxxM.exec (addRecordsFromCSV ops csv) t =
      CxxM.exec (forRows (addCSVRow ops columns missing) 0 csv'.rows) t := by
  have hcolumns : CxxM.exec (reading fun t => header.mapM (openCSVColumn t)) t =
      (.ok columns, t) := Prod.ext h.columns rfl
  have hmissing : CxxM.exec (reading fun t => (missingColumns t header).mapM (openMissingColumn t))
      t = (.ok missing, t) := Prod.ext h.missing rfl
  unfold addRecordsFromCSV
  rw [hheader]
  dsimp only
  rw [CxxM.exec_bind_ok hcolumns, CxxM.exec_bind_ok hmissing, addCSVRows_eq]

/-- An import that accepts the header has found its columns; one that does not leaves the table
as it was. -/
theorem exists_header {ops : CSVOps} {csv csv' : CSVInputStream} {first : Bool}
    {header : List Bytes} (hheader : csv.readNextRow = (first, header, csv'))
    {t t' : CSTableWriter} {result : Result Unit}
    (h : CxxM.exec (addRecordsFromCSV ops csv) t = (result, t')) :
    (∃ columns missing, Header t header columns missing) ∨ (∃ e, result = .error e) ∧ t' = t := by
  -- the columns are looked up before any row, so an exception there leaves the table alone
  cases hcolumns : header.mapM (openCSVColumn t) with
  | error e =>
    right
    have hexec : CxxM.exec (reading fun t => header.mapM (openCSVColumn t)) t = (.error e, t) :=
      Prod.ext hcolumns rfl
    unfold addRecordsFromCSV at h
    rw [hheader] at h
    dsimp only at h
    rw [CxxM.exec_bind_error hexec] at h
    cases h
    exact ⟨⟨e, rfl⟩, rfl⟩
  | ok columns =>
    cases hmissing : (missingColumns t header).mapM (openMissingColumn t) with
    | ok missing => exact Or.inl ⟨columns, missing, hcolumns, hmissing⟩
    | error e =>
      right
      have hexec : CxxM.exec (reading fun t => header.mapM (openCSVColumn t)) t =
          (.ok columns, t) := Prod.ext hcolumns rfl
      have hexec' : CxxM.exec (reading fun t =>
          (missingColumns t header).mapM (openMissingColumn t)) t = (.error e, t) :=
        Prod.ext hmissing rfl
      unfold addRecordsFromCSV at h
      rw [hheader] at h
      dsimp only at h
      rw [CxxM.exec_bind_ok hexec, CxxM.exec_bind_error hexec'] at h
      cases h
      exact ⟨⟨e, rfl⟩, rfl⟩

end RecordShredder

end CStable
