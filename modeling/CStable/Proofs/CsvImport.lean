import CStable.Proofs.CsvSteps
import CStable.Proofs.ShreddedTable

/-!
# `CStable.Proofs.CsvImport`: the rows of an accepted and of a rejected import

A cell of an accepted row is one call on the column of its position in the header, a
missing column gets one null. So the number of calls on a column is the number of
times the header names it among the cells the row has (`length_callsFor_rowSteps`).

* `csvAligned_iff`: every row leaves exactly one entry in every column exactly when
  every row has one cell for each name of the header.
* `rejectedCSV`: the rows before a rejected one stay, and so do its cells before the
  one that raised.
-/

set_option autoImplicit false

namespace CStable

open Support

namespace CSVInputStream

/-- The names of the columns: the first row, whether it ends before the input does or
not. -/
def header (csv : CSVInputStream) : List Bytes := csv.readNextRow.2.1

/-- The rows after the header. -/
def dataRows (csv : CSVInputStream) : List (List Bytes) := csv.readNextRow.2.2.rows

/-- The first row of a stream is its header. -/
theorem readNextRow_eq (csv : CSVInputStream) :
    csv.readNextRow = (csv.readNextRow.1, csv.header, csv.readNextRow.2.2) := rfl

/-- A stream whose input ends with the row after the header has this row only: reading at the
end of the input tells so. -/
theorem dataRows_singleton {csv : CSVInputStream} {row : List Bytes} {sep lf quote : UInt8}
    (h : csv.readNextRow.2.2.readNextRow = (true, row, ⟨[], sep, lf, quote⟩)) :
    csv.dataRows = [row] := rows_singleton h rfl

end CSVInputStream

/-! ### The types of the columns -/

/-- A value does not change the type a column writer reports. -/
theorem v1.DataWriter.type_addDatum {w w' : v1.DataWriter} {data : Bytes}
    (h : w.addDatum data = .ok w') : w'.type = w.type := by
  cases w with
  | string w =>
    cases h
    rfl
  | _ =>
    rw [addDatum] at h
    split_ifs at h <;> cases h <;> rfl

/-- What a column writer says of itself never changes: the importer asks once, at the header,
and may rely on it for all rows. -/
theorem v1.ColumnWriter.answers_call {w w' : v1.ColumnWriter} {c : WriteCall}
    (h : w.call c = .ok w') :
    w'.data_writer.type = w.data_writer.type ∧ w'.maxDefinitionLevel = w.maxDefinitionLevel := by
  unfold call at h
  split at h
  · cases h
    exact ⟨rfl, rfl⟩
  · obtain ⟨dw, hdw, hret⟩ := Result.bind_eq_ok.mp h
    cases hret
    exact ⟨v1.DataWriter.type_addDatum hdw, rfl⟩

/-- What the import asks a column writer for: its type and its maximal definition
level. -/
def ColumnSlot.answers (slot : ColumnSlot) : UInt8 × Nat :=
  (slot.writer.type, slot.writer.maxDefinitionLevel)

namespace CSTableWriter

/-- The answers of all columns are kept by every way to write to a table. The importer asks for
them once, before the rows. -/
theorem keptByWrites_answers (answers : List (UInt8 × Nat)) :
    KeptByWrites fun t => t.column_writers.map ColumnSlot.answers = answers where
  writeColumn := by
    intro i c t h
    -- the writer that is put back answers as the one it replaces
    have hset : ∀ slot slot' : ColumnSlot, t.column_writers[i]? = some slot →
        slot'.answers = slot.answers →
        (t.column_writers.set i slot').map ColumnSlot.answers = answers := by
      intro slot slot' hslot hanswers
      obtain ⟨hi, hget⟩ := List.getElem?_eq_some_iff.mp hslot
      have hi' : i < (t.column_writers.map ColumnSlot.answers).length := by
        rwa [List.length_map]
      have hself : slot.answers = (t.column_writers.map ColumnSlot.answers)[i] := by
        rw [List.getElem_map, hget]
      rw [List.map_set, hanswers, hself, List.set_getElem_self, h]
    unfold CxxM.exec writeColumn CSTableWriter.slot
    cases hslot : t.column_writers[i]? with
    | none => exact h
    | some slot =>
      obtain ⟨writer, history⟩ := slot
      cases writer with
      | v1 w =>
        dsimp only
        cases hcall : w.call c with
        | error e => exact h
        | ok w' =>
          obtain ⟨htype, hmax⟩ := v1.ColumnWriter.answers_call hcall
          exact hset _ _ hslot (Prod.ext htype hmax)
      | v2 w =>
        dsimp only
        rcases CxxM.exec (w.call c) t.pages with ⟨result, pages⟩
        cases result with
        | error e => exact h
        | ok u => exact hset _ _ hslot rfl
  addRow t h := h
  addRows t n h := h

/-- Every column writer says it has one of the types there are. -/
def Typed (t : CSTableWriter) : Prop :=
  ∀ answer ∈ t.column_writers.map ColumnSlot.answers, (ColumnType.ofCode? answer.1).isSome

/-- In particular their types stay types that there are. -/
theorem keptByWrites_typed : KeptByWrites Typed where
  writeColumn := by
    intro i c t h
    have hkept : (CxxM.exec (writeColumn i c) t).2.column_writers.map ColumnSlot.answers = _ :=
      (keptByWrites_answers _).writeColumn i c t rfl
    unfold Typed
    rw [hkept]
    exact h
  addRow t h := h
  addRows t n h := h

/-- The writers of a new table report types that there are. A class has a type of its own, or
takes that of the column, which is one of the enumeration. -/
theorem createFile_typed {mem : Uninit} {order : HashOrder} {version : BinaryFormatVersion}
    {schema : TableSchema} {t : CSTableWriter} (h : createFile mem order version schema = .ok t) :
    t.Typed := by
  obtain ⟨_, -, h⟩ := Result.bind_eq_ok.mp h
  obtain ⟨⟨slots, pages⟩, hopen, hret⟩ := Result.bind_eq_ok.mp h
  cases hret
  intro answer hanswer
  obtain ⟨slot, hslot, rfl⟩ := List.mem_map.mp hanswer
  cases version with
  | v0_1_0 =>
    obtain ⟨c, hc, encoding, -, rfl⟩ := exists_of_mem_right (openColumns_v1_spec hopen).2 hslot
    obtain ⟨i, hi⟩ := List.mem_iff_getElem?.mp hc
    rw [TableSchema.flatColumns, List.getElem?_mapIdx] at hi
    obtain ⟨flat, -, rfl⟩ := Option.map_eq_some_iff.mp hi
    -- a class of its own type, or the logical type of the column
    have htype : ∀ type : ColumnType, (ColumnType.ofCode? type.code).isSome := by
      intro type
      rw [ColumnType.ofCode?_code]
      rfl
    cases encoding with
    | BOOLEAN_BITPACKED => exact htype .UNSIGNED_INT
    | UINT32_BITPACKED => exact htype .UNSIGNED_INT
    | FLOAT_IEEE754 => exact htype .FLOAT
    | STRING_PLAIN => exact htype .STRING
    | _ => exact htype flat.logical_type.val
  | v0_2_0 =>
    have hv2 : ∀ (columns : List ColumnConfig) (s s' : PageStore) (slots : List ColumnSlot),
        openColumns .v0_2_0 s columns = .ok (slots, s') →
          ∀ slot ∈ slots, ∃ w, slot.writer = .v2 w := by
      intro columns
      induction columns with
      | nil =>
        intro s s' slots h slot hslot
        cases h
        cases hslot
      | cons c cs ih =>
        intro s s' slots h slot hslot
        obtain ⟨⟨w, s₁⟩, -, h₁⟩ := Result.bind_eq_ok.mp h
        obtain ⟨⟨slots', s₂⟩, hrest, hret⟩ := Result.bind_eq_ok.mp
          ((Result.ok_bind _ _).symm.trans h₁)
        cases hret
        rcases List.mem_cons.mp hslot with rfl | hslot
        · exact ⟨w, rfl⟩
        · exact ih _ _ _ hrest slot hslot
    obtain ⟨w, hw⟩ := hv2 _ _ _ _ hopen slot hslot
    unfold ColumnSlot.answers
    rw [hw]
    rfl

/-- So do those of every table a program can have; the importer has no branch for another
type. -/
theorem Reached.typed {mem : Uninit} {t : CSTableWriter} (h : Reached mem t) : t.Typed :=
  h.keeps keptByWrites_typed fun _ _ _ _ hnew => createFile_typed hnew

end CSTableWriter

namespace RecordShredder

open CSTableWriter (OwnSchema Reached Typed)

/-- The type of a column of the header is one of the types there are. -/
theorem Opens.isSome_type {t : CSTableWriter} {name : Bytes} {col : CSVColumn}
    (h : Opens t name col) (ht : t.Typed) : (ColumnType.ofCode? col.type).isSome := by
  obtain ⟨slot, hslot, -, htype⟩ := h.slot
  rw [htype]
  exact ht _ (List.mem_map_of_mem (List.mem_iff_getElem?.mpr ⟨_, hslot⟩))

/-! ### The calls of a row -/

/-- The cell of an accepted row is one call: a value or a null, but never two and never none. An
accepted row has no step that fails. -/
theorem cellSteps_eq {ops : CSVOps} {n i : Nat} {col : CSVColumn} {val : Bytes}
    (htype : (ColumnType.ofCode? col.type).isSome)
    (hwrites : ∀ s ∈ cellSteps ops n i col val, s.IsWrite) :
    ∃ d arg, cellSteps ops n i col val = [.write col.name 0 d (.ok arg)] := by
  unfold cellSteps at hwrites ⊢
  split at hwrites
  · split at hwrites
    · exact absurd hwrites not_isWrite_fail
    · next hnull hmax =>
      rw [if_pos hnull, if_neg hmax]
      exact ⟨0, .null, rfl⟩
  · next hnull =>
    obtain ⟨type, htype⟩ := Option.isSome_iff_exists.mp htype
    rw [htype] at hwrites ⊢
    dsimp only at hwrites ⊢
    obtain ⟨column, r, d, arg, heq⟩ := hwrites _ List.mem_cons_self
    rw [if_neg hnull]
    exact ⟨col.maxDefinitionLevel, arg, by rw [(Step.write.inj heq).2.2.2]⟩

/-- A write is one call on the column of its name and none on any other. -/
theorem callsFor_write (name column : Bytes) (r d : Nat) (arg : WriteArg) :
    (callsFor name [.write column r d (.ok arg)]).length = if column = name then 1 else 0 := by
  unfold callsFor
  by_cases h : column = name <;> simp [Step.callFor, h]

/-- The calls of the cells on a column are as many as the header names it among the
cells the row has. -/
theorem length_callsFor_cellsSteps {ops : CSVOps} {n : Nat} {name : Bytes}
    {columns : List CSVColumn} (htypes : ∀ col ∈ columns, (ColumnType.ofCode? col.type).isSome) :
    ∀ (i : Nat) (row : List Bytes), (∀ s ∈ cellsSteps ops n i columns row, s.IsWrite) →
      (callsFor name (cellsSteps ops n i columns row)).length =
        ((columns.map CSVColumn.name).take row.length).count name := by
  induction columns with
  | nil =>
    intro i row _
    cases row <;> rfl
  | cons col columns ih =>
    intro i row hwrites
    -- cells and columns are paired until one of them runs out
    cases row with
    | nil => rfl
    | cons val row =>
      rw [cellsSteps] at hwrites ⊢
      obtain ⟨d, arg, hcell⟩ := cellSteps_eq (htypes col List.mem_cons_self)
        fun s hs => hwrites s (List.mem_append_left _ hs)
      rw [callsFor_append, List.length_append, hcell, callsFor_write,
        ih (fun col' hcol' => htypes col' (List.mem_cons_of_mem col hcol')) (i + 1) row
          fun s hs => hwrites s (List.mem_append_right _ hs),
        List.map_cons, List.length_cons, List.take_succ_cons, List.count_cons]
      simp only [beq_iff_eq]
      omega

/-- The columns missing from the header get one call each. -/
theorem length_callsFor_missingSteps (name : Bytes) (missing : List Bytes) :
    (callsFor name (missingSteps missing)).length = missing.count name := by
  induction missing with
  | nil => rfl
  | cons column missing ih =>
    have hcons : missingSteps (column :: missing) =
        [.write column 0 0 (.ok .null)] ++ missingSteps missing := rfl
    rw [hcons, callsFor_append, List.length_append, callsFor_write, ih, List.count_cons]
    simp only [beq_iff_eq]
    omega

/-- The calls of an accepted row on the column of a name: one for each cell under the name, and
one if it is missing from the header. -/
theorem length_callsFor_rowSteps {ops : CSVOps} {n : Nat} {name : Bytes} {row : List Bytes}
    {columns : List CSVColumn} {missing : List Bytes}
    (htypes : ∀ col ∈ columns, (ColumnType.ofCode? col.type).isSome)
    (hwrites : ∀ s ∈ rowSteps ops columns missing n row, s.IsWrite) :
    (callsFor name (rowSteps ops columns missing n row)).length =
      ((columns.map CSVColumn.name).take row.length).count name + missing.count name := by
  unfold rowSteps at hwrites ⊢
  rw [callsFor_append, List.length_append, length_callsFor_missingSteps,
    length_callsFor_cellsSteps htypes 0 row fun s hs => hwrites s (List.mem_append_left _ hs)]

/-- The missing columns are those of the table that the header does not name. -/
theorem mem_missingColumns {t : CSTableWriter} {header : List Bytes} {name : Bytes} :
    name ∈ missingColumns t header ↔
      name ∈ t.columns.map ColumnConfig.column_name ∧ name ∉ header := by
  unfold missingColumns
  rw [List.mem_filter, List.mem_insertionSort, List.mem_dedup, decide_eq_true_iff]

/-- They come from a set, so that none of them is twice in the list. A missing column is not
given two nulls. -/
theorem nodup_missingColumns (t : CSTableWriter) (header : List Bytes) :
    (missingColumns t header).Nodup :=
  (((List.perm_insertionSort _ _).nodup_iff).mpr (List.nodup_dedup _)).filter _

/-- A row has exactly one cell for each name of the header. -/
def RowFits (header row : List Bytes) : Prop :=
  ∀ name ∈ header, (header.take row.length).count name = 1

/-- The search for a name goes from the front, so no column before the one it finds has the
name. -/
theorem not_mem_of_getColumnWriter {t : CSTableWriter} {name : Bytes} {i j : Nat}
    (h : t.getColumnWriter name = .ok i) (hj : j < i) (hjl : j < t.columns.length) :
    t.columns[j].column_name ≠ name := by
  unfold CSTableWriter.getColumnWriter at h
  split at h
  · next k hfind =>
    cases h
    obtain ⟨hlt, heq, hbefore⟩ := List.findIdx?_eq_some_iff_getElem.mp hfind
    intro hname
    exact hbefore j hj (beq_iff_eq.mpr hname)
  · cases h

/-- An accepted row makes one call on every column exactly when the names of the
columns are distinct and the row has one cell for each name of the header. -/
theorem oneCallEach_iff {t : CSTableWriter} {header : List Bytes} {columns : List CSVColumn}
    {missing : List Nat} (h : Header t header columns missing) (ht : t.Typed) {ops : CSVOps}
    {n : Nat} {row : List Bytes}
    (hwrites : ∀ s ∈ rowSteps ops columns (missingColumns t header) n row, s.IsWrite) :
    (∀ i < t.columns.length,
      (callsAt t (rowSteps ops columns (missingColumns t header) n row) i).length = 1) ↔
    (t.columns.map ColumnConfig.column_name).Nodup ∧ RowFits header row := by
  have htypes : ∀ col ∈ columns, (ColumnType.ofCode? col.type).isSome := fun col hcol =>
    (h.opens_of_mem hcol).isSome_type ht
  have hlength : (t.columns.map ColumnConfig.column_name).Nodup → ∀ (i : Nat) (col : ColumnConfig),
      t.columns[i]? = some col →
        (callsAt t (rowSteps ops columns (missingColumns t header) n row) i).length =
          (header.take row.length).count col.column_name +
            (missingColumns t header).count col.column_name := by
    intro hnames i col hcol
    rw [callsAt_eq hnames hcol, length_callsFor_rowSteps htypes hwrites, h.map_name]
  constructor
  · intro hone
    have hnames : (t.columns.map ColumnConfig.column_name).Nodup := by
      -- a column with the name of one before it is never found
      refine List.pairwise_iff_getElem.mpr fun j k hj hk hjk => ?_
      rw [List.length_map] at hj hk
      rw [List.getElem_map, List.getElem_map]
      obtain ⟨c, hc⟩ := List.length_eq_one_iff.mp (hone k hk)
      obtain ⟨s, -, hs⟩ := List.mem_filterMap.mp (hc ▸ List.mem_singleton_self c)
      cases s with
      | fail e => cases hs
      | write column r d arg =>
        cases arg with
        | error e => cases hs
        | ok arg =>
          obtain ⟨hget, -⟩ := Option.ite_none_right_eq_some.mp hs
          obtain ⟨col, hcol, hname⟩ := CSTableWriter.name_of_getColumnWriter hget
          rw [(List.getElem?_eq_some_iff.mp hcol).2, hname]
          exact not_mem_of_getColumnWriter hget hjk hj
    refine ⟨hnames, fun name hname => ?_⟩
    rw [← h.map_name] at hname
    obtain ⟨col, hcol, rfl⟩ := List.mem_map.mp hname
    obtain ⟨c, hc, hcname⟩ := CSTableWriter.name_of_getColumnWriter (h.opens_of_mem hcol).writer
    have hnot : c.column_name ∉ missingColumns t header := fun hmem =>
      (mem_missingColumns.mp hmem).2 (by rw [hcname, ← h.map_name]; exact hname)
    have heq := hone col.writer (List.getElem?_eq_some_iff.mp hc).1
    rw [hlength hnames _ c hc, List.count_eq_zero_of_not_mem hnot, hcname] at heq
    exact heq
  · rintro ⟨hnames, hfits⟩ i hi
    have hcol := List.getElem?_eq_getElem hi
    rw [hlength hnames i _ hcol]
    by_cases hmem : (t.columns[i]).column_name ∈ header
    · have hnot : (t.columns[i]).column_name ∉ missingColumns t header := fun hmissing =>
        (mem_missingColumns.mp hmissing).2 hmem
      rw [hfits _ hmem, List.count_eq_zero_of_not_mem hnot]
    · have hmissing : (t.columns[i]).column_name ∈ missingColumns t header :=
        mem_missingColumns.mpr ⟨List.mem_map_of_mem (List.getElem_mem hi), hmem⟩
      rw [List.count_eq_zero_of_not_mem fun htake => hmem (List.mem_of_mem_take htake),
        List.count_eq_one_of_mem (nodup_missingColumns t header) hmissing]

/-- An import is the header, which only finds the columns, and then the rows. -/
theorem exec_rows {t : CSTableWriter} (ops : CSVOps) {csv : CSVInputStream}
    {columns : List CSVColumn} {missing : List Nat} {rows : List (List Bytes)}
    (h : Header t csv.header columns missing) (hrows : csv.dataRows = rows) :
    CxxM.exec (addRecordsFromCSV ops csv) t =
      CxxM.exec (forRows (addCSVRow ops columns missing) 0 rows) t := by
  rw [← hrows]
  exact exec_addRecordsFromCSV csv.readNextRow_eq h

/-! ### An accepted import -/

/-- One row was counted, and every column got exactly one entry. -/
def OneEntryEach (t t' : CSTableWriter) : Prop :=
  t'.num_rows = t.num_rows + 1 ∧ t'.column_writers.length = t.column_writers.length ∧
    ∀ (i : Nat) (slot slot' : ColumnSlot), t.column_writers[i]? = some slot →
      t'.column_writers[i]? = some slot' → ∃ c, slot'.history = slot.history ++ [c]

/-- Each of the rows leaves one entry in every column. -/
def EachRowAligned (add : Nat → List Bytes → CxxM CSTableWriter Unit) :
    Nat → List (List Bytes) → CSTableWriter → Prop
  | _, [], _ => True
  | n, row :: rows, t =>
    OneEntryEach t (CxxM.exec (add n row) t).2 ∧
      EachRowAligned add (n + 1) rows (CxxM.exec (add n row) t).2

/-- Each row of the stream leaves one entry in every column of the table, so that the
entries of every column belong to the rows in their order. -/
def CSVAligned (ops : CSVOps) (csv : CSVInputStream) (t : CSTableWriter) : Prop :=
  ∀ columns missing, Header t csv.header columns missing →
    EachRowAligned (addCSVRow ops columns missing) 0 csv.dataRows t

/-- The table counts `n` rows more, and every column has `n` entries more. -/
def FilledBy (t t' : CSTableWriter) (n : Nat) : Prop :=
  t'.num_rows = t.num_rows + UInt64.ofNat n ∧
    ∀ (i : Nat) (slot : ColumnSlot), t.column_writers[i]? = some slot →
      ∃ slot' added, t'.column_writers[i]? = some slot' ∧
        slot'.history = slot.history ++ added ∧ added.length = n

/-- A row that is one entry for each column, in front of others that are. This is the step of
the induction over the rows. -/
theorem FilledBy.cons {t t₁ t' : CSTableWriter} {n : Nat} (hone : OneEntryEach t t₁)
    (h : FilledBy t₁ t' n) : FilledBy t t' (n + 1) := by
  refine ⟨?_, fun i slot hslot => ?_⟩
  · rw [h.1, hone.1, UInt64.add_assoc, Nat.add_comm n 1]
    exact congrArg (t.num_rows + ·) (UInt64.ofNat_add 1 n).symm
  · have hi : i < t₁.column_writers.length :=
      hone.2.1 ▸ (List.getElem?_eq_some_iff.mp hslot).1
    obtain ⟨c, hc⟩ := hone.2.2 i slot _ hslot (List.getElem?_eq_getElem hi)
    obtain ⟨slot', added, hslot', hadded, hlength⟩ := h.2 i _ (List.getElem?_eq_getElem hi)
    refine ⟨slot', c :: added, hslot', ?_, ?_⟩
    · rw [hadded, hc, List.append_assoc]
      rfl
    · rw [List.length_cons, hlength]

/-- A table during an import: the columns are those of the table the import started
with, and each has a writer. -/
structure During (t u : CSTableWriter) : Prop where
  columns : u.columns = t.columns
  length : u.column_writers.length = u.columns.length

/-- An accepted row: what it adds to the columns, and when this is one entry each. The next row
finds the columns as this one did. -/
theorem acceptedRow {t u u' : CSTableWriter} {header : List Bytes} {columns : List CSVColumn}
    {missing : List Nat} (h : Header t header columns missing) (ht : t.Typed) (hu : During t u)
    {ops : CSVOps} {n : Nat} {row : List Bytes}
    (hrow : CxxM.exec (addCSVRow ops columns missing n row) u = (.ok (), u')) :
    During t u' ∧ (OneEntryEach u u' ↔
      (t.columns.map ColumnConfig.column_name).Nodup ∧ RowFits header row) := by
  rw [exec_addCSVRow h hu.columns] at hrow
  rcases hrun : CxxM.exec (execSteps (rowSteps ops columns (missingColumns t header) n row)) u with
    ⟨result, u₁⟩
  rw [hrun] at hrow
  cases result with
  | error e => cases hrow
  | ok _ =>
    cases hrow
    obtain ⟨hwrites, hwrote⟩ := execSteps_ok hrun
    rw [callsAt_congr hu.columns] at hwrote
    have hisWrite : ∀ s ∈ rowSteps ops columns (missingColumns t header) n row, s.IsWrite := by
      intro s hs
      obtain ⟨column, r, d, arg, -, heq, -⟩ := hwrites s hs
      exact ⟨column, r, d, arg, heq⟩
    refine ⟨⟨hwrote.columns.trans hu.columns, ?_⟩, ?_⟩
    · show u₁.column_writers.length = u₁.columns.length
      rw [hwrote.length, hwrote.columns, hu.length]
    · rw [← oneCallEach_iff h ht hisWrite, ← hu.columns, ← hu.length]
      -- one entry for a column means one call under its name
      constructor
      · rintro ⟨-, -, hone⟩ i hi
        obtain ⟨slot', hslot', hhistory, -⟩ := hwrote.slots i _ (List.getElem?_eq_getElem hi)
        obtain ⟨c, hc⟩ := hone i _ slot' (List.getElem?_eq_getElem hi) hslot'
        rw [List.append_cancel_left (hhistory.symm.trans hc)]
        rfl
      · intro hone
        refine ⟨congrArg (· + 1) hwrote.num_rows, hwrote.length, fun i slot slot' hs hs' => ?_⟩
        obtain ⟨slot'', hs'', hhistory, -⟩ := hwrote.slots i slot hs
        cases hs'.symm.trans hs''
        obtain ⟨c, hc⟩ := List.length_eq_one_iff.mp (hone i (List.getElem?_eq_some_iff.mp hs).1)
        exact ⟨c, by rw [hhistory, hc]⟩

/-- The rows of an accepted import. By induction on the rows, with the table and the count of
the rows moving on. -/
theorem acceptedRows {t : CSTableWriter} {header : List Bytes} {columns : List CSVColumn}
    {missing : List Nat} (h : Header t header columns missing) (ht : t.Typed) {ops : CSVOps}
    {rows : List (List Bytes)} :
    ∀ {n : Nat} {u u' : CSTableWriter}, During t u →
      CxxM.exec (forRows (addCSVRow ops columns missing) n rows) u = (.ok (), u') →
        (EachRowAligned (addCSVRow ops columns missing) n rows u ↔
          ∀ row ∈ rows, (t.columns.map ColumnConfig.column_name).Nodup ∧ RowFits header row) ∧
        (EachRowAligned (addCSVRow ops columns missing) n rows u → FilledBy u u' rows.length) := by
  induction rows with
  | nil =>
    intro n u u' _ hrun
    cases hrun
    refine ⟨iff_of_true trivial fun row hrow => ?_, fun _ => ⟨?_, fun i slot hslot => ?_⟩⟩
    · cases hrow
    · exact (UInt64.add_zero _).symm
    · exact ⟨slot, [], hslot, (List.append_nil _).symm, rfl⟩
  | cons row rows ih =>
    intro n u u' hu hrun
    rw [forRows] at hrun
    rcases hrow : CxxM.exec (addCSVRow ops columns missing n row) u with ⟨result, u₁⟩
    cases result with
    | error e =>
      rw [CxxM.exec_bind_error hrow] at hrun
      cases hrun
    | ok _ =>
      rw [CxxM.exec_bind_ok hrow] at hrun
      obtain ⟨hu₁, hone⟩ := acceptedRow h ht hu hrow
      obtain ⟨ih₁, ih₂⟩ := ih hu₁ hrun
      -- the state after the row is where the rows behind it start
      have hstep : EachRowAligned (addCSVRow ops columns missing) n (row :: rows) u ↔
          OneEntryEach u u₁ ∧ EachRowAligned (addCSVRow ops columns missing) (n + 1) rows u₁ := by
        rw [EachRowAligned, hrow]
      rw [hstep]
      refine ⟨?_, fun haligned => (ih₂ haligned.2).cons haligned.1⟩
      rw [List.forall_mem_cons, hone, ih₁]

/-- Every row of an accepted import leaves exactly one entry in every column exactly
when there are no rows, or the columns have distinct names and every row has one cell
for each name of the header. The columns and the row count have then grown by the
number of the rows. -/
theorem csvAligned_iff {mem : Uninit} {ops : CSVOps} {csv : CSVInputStream}
    {t t' : CSTableWriter} (ht : Reached mem t)
    (h : CxxM.exec (addRecordsFromCSV ops csv) t = (.ok (), t')) :
    (CSVAligned ops csv t ↔ csv.dataRows = [] ∨
      (t.columns.map ColumnConfig.column_name).Nodup ∧
        ∀ row ∈ csv.dataRows, RowFits csv.header row) ∧
      (CSVAligned ops csv t → FilledBy t t' csv.dataRows.length) := by
  rcases exists_header csv.readNextRow_eq h with ⟨columns, missing, hheader⟩ | ⟨⟨e, herror⟩, -⟩
  · rw [exec_rows ops hheader rfl] at h
    obtain ⟨haligned, hfilled⟩ := acceptedRows hheader ht.typed ⟨rfl, ht.ownSchema.length⟩ h
    have hany : CSVAligned ops csv t ↔
        EachRowAligned (addCSVRow ops columns missing) 0 csv.dataRows t := by
      constructor
      · intro hall
        exact hall columns missing hheader
      · intro hrows columns' missing' hheader'
        cases hheader.columns.symm.trans hheader'.columns
        cases hheader.missing.symm.trans hheader'.missing
        exact hrows
    refine ⟨hany.trans (haligned.trans ?_), fun hall => hfilled (hany.mp hall)⟩
    cases hrows : csv.dataRows with
    | nil =>
      refine iff_of_true (fun row hrow => ?_) (Or.inl rfl)
      cases hrow
    | cons row rows =>
      constructor
      · intro hall
        exact Or.inr ⟨(hall row List.mem_cons_self).1, fun row' hrow' => (hall row' hrow').2⟩
      · rintro (habs | ⟨hnames, hfits⟩) row' hrow'
        · cases habs
        · exact ⟨hnames, hfits row' hrow'⟩
  · cases herror

/-- Two columns `a` and `b`. The row `1;2` has a cell for each of them, so the import of it
is aligned and fills both columns by one entry; the row `1` stops before `b`, and its import,
which is accepted as well, is not aligned. -/
theorem csvAligned_one_row :
    let mem : Uninit := zeroUninit
    let order : HashOrder := ⟨id, fun _ => .refl _⟩
    let type : LeafType := ⟨.UNSIGNED_INT, by decide⟩
    let schema : TableSchema := [.leaf [0x61] type .UINT64_LEB128 false true,
      .leaf [0x62] type .UINT64_LEB128 false true]
    let ops : CSVOps := ⟨fun _ => .error .fault, fun _ _ _ => .ok none⟩
    -- a;b and 1;2
    let csv : CSVInputStream :=
      ⟨[0x61, 0x3b, 0x62, 0x0a, 0x31, 0x3b, 0x32, 0x0a], 0x3b, 0x0a, 0x22⟩
    -- a;b and 1
    let short : CSVInputStream := ⟨[0x61, 0x3b, 0x62, 0x0a, 0x31, 0x0a], 0x3b, 0x0a, 0x22⟩
    ∃ t t' u, CSTableWriter.createFile mem order .v0_1_0 schema = .ok t ∧
      CxxM.exec (addRecordsFromCSV ops csv) t = (.ok (), t') ∧
      CxxM.exec (addRecordsFromCSV ops short) t = (.ok (), u) ∧
      CSVAligned ops csv t ∧ FilledBy t t' 1 ∧ ¬ CSVAligned ops short t := by
  intro mem order type schema ops csv short
  let w := v1.ColumnWriter.new 0 1 (v1.ColumnWriter.newDataWriter .UINT64_LEB128 2)
  let t : CSTableWriter := ⟨.v0_1_0, schema, PageStore.new (PageManager.new .v0_1_0 [] 0),
    TableSchema.flatColumns mem schema, [⟨.v1 w, []⟩, ⟨.v1 w, []⟩], 0, 0, none, none⟩
  let columns : List CSVColumn := [⟨[0x61], 0, 1, 2⟩, ⟨[0x62], 1, 1, 2⟩]
  have hcreate : CSTableWriter.createFile mem order .v0_1_0 schema = .ok t := rfl
  have hreached : Reached mem t := .createFile hcreate
  -- the import of the row that has both cells
  have hheader : Header t csv.header columns [] := ⟨by decide +kernel, by decide +kernel⟩
  have hnext : csv.readNextRow.2.2.readNextRow =
      (true, [[0x31], [0x32]], ⟨[], 0x3b, 0x0a, 0x22⟩) := by decide +kernel
  have hrows : csv.dataRows = [[[0x31], [0x32]]] := CSVInputStream.dataRows_singleton hnext
  have hexec : CxxM.exec (addRecordsFromCSV ops csv) t =
      (.ok (), (CxxM.exec (addRecordsFromCSV ops csv) t).2) := by
    refine Prod.ext ?_ rfl
    rw [exec_rows ops hheader hrows]
    decide +kernel
  have haligned : CSVAligned ops csv t := by
    refine (csvAligned_iff hreached hexec).1.mpr (Or.inr ⟨by decide +kernel, ?_⟩)
    rw [hrows]
    intro row hrow
    obtain rfl := List.mem_singleton.mp hrow
    exact (by decide +kernel : ∀ name ∈ csv.header, (csv.header.take 2).count name = 1)
  have hfilled := (csvAligned_iff hreached hexec).2 haligned
  rw [hrows] at hfilled
  -- the import of the row that stops after the first cell
  have hheader' : Header t short.header columns [] := ⟨by decide +kernel, by decide +kernel⟩
  have hnext' : short.readNextRow.2.2.readNextRow =
      (true, [[0x31]], ⟨[], 0x3b, 0x0a, 0x22⟩) := by decide +kernel
  have hrows' : short.dataRows = [[[0x31]]] := CSVInputStream.dataRows_singleton hnext'
  have hexec' : CxxM.exec (addRecordsFromCSV ops short) t =
      (.ok (), (CxxM.exec (addRecordsFromCSV ops short) t).2) := by
    refine Prod.ext ?_ rfl
    rw [exec_rows ops hheader' hrows']
    decide +kernel
  refine ⟨t, _, _, hcreate, hexec, hexec', haligned, hfilled, fun hshort => ?_⟩
  have hiff := (csvAligned_iff hreached hexec').1.mp hshort
  rw [hrows'] at hiff
  rcases hiff with habs | ⟨-, hfits⟩
  · cases habs
  · have hb : (short.header.take 1).count [0x62] = 1 :=
      hfits _ List.mem_cons_self [0x62] (by decide +kernel)
    exact absurd hb (by decide +kernel)

/-- A row with a cell for the first of two columns only: the second column gets no
entry for it. -/
theorem not_csvAligned_short_row :
    let mem : Uninit := zeroUninit
    let order : HashOrder := ⟨id, fun _ => .refl _⟩
    let type : LeafType := ⟨.UNSIGNED_INT, by decide⟩
    let schema : TableSchema := [.leaf [0x61] type .UINT64_LEB128 false true,
      .leaf [0x62] type .UINT64_LEB128 false true]
    let ops : CSVOps := ⟨fun _ => .error .fault, fun _ _ _ => .ok none⟩
    -- a;b and 1
    let csv : CSVInputStream := ⟨[0x61, 0x3b, 0x62, 0x0a, 0x31, 0x0a], 0x3b, 0x0a, 0x22⟩
    ∃ t t', CSTableWriter.createFile mem order .v0_1_0 schema = .ok t ∧
      CxxM.exec (addRecordsFromCSV ops csv) t = (.ok (), t') ∧
      t'.num_rows = t.num_rows + 1 ∧ csv.dataRows.length = 1 ∧ ¬ CSVAligned ops csv t ∧
      t'.column_writers.map ColumnSlot.history = [[⟨0, 1, .unsignedInt 1⟩], []] := by
  intro mem order type schema ops csv
  let w := v1.ColumnWriter.new 0 1 (v1.ColumnWriter.newDataWriter .UINT64_LEB128 2)
  let t : CSTableWriter := ⟨.v0_1_0, schema, PageStore.new (PageManager.new .v0_1_0 [] 0),
    TableSchema.flatColumns mem schema, [⟨.v1 w, []⟩, ⟨.v1 w, []⟩], 0, 0, none, none⟩
  let columns : List CSVColumn := [⟨[0x61], 0, 1, 2⟩, ⟨[0x62], 1, 1, 2⟩]
  have hheader : Header t csv.header columns [] := ⟨by decide +kernel, by decide +kernel⟩
  have hnext : csv.readNextRow.2.2.readNextRow =
      (true, [[0x31]], ⟨[], 0x3b, 0x0a, 0x22⟩) := by decide +kernel
  have hrows : csv.dataRows = [[[0x31]]] := CSVInputStream.dataRows_singleton hnext
  have hexec := exec_rows ops hheader hrows
  have hhistory :
      (CxxM.exec (forRows (addCSVRow ops columns []) 0 [[[0x31]]]) t).2.column_writers.map
      ColumnSlot.history = [[⟨0, 1, .unsignedInt 1⟩], []] := by decide +kernel
  refine ⟨t, _, rfl, hexec.trans (Prod.ext (by decide +kernel) rfl), by decide +kernel, ?_,
    fun haligned => ?_, hhistory⟩
  · rw [hrows]
    rfl
  · have hone := haligned columns [] hheader
    rw [hrows] at hone
    -- the row would have left an entry in the second column
    obtain ⟨c, hc⟩ := hone.1.2.2 1 ⟨.v1 w, []⟩ ⟨.v1 w, []⟩ rfl (by decide +kernel)
    cases hc

/-! ### A rejected import -/

/-- The rows before the one that failed are in the table and counted, and the row that failed
stops at one of its steps. -/
theorem rejectedRows {t : CSTableWriter} {header : List Bytes} {columns : List CSVColumn}
    {missing : List Nat} (h : Header t header columns missing) {ops : CSVOps}
    {rows : List (List Bytes)} {e : Abort} :
    ∀ {n : Nat} {u u' : CSTableWriter}, u.columns = t.columns →
      CxxM.exec (forRows (addCSVRow ops columns missing) n rows) u = (.error e, u') →
        ∃ accepted row rest u₁ u₂ done failing later, rows = accepted ++ row :: rest ∧
          CxxM.exec (forRows (addCSVRow ops columns missing) n accepted) u = (.ok (), u₁) ∧
          u₁.num_rows = u.num_rows + UInt64.ofNat accepted.length ∧
          rowSteps ops columns (missingColumns t header) (n + accepted.length) row =
            done ++ failing :: later ∧
          StoppedAt u₁ u₂ u' e done failing := by
  induction rows with
  | nil =>
    intro n u u' _ hrun
    cases hrun
  | cons row rows ih =>
    intro n u u' hu hrun
    rw [forRows] at hrun
    have hrow := exec_addCSVRow h hu ops n row
    rcases hsteps : CxxM.exec (execSteps (rowSteps ops columns (missingColumns t header) n row)) u
      with ⟨result, u₁⟩
    rw [hsteps] at hrow
    cases result with
    | error e' =>
      -- this row is the one
      dsimp only at hrow
      rw [CxxM.exec_bind_error hrow] at hrun
      cases hrun
      obtain ⟨done, failing, later, u₂, heq, hstopped⟩ := execSteps_error hsteps
      exact ⟨[], row, rows, u, u₂, done, failing, later, rfl, rfl, (UInt64.add_zero _).symm, heq,
        hstopped⟩
    | ok _ =>
      dsimp only at hrow
      rw [CxxM.exec_bind_ok hrow] at hrun
      obtain ⟨-, hwrote⟩ := execSteps_ok hsteps
      have hcolumns : u₁.addRow.columns = t.columns := hwrote.columns.trans hu
      obtain ⟨accepted, row', rest, u₂, u₃, done, failing, later, rfl, hrun', hnum, heq,
        hstopped⟩ := ih hcolumns hrun
      refine ⟨row :: accepted, row', rest, u₂, u₃, done, failing, later, rfl, ?_, ?_, ?_, hstopped⟩
      · rw [forRows, CxxM.exec_bind_ok hrow]
        exact hrun'
      · rw [hnum, List.length_cons, Nat.add_comm accepted.length 1]
        show u₁.num_rows + 1 + _ = _
        rw [hwrote.num_rows, UInt64.add_assoc]
        exact congrArg (u.num_rows + ·) (UInt64.ofNat_add 1 accepted.length).symm
      · rw [← heq, List.length_cons]
        congr 1
        omega

/-- A rejected import: the rows before the rejected one are in the table and counted. The
rejected row is not counted, and its writes are carried out in their order, the cells before
the missing columns, up to one that raises; those before it stay in the columns. -/
theorem rejectedCSV {ops : CSVOps} {csv : CSVInputStream} {t t' : CSTableWriter} {e : Abort}
    {columns : List CSVColumn} {missing : List Nat} (hheader : Header t csv.header columns missing)
    (h : CxxM.exec (addRecordsFromCSV ops csv) t = (.error e, t')) :
    ∃ accepted row rest t₁ t₂ done failing, csv.dataRows = accepted ++ row :: rest ∧
      CxxM.exec (forRows (addCSVRow ops columns missing) 0 accepted) t = (.ok (), t₁) ∧
      t₁.num_rows = t.num_rows + UInt64.ofNat accepted.length ∧
      RowStops ops columns (missingColumns t csv.header) accepted.length row done failing ∧
      StoppedAt t₁ t₂ t' e done failing ∧ Wrote t₁ t' (callsAt t₁ done) := by
  rw [exec_rows ops hheader rfl] at h
  obtain ⟨accepted, row, rest, t₁, t₂, done, failing, later, hrows, hrun, hnum, heq, hstopped⟩ :=
    rejectedRows hheader rfl h
  rw [Nat.zero_add] at heq
  exact ⟨accepted, row, rest, t₁, t₂, done, failing, hrows, hrun, hnum, rowStops heq, hstopped,
    hstopped.wrote_all⟩

/-- A row whose second cell is no number: the first cell stays in its column, and the second
is the one that raises. -/
theorem rejectedCSV_second_cell :
    let mem : Uninit := zeroUninit
    let order : HashOrder := ⟨id, fun _ => .refl _⟩
    let type : LeafType := ⟨.UNSIGNED_INT, by decide⟩
    let schema : TableSchema := [.leaf [0x61] type .UINT64_LEB128 false true,
      .leaf [0x62] type .UINT64_LEB128 false true]
    let ops : CSVOps := ⟨fun _ => .error .fault, fun _ _ _ => .ok none⟩
    let columns : List CSVColumn := [⟨[0x61], 0, 1, 2⟩, ⟨[0x62], 1, 1, 2⟩]
    let noNumber : Abort := .raised ⟨.kTypeError, "can't convert '$0' to UINT64", [[0x78]]⟩
    -- a;b and 1;x
    let csv : CSVInputStream :=
      ⟨[0x61, 0x3b, 0x62, 0x0a, 0x31, 0x3b, 0x78, 0x0a], 0x3b, 0x0a, 0x22⟩
    ∃ t t₂ t', CSTableWriter.createFile mem order .v0_1_0 schema = .ok t ∧
      CxxM.exec (addRecordsFromCSV ops csv) t = (.error noNumber, t') ∧
      csv.dataRows = [] ++ [[0x31], [0x78]] :: [] ∧
      RowStops ops columns [] 0 [[0x31], [0x78]] [.write [0x61] 0 1 (.ok (.unsignedInt 1))]
        (.write [0x62] 0 1 (.error noNumber)) ∧
      StoppedAt t t₂ t' noNumber [.write [0x61] 0 1 (.ok (.unsignedInt 1))]
        (.write [0x62] 0 1 (.error noNumber)) ∧
      t'.num_rows = t.num_rows := by
  intro mem order type schema ops columns noNumber csv
  obtain ⟨t, ht⟩ : ∃ t, CSTableWriter.createFile mem order .v0_1_0 schema = .ok t := ⟨_, rfl⟩
  have hheader : Header t csv.header columns [] := by
    cases ht
    exact ⟨by decide +kernel, by decide +kernel⟩
  have hmissing : missingColumns t csv.header = [] := by
    cases ht
    decide +kernel
  have hnext : csv.readNextRow.2.2.readNextRow =
      (true, [[0x31], [0x78]], ⟨[], 0x3b, 0x0a, 0x22⟩) := by decide +kernel
  have hrows : csv.dataRows = [[[0x31], [0x78]]] := CSVInputStream.dataRows_singleton hnext
  have hexec : CxxM.exec (addRecordsFromCSV ops csv) t =
      (.error noNumber, (CxxM.exec (addRecordsFromCSV ops csv) t).2) := by
    rw [exec_rows ops hheader hrows]
    cases ht
    exact Prod.ext (by decide +kernel) rfl
  obtain ⟨accepted, row, rest, t₁, t₂, done, failing, hsplit, hrun, -, hstops, hstopped, hwrote⟩ :=
    rejectedCSV hheader hexec
  rw [hmissing] at hstops
  rw [hrows] at hsplit
  -- the one row of the stream is the rejected one
  cases accepted with
  | cons a accepted =>
    have hlength := congrArg List.length hsplit
    simp only [List.length_append, List.length_cons, List.length_nil] at hlength
    omega
  | nil =>
    obtain ⟨rfl, rfl⟩ := List.cons.inj hsplit
    cases hrun
    cases hstops with
    | missing before name after hempty => exact absurd hempty (by simp)
    | cell i col val hcol hval hfailing hdone =>
      -- the first cell does not raise, and there is no third
      have hi : i < 2 := (List.getElem?_eq_some_iff.mp hcol).1
      obtain rfl | rfl : i = 0 ∨ i = 1 := by omega
      · cases hcol
        cases hval
        have hfirst : failing = .write [0x61] 0 1 (.ok (.unsignedInt 1)) :=
          (List.cons.inj hfailing).1.symm
        subst hfirst
        cases hdone
        cases hstopped.ran
        cases ht
        exact absurd (congrArg Prod.fst hstopped.raised) (by decide +kernel)
      · cases hcol
        cases hval
        obtain rfl : failing = .write [0x62] 0 1 (.error noNumber) :=
          (List.cons.inj hfailing).1.symm
        cases hdone
        exact ⟨t, t₂, _, ht, hexec, hrows, .cell 1 _ _ rfl rfl hfailing rfl, hstopped,
          hwrote.num_rows⟩

/-- The entry of the first cell of a rejected row stays in its column, so that a rejected row
can leave a trace. -/
theorem not_rejectedCSV_clean :
    ¬ ∀ (mem : Uninit) (order : HashOrder) (version : BinaryFormatVersion) (schema : TableSchema)
      (ops : CSVOps) (csv : CSVInputStream) (t t' : CSTableWriter) (e : Exn),
      CSTableWriter.createFile mem order version schema = .ok t →
      (∀ row ∈ csv.dataRows, row.length = csv.header.length) → csv.dataRows.length = 1 →
      CxxM.exec (addRecordsFromCSV ops csv) t = (.error (.raised e), t') →
        t'.column_writers.map ColumnSlot.history = t.column_writers.map ColumnSlot.history := by
  intro h
  let mem : Uninit := zeroUninit
  let order : HashOrder := ⟨id, fun _ => .refl _⟩
  let type : LeafType := ⟨.UNSIGNED_INT, by decide⟩
  let schema : TableSchema := [.leaf [0x61] type .UINT64_LEB128 false true,
    .leaf [0x62] type .UINT64_LEB128 false true]
  let ops : CSVOps := ⟨fun _ => .error .fault, fun _ _ _ => .ok none⟩
  let csv : CSVInputStream :=
    ⟨[0x61, 0x3b, 0x62, 0x0a, 0x31, 0x3b, 0x78, 0x0a], 0x3b, 0x0a, 0x22⟩
  let w := v1.ColumnWriter.new 0 1 (v1.ColumnWriter.newDataWriter .UINT64_LEB128 2)
  let t : CSTableWriter := ⟨.v0_1_0, schema, PageStore.new (PageManager.new .v0_1_0 [] 0),
    TableSchema.flatColumns mem schema, [⟨.v1 w, []⟩, ⟨.v1 w, []⟩], 0, 0, none, none⟩
  let columns : List CSVColumn := [⟨[0x61], 0, 1, 2⟩, ⟨[0x62], 1, 1, 2⟩]
  have hheader : Header t csv.header columns [] := ⟨by decide +kernel, by decide +kernel⟩
  have hnext : csv.readNextRow.2.2.readNextRow =
      (true, [[0x31], [0x78]], ⟨[], 0x3b, 0x0a, 0x22⟩) := by decide +kernel
  have hrows : csv.dataRows = [[[0x31], [0x78]]] := CSVInputStream.dataRows_singleton hnext
  have hexec := exec_rows ops hheader hrows
  have hkept := h mem order .v0_1_0 schema ops csv t _
    ⟨.kTypeError, "can't convert '$0' to UINT64", [[0x78]]⟩ rfl
    (by rw [hrows]; decide +kernel) (by rw [hrows]; rfl)
    (hexec.trans (Prod.ext (by decide +kernel) rfl))
  exact absurd hkept (by decide +kernel)

end RecordShredder

end CStable
