import CStable.Proofs.CsvCells

/-!
# `CStable.Proofs.CsvStored`: the cells of an import, read back after the commit

`csvStored_iff`: the import makes the writes its stream stands for, and the reader of
the committed table returns them, exactly when no cell that is not null lies in a boolean
column or is a text too long for its length field.

That these cells are enough is `recorded_forRows`. That they are needed is read off the
accepted rows: a cell of a boolean column that is not null is no number, so its row would
have been rejected, and a longer text is never read back, since its length is stored in
32 bits.
-/

set_option autoImplicit false

namespace CStable

open Support

/-! ### The length of a text -/

namespace v1

/-- The length of a text is stored in 32 bits, so a longer one is never read. -/
theorem DataReader.length_of_string {mem : Mapping} {r r' : DataReader} {s : Bytes}
    (h : r.next mem = .ok (.string s, r')) : s.length < 2 ^ 32 := by
  cases r with
  | string r =>
    obtain ⟨data, r₂, hbind, hdata, -⟩ := wrap_ok.mp ((next_string mem r).symm.trans h)
    cases hdata
    obtain ⟨⟨n, r₁⟩, hlen, hread⟩ := Result.bind_eq_ok.mp hbind
    obtain ⟨⟨bytes, r₃⟩, hbytes, hret⟩ := Result.bind_eq_ok.mp hlen
    cases hret
    unfold BinaryMessageReader.read at hbytes hread
    split at hbytes
    · cases hbytes
    · split at hread
      · cases hread
      · obtain ⟨loaded, hload, hret⟩ := Result.bind_eq_ok.mp hbytes
        cases hret
        obtain ⟨loaded, hload', hret⟩ := Result.bind_eq_ok.mp hread
        cases hret
        have hlt := leNat_lt bytes
        rw [load_length hload] at hlt
        rw [load_length hload']
        exact hlt
  -- no other class stores texts
  | _ => cases (next_spec h).2.2

/-- A text that was read is shorter than 2^32 bytes: the reader has taken its length from a
uint32. -/
theorem ColumnReader.readNext_string {mem : Mapping} {r r' : ColumnReader} {e : Entry} {s : Bytes}
    (h : r.readNext mem = .ok (e, r')) (hs : e.value = some (.string s)) : s.length < 2 ^ 32 := by
  unfold readNext at h
  obtain ⟨⟨rlvl, rr⟩, -, h⟩ := Result.bind_eq_ok.mp h
  obtain ⟨⟨dlvl, dr⟩, -, h⟩ := Result.bind_eq_ok.mp h
  dsimp only at h
  split_ifs at h
  · obtain ⟨⟨v, data_reader⟩, hnext, hret⟩ := Result.bind_eq_ok.mp h
    cases hret
    cases hs
    exact DataReader.length_of_string hnext
  · cases h
    cases hs

/-- So each text of a column that reads back is shorter than 2^32 bytes. By induction on the
entries. -/
theorem ColumnReader.ReadsExactly.length_string {mem : Mapping} {entries : List Entry} :
    ∀ {r : ColumnReader}, r.ReadsExactly mem entries →
      ∀ e ∈ entries, ∀ s, e.value = some (.string s) → s.length < 2 ^ 32 := by
  induction entries with
  | nil =>
    intro r _ e he
    cases he
  | cons e entries ih =>
    intro r hreads e' he' s hs
    obtain ⟨-, r', hread, hrest⟩ := hreads
    rcases List.mem_cons.mp he' with rfl | he'
    · exact readNext_string hread hs
    · exact ih hrest e' he' s hs

end v1
namespace RecordShredder

open CSTableWriter (TableOp columnEntry entriesOf rowsAdded ValidOps LevelsFit Recorded)

/-! ### What the reader returns -/

/-- The reader of the file of a committed table returns in every column first what
the operations before the import wrote, then what the stream stands for. -/
structure CSVReadBack (mem : Uninit) (columns : List ColumnConfig) (before declared : List TableOp)
    (t' : CSTableWriter) (reader : CSTableReader) : Prop where
  opened : CSTableReader.openFile mem (contents t'.file) = .ok reader
  num_rows : reader.numRecords = rowsAdded (before ++ declared)
  columns : (reader.columns.map ColumnConfig.shape).Perm (columns.map ColumnConfig.shape)
  entries : List.Forall₂ (fun col r => ∃ cr, r = ColumnReader.v1 cr ∧
    cr.ReadsExactly reader.mmap (entriesOf col before ++ declared.filterMap (readEntry col)))
    reader.columns reader.column_readers

/-! ### What an accepted import says of its cells -/

/-- A cell of the import: its steps, the call it stands for and the declared write. -/
structure CellOf (ops : CSVOps) (columns : List ColumnConfig) (steps : List Step)
    (declared : List TableOp) (name val : Bytes) (n i : Nat) (col : CSVColumn) (cfg : ColumnConfig)
    (type : LeafType) (c : WriteCall) : Prop where
  found : Found columns name col cfg type
  steps : ∀ s ∈ cellSteps ops n i col val, s ∈ steps
  call : declaredCall ops columns n i name val = some c
  declared : .write name c ∈ declared

/-- Every call that a row declares comes from one of its cells, the cell below the header name
of the call's column. -/
theorem exists_cellOf {columns : List ColumnConfig} {ops : CSVOps} {n : Nat} {header : List Bytes}
    {opened : List CSVColumn}
    (hfound : List.Forall₂ (fun name col => ∃ cfg type, Found columns name col cfg type)
      header opened) :
    ∀ {i : Nat} {row : List Bytes} {writes : List TableOp},
      declaredCells ops columns n i header row = some writes →
      ∀ cell ∈ header.zip row, ∃ i' col cfg type c,
        CellOf ops columns (cellsSteps ops n i opened row) writes cell.1 cell.2 n i' col cfg type
          c := by
  induction hfound with
  | nil =>
    intro i row writes _ cell hcell
    cases hcell
  | @cons name col header opened hcol _ ih =>
    intro i row writes h cell hcell
    cases row with
    | nil => cases hcell
    | cons val row =>
      obtain ⟨cfg, type, hcol⟩ := hcol
      rw [declaredCells] at h
      obtain ⟨c, hc, h⟩ := Option.bind_eq_some_iff.mp h
      obtain ⟨rest, hrest, hret⟩ := Option.bind_eq_some_iff.mp h
      cases hret
      rw [cellsSteps]
      -- the cell in front is the one of this column
      rcases List.mem_cons.mp hcell with rfl | hcell
      · exact ⟨i, col, cfg, type, c, hcol, fun s hs => List.mem_append_left _ hs, hc,
          List.mem_cons_self⟩
      · obtain ⟨i', col', cfg', type', c', hcellOf⟩ := ih hrest cell hcell
        exact ⟨i', col', cfg', type', c', hcellOf.found,
          fun s hs => List.mem_append_right _ (hcellOf.steps s hs), hcellOf.call,
          List.mem_cons_of_mem _ hcellOf.declared⟩

/-- In an accepted import the steps of every cell are writes. -/
theorem exists_acceptedCell {t : CSTableWriter} (ht : Fillable t) {header : List Bytes}
    {columns : List CSVColumn} {missing : List Nat} (hheader : Header t header columns missing)
    {ops : CSVOps} {rows : List (List Bytes)} :
    ∀ {n : Nat} {declared : List TableOp} {u u' : CSTableWriter}, u.columns = t.columns →
      CxxM.exec (forRows (addCSVRow ops columns missing) n rows) u = (.ok (), u') →
      declaredRows ops t header n rows = some declared →
      ∀ row ∈ rows, ∀ cell ∈ header.zip row, ∃ steps n' i col cfg type c,
        CellOf ops t.columns steps declared cell.1 cell.2 n' i col cfg type c ∧
          ∀ s ∈ steps, s.IsWrite := by
  induction rows with
  | nil =>
    intro n declared u u' _ _ _ row hrow
    cases hrow
  | cons row rows ih =>
    intro n declared u u' hu hrun h row' hrow' cell hcell
    rw [declaredRows] at h
    obtain ⟨first, hfirst, h⟩ := Option.bind_eq_some_iff.mp h
    obtain ⟨rest, hrest, hret⟩ := Option.bind_eq_some_iff.mp h
    cases hret
    obtain ⟨cells, hcells, hret⟩ := Option.bind_eq_some_iff.mp hfirst
    cases hret
    have hexec := exec_addCSVRow hheader hu ops n row
    rcases hsteps : CxxM.exec (execSteps (rowSteps ops columns (missingColumns t header) n row)) u
      with ⟨result, u₁⟩
    rw [hsteps] at hexec
    cases result with
    | error e =>
      dsimp only at hexec
      rw [forRows, CxxM.exec_bind_error hexec] at hrun
      cases hrun
    | ok _ =>
      dsimp only at hexec
      rw [forRows, CxxM.exec_bind_ok hexec] at hrun
      obtain ⟨hwrites, hwrote⟩ := execSteps_ok hsteps
      have hcolumns : u₁.addRow.columns = t.columns := hwrote.columns.trans hu
      -- the cell is of this row, whose steps all ran, or of a later one
      rcases List.mem_cons.mp hrow' with rfl | hrow'
      · obtain ⟨i, col, cfg, type, c, hcellOf⟩ := exists_cellOf
          (hheader.opens.imp fun name col hopens => ht.found hopens) hcells cell hcell
        refine ⟨_, n, i, col, cfg, type, c, ⟨hcellOf.found, hcellOf.steps, hcellOf.call, ?_⟩,
          fun s hs => ?_⟩
        · exact List.mem_append_left _ (List.mem_append_left _
            (List.mem_append_left _ hcellOf.declared))
        · obtain ⟨column, r, d, arg, -, heq, -⟩ := hwrites s (List.mem_append_left _ hs)
          exact ⟨column, r, d, arg, heq⟩
      · obtain ⟨steps, n', i, col, cfg, type, c, hcellOf, hall⟩ :=
          ih hcolumns hrun hrest row' hrow' cell hcell
        exact ⟨steps, n', i, col, cfg, type, c, ⟨hcellOf.found, hcellOf.steps, hcellOf.call,
          List.mem_append_right _ hcellOf.declared⟩, hall⟩

/-- The entries of a column depend on its shape only. -/
theorem entriesOf_shape {col cfg : ColumnConfig} (h : cfg.shape = col.shape) :
    entriesOf col = entriesOf cfg := by
  have hwritten : CSTableWriter.writtenEntry col = CSTableWriter.writtenEntry cfg := by
    obtain ⟨hname, hstorage, hr, hd⟩ := ColumnShape.mk.inj h
    funext op
    cases op with
    | write name c =>
      show (if name = col.column_name then columnEntry col c else none) =
        if name = cfg.column_name then columnEntry cfg c else none
      unfold columnEntry
      rw [hname, hstorage, hr, hd]
    | addRow => rfl
    | addRows num_rows => rfl
  funext ops
  unfold entriesOf
  rw [hwritten]

/-- What a reader makes of an entry depends on the class and the maxima of the column, which is
all its shape. -/
theorem readEntry_shape {col cfg : ColumnConfig} (h : cfg.shape = col.shape) :
    readEntry col = readEntry cfg := by
  obtain ⟨hname, -⟩ := ColumnShape.mk.inj h
  funext op
  unfold readEntry
  rw [hname]

/-- A column is read back by its name: the reader has one of the same shape. -/
theorem CSVReadBack.exists_column {mem : Uninit} {columns : List ColumnConfig}
    {before declared : List TableOp} {t' : CSTableWriter} {reader : CSTableReader}
    (h : CSVReadBack mem columns before declared t' reader) {cfg : ColumnConfig}
    (hcfg : cfg ∈ columns) :
    ∃ (col : ColumnConfig) (cr : v1.ColumnReader), col.column_name = cfg.column_name ∧
      cr.ReadsExactly reader.mmap
        (entriesOf col before ++ declared.filterMap (readEntry col)) := by
  have hshape : cfg.shape ∈ reader.columns.map ColumnConfig.shape :=
    h.columns.symm.subset (List.mem_map_of_mem hcfg)
  obtain ⟨col, hcol, heq⟩ := List.mem_map.mp hshape
  obtain ⟨r, -, cr, -, hreads⟩ := exists_of_mem_left h.entries hcol
  exact ⟨col, cr, congrArg ColumnShape.column_name heq, hreads⟩

/-- A cell that was accepted and whose declared write was read back is storable. -/
theorem CellOf.storable {mem : Uninit} {ops : CSVOps} {columns : List ColumnConfig}
    {steps : List Step} {declared before written : List TableOp} {name val : Bytes} {n i : Nat}
    {col : CSVColumn} {cfg : ColumnConfig} {type : LeafType} {c : WriteCall}
    (h : CellOf ops columns steps declared name val n i col cfg type c)
    (hwrites : ∀ s ∈ steps, s.IsWrite)
    (hnames : (columns.map ColumnConfig.column_name).Nodup) (hwritten : declared ⊆ written)
    {t' : CSTableWriter} {reader : CSTableReader}
    (hread : CSVReadBack mem columns before written t' reader) : Storable columns name val := by
  cases hnull : Human.isNullOrEmpty val with
  | true => exact Or.inl hnull
  | false =>
    right
    intro cfg' hmem hname
    obtain rfl := List.inj_on_of_nodup_map hnames hmem h.found.mem
      (hname.trans h.found.column_name.symm)
    have hcall := h.call
    unfold declaredCall at hcall
    rw [h.found.find, Option.bind_some, hnull, if_neg Bool.false_ne_true,
      h.found.declares.logical_type, ColumnType.ofCode?_code, Option.bind_some] at hcall
    obtain ⟨arg, harg, rfl⟩ := Option.map_eq_some_iff.mp hcall
    rw [h.found.declares.logical_type]
    refine ⟨fun hcode => ?_, fun hcode => ?_⟩
    · -- the import took the text for a number
      have hbool : type.val = .BOOLEAN := ColumnType.code_injective hcode
      obtain ⟨htype, -⟩ := Prod.mk.inj h.found.answers
      have hstep : cellSteps ops n i col val =
          [.write col.name 0 col.maxDefinitionLevel (csvArg ops n i val .UNSIGNED_INT)] := by
        unfold cellSteps
        rw [hnull, if_neg Bool.false_ne_true, htype, ColumnType.ofCode?_code, hbool]
        rfl
      obtain ⟨_, _, _, arg₀, heq⟩ := hwrites _ (h.steps _ (hstep ▸ List.mem_cons_self))
      have harg₀ : csvArg ops n i val .UNSIGNED_INT = .ok arg₀ := (Step.write.inj heq).2.2.2
      rw [hbool] at harg
      obtain ⟨b, hb, -⟩ := Option.map_eq_some_iff.mp harg
      have hparsed : (Human.parseBoolean val).isSome := Option.isSome_of_eq_some hb
      unfold csvArg at harg₀
      cases hnumber : stoull val with
      | ok v => exact absurd hnumber (stoull_boolean hparsed v)
      | error e =>
        rw [hnumber] at harg₀
        cases e <;> cases harg₀
    · -- the length of the text was read back
      have hstring : type.val = .STRING := ColumnType.code_injective hcode
      rw [hstring] at harg
      cases harg
      obtain ⟨col', cr, hcolumn, hreads⟩ := hread.exists_column hmem
      refine hreads.length_string ⟨0, cfg'.dlevel_max, some (.string val)⟩
        (List.mem_append_right _ (List.mem_filterMap.mpr ⟨_, hwritten h.declared, ?_⟩)) val rfl
      exact if_pos (hname.symm.trans hcolumn.symm)

/-! ### Tables with default encodings -/

/-- A created table has no rows, and its columns have recorded nothing. -/
theorem createFile_recorded {mem : Uninit} {order : HashOrder} {schema : TableSchema}
    {t : CSTableWriter} (h : CSTableWriter.createFile mem order .v0_1_0 schema = .ok t)
    (hlevels : LevelsFit t.columns) : t.num_rows = 0 ∧ t.Recorded fun _ => [] := by
  rw [(CSTableWriter.createFile_ownSchema h).columns] at hlevels
  obtain ⟨⟨file, header_size⟩, hinit, hnew⟩ := Result.bind_eq_ok.mp h
  cases hinit
  have hschema : t.schema = TableSchema.copy order schema := by
    obtain ⟨_, -, hret⟩ := Result.bind_eq_ok.mp hnew
    cases hret
    rfl
  rw [hschema] at hlevels
  exact (CSTableWriter.new_v1_spec hnew hlevels.rlevel_max hlevels.dlevel_max).2

/-- A table of columns with their default encodings can be filled, also after other
operations. -/
theorem createFile_fillable {mem : Uninit} {order : HashOrder} {schema : TableSchema}
    {t : CSTableWriter} (h : CSTableWriter.createFile mem order .v0_1_0 schema = .ok t)
    (hdeclares : ∀ c ∈ t.columns, ∃ type, Declares c type) (hlevels : LevelsFit t.columns)
    (hnames : (t.columns.map ColumnConfig.column_name).Nodup) (before : List TableOp)
    (hcols : (t.after before).columns = t.columns) : Fillable (t.after before) := by
  have hanswers : ∀ (ops : List TableOp) (u : CSTableWriter),
      u.column_writers.map ColumnSlot.answers = t.column_writers.map ColumnSlot.answers →
        (u.after ops).column_writers.map ColumnSlot.answers =
          t.column_writers.map ColumnSlot.answers := by
    intro ops
    induction ops with
    | nil => exact fun u hu => hu
    | cons op ops ih =>
      intro u hu
      exact ih _ ((CSTableWriter.keptByWrites_answers _).apply op u hu)
  have hnew := createFile_answers h
  refine ⟨hcols ▸ hnames, hcols ▸ hlevels.rlevel_max, hcols ▸ hlevels.dlevel_max,
    hcols ▸ hdeclares, ?_⟩
  rw [hcols]
  -- the answers of the slots are those of the new ones
  have hmap : List.Forall₂ (fun col answer => ∀ type, Declares col type →
      answer = ((reportedType type.val).code, col.dlevel_max)) t.columns
      ((t.after before).column_writers.map ColumnSlot.answers) := by
    rw [hanswers before t rfl]
    exact List.forall₂_map_right_iff.mpr hnew
  exact List.forall₂_map_right_iff.mp hmap

/-- The import of a stream whose cells the parsers of the declared types accept: the
cells are stored as declared, and the reader of the committed table returns them so,
exactly when no cell that is not null lies in a boolean column or is a text whose
length does not fit its field. -/
theorem csvStored_iff {mem mem₁ : Uninit} (mem₂ : Uninit) {order : HashOrder} {schema : TableSchema}
    {t : CSTableWriter} {before declared : List TableOp} {ops : CSVOps} {csv : CSVInputStream}
    {columns : List CSVColumn} {missing : List Nat}
    (hcreate : CSTableWriter.createFile mem order .v0_1_0 schema = .ok t)
    (hdeclares : ∀ c ∈ t.columns, ∃ type, Declares c type) (hlevels : LevelsFit t.columns)
    (hnames : (t.columns.map ColumnConfig.column_name).Nodup)
    (hbefore : ValidOps t.columns before)
    (hheader : Header (t.after before) csv.header columns missing)
    (hdeclared : declaredRows ops (t.after before) csv.header 0 csv.dataRows = some declared)
    (hcommit : ∀ t₁, CxxM.exec (addRecordsFromCSV ops csv) (t.after before) = (.ok (), t₁) →
      ∃ t', t₁.commit mem₁ = .ok t') :
    (∃ t₁ t' reader, CxxM.exec (addRecordsFromCSV ops csv) (t.after before) = (.ok (), t₁) ∧
      t₁.commit mem₁ = .ok t' ∧ CSVReadBack mem₂ t.columns before declared t' reader) ↔
    ∀ row ∈ csv.dataRows, ∀ cell ∈ csv.header.zip row, Storable t.columns cell.1 cell.2 := by
  obtain ⟨hzero, hnew⟩ := createFile_recorded hcreate hlevels
  obtain ⟨hcols, hrows, hrec⟩ := hnew.after hnames hlevels.rlevel_max hlevels.dlevel_max hbefore
  have hfill := createFile_fillable hcreate hdeclares hlevels hnames before hcols
  have hexec := exec_rows ops hheader rfl
  rw [hexec] at hcommit
  rw [hexec]
  constructor
  · rintro ⟨t₁, t', reader, hrun, -, hread⟩ row hrow cell hcell
    obtain ⟨steps, n, i, col, cfg, type, c, hcellOf, hwrites⟩ :=
      exists_acceptedCell hfill hheader rfl hrun hdeclared row hrow cell hcell
    rw [hcols] at hcellOf
    exact hcellOf.storable hwrites hnames (List.Subset.refl _) hread
  · intro hstorable
    obtain ⟨t₁, hrun, hcols₁, hrows₁, hrec₁, hentries⟩ := recorded_forRows hfill hheader rfl hrec
      hdeclared (hcols.symm ▸ hstorable)
    obtain ⟨t', hcommitted⟩ := hcommit t₁ hrun
    rw [hcols] at hcols₁ hentries
    have hboth : (fun col => ([] ++ entriesOf col before) ++ entriesOf col declared) =
        fun col => entriesOf col (before ++ declared) :=
      funext fun col => (entriesOf_append col before declared).symm
    rw [hboth] at hrec₁
    have hnum : t₁.num_rows = rowsAdded (before ++ declared) := by
      rw [hrows₁, hrows, hzero, UInt64.zero_add, rowsAdded_append]
    obtain ⟨reader, hread⟩ := CSTableWriter.readBack_recorded mem₂ hrec₁ hnum
      (hcols₁.symm ▸ hlevels) hcommitted
    rw [hcols₁] at hread
    refine ⟨t₁, t', reader, hrun, hcommitted, hread.opened, hread.num_rows, hread.columns, ?_⟩
    -- a column of the reader has the shape of one of the table, and so its entries
    refine ((List.forall₂_and_left (p := (· ∈ reader.columns)) _ _).mpr
      ⟨fun col hcol => hcol, hread.entries⟩).imp ?_
    rintro col r ⟨hcol, cr, rfl, hreads⟩
    have hshape : col.shape ∈ t.columns.map ColumnConfig.shape :=
      hread.columns.subset (List.mem_map_of_mem hcol)
    obtain ⟨cfg, hcfg, heq⟩ := List.mem_map.mp hshape
    refine ⟨cr, rfl, ?_⟩
    have hdeclaredEntries : entriesOf col declared = declared.filterMap (readEntry col) := by
      rw [entriesOf_shape heq, hentries cfg hcfg, readEntry_shape heq]
    rw [entriesOf_append, hdeclaredEntries] at hreads
    exact hreads

/-- The columns of a number, a text that may be null and a boolean that may be null. -/
def threeColumns : TableSchema :=
  [.leaf [0x61] ⟨.UNSIGNED_INT, ColumnType.noConfusion⟩ .UINT64_LEB128 false false,
    .leaf [0x62] ⟨.STRING, ColumnType.noConfusion⟩ .STRING_PLAIN false true,
    .leaf [0x63] ⟨.BOOLEAN, ColumnType.noConfusion⟩ .BOOLEAN_BITPACKED false true]

/-- The table that is created for the three columns. -/
def threeColumnTable : CSTableWriter :=
  let w₁ := v1.ColumnWriter.new 0 0 (v1.ColumnWriter.newDataWriter .UINT64_LEB128 2)
  let w₂ := v1.ColumnWriter.new 0 1 (v1.ColumnWriter.newDataWriter .STRING_PLAIN 4)
  let w₃ := v1.ColumnWriter.new 0 1 (v1.ColumnWriter.newDataWriter .BOOLEAN_BITPACKED 1)
  ⟨.v0_1_0, threeColumns, PageStore.new (PageManager.new .v0_1_0 [] 0),
    TableSchema.flatColumns zeroUninit threeColumns, [⟨.v1 w₁, []⟩, ⟨.v1 w₂, []⟩, ⟨.v1 w₃, []⟩],
    0, 0, none, none⟩

/-- Its columns with their codes and maxima. -/
theorem threeColumnTable_columns : threeColumnTable.columns =
    [⟨0, [0x61], 13, 2, 0, 0, 0, 0⟩, ⟨0, [0x62], 100, 4, 0, 1, 0, 0⟩,
      ⟨0, [0x63], 1, 1, 0, 1, 0, 0⟩] := rfl

/-- Every column has the encoding that the declared type calls for. -/
theorem threeColumnTable_declares : ∀ c ∈ threeColumnTable.columns, ∃ type, Declares c type := by
  rw [threeColumnTable_columns]
  intro c hc
  rcases List.mem_cons.mp hc with rfl | hc
  · exact ⟨⟨.UNSIGNED_INT, by decide⟩, rfl, rfl⟩
  · rcases List.mem_pair.mp hc with rfl | rfl
    · exact ⟨⟨.STRING, by decide⟩, rfl, rfl⟩
    · exact ⟨⟨.BOOLEAN, by decide⟩, rfl, rfl⟩

/-- A number, a text and a null are storable in the three columns. -/
theorem threeColumnTable_storable : ∀ cell ∈ ([([0x61], [0x31]), ([0x62], [0x78]), ([0x63], [])] :
    List (Bytes × Bytes)), Storable threeColumnTable.columns cell.1 cell.2 := by
  intro cell hcell
  rcases List.mem_cons.mp hcell with rfl | hcell
  · exact Or.inr (by rw [threeColumnTable_columns]; decide +kernel)
  · rcases List.mem_pair.mp hcell with rfl | rfl
    · exact Or.inr (by rw [threeColumnTable_columns]; decide +kernel)
    · exact Or.inl rfl

/-- A number, a text and an empty cell for a boolean: every cell is storable, and the table
that is committed reads back as it was declared. With a text for the boolean the row is
declared as well, and no import of it is read back. -/
theorem csvStored_one_row :
    let mem : Uninit := zeroUninit
    let order : HashOrder := ⟨id, fun _ => .refl _⟩
    let schema : TableSchema :=
      [.leaf [0x61] ⟨.UNSIGNED_INT, by decide⟩ .UINT64_LEB128 false false,
        .leaf [0x62] ⟨.STRING, by decide⟩ .STRING_PLAIN false true,
        .leaf [0x63] ⟨.BOOLEAN, by decide⟩ .BOOLEAN_BITPACKED false true]
    let ops : CSVOps := ⟨fun _ => .error .fault, fun _ _ _ => .ok none⟩
    let text := chars ['t', 'r', 'u', 'e']
    -- a;b;c and 1;x; with and without a text for c
    let line := [0x61, 0x3b, 0x62, 0x3b, 0x63, 0x0a, 0x31, 0x3b, 0x78, 0x3b]
    let csv : CSVInputStream := ⟨line ++ [0x0a], 0x3b, 0x0a, 0x22⟩
    let flagged : CSVInputStream := ⟨line ++ text ++ [0x0a], 0x3b, 0x0a, 0x22⟩
    let written : List TableOp :=
      [.write [0x61] ⟨0, 0, .unsignedInt 1⟩, .write [0x62] ⟨0, 1, .string [0x78]⟩]
    let declared := written ++ [.write [0x63] ⟨0, 0, .null⟩, .addRow]
    let declared' := written ++ [.write [0x63] ⟨0, 1, .boolean true⟩, .addRow]
    ∃ t, CSTableWriter.createFile mem order .v0_1_0 schema = .ok t ∧
      declaredRows ops t csv.header 0 csv.dataRows = some declared ∧
      declaredRows ops t flagged.header 0 flagged.dataRows = some declared' ∧
      (∃ t₁ t' reader, CxxM.exec (addRecordsFromCSV ops csv) t = (.ok (), t₁) ∧
        t₁.commit mem = .ok t' ∧ CSVReadBack mem t.columns [] declared t' reader) ∧
      ¬∃ t₁ t' reader, CxxM.exec (addRecordsFromCSV ops flagged) t = (.ok (), t₁) ∧
        t₁.commit mem = .ok t' ∧ CSVReadBack mem t.columns [] declared' t' reader := by
  intro mem order schema ops text line csv flagged written declared declared'
  let t : CSTableWriter := threeColumnTable
  let columns : List CSVColumn := [⟨[0x61], 0, 0, 2⟩, ⟨[0x62], 1, 1, 4⟩, ⟨[0x63], 2, 1, 2⟩]
  have hcreate : CSTableWriter.createFile mem order .v0_1_0 schema = .ok t := rfl
  have hlevels : LevelsFit t.columns := ⟨by decide, by decide⟩
  have hnames : (t.columns.map ColumnConfig.column_name).Nodup := by decide +kernel
  have hbefore : ValidOps t.columns [] := fun name c hmem => by cases hmem
  -- the row whose boolean is empty
  have hheader : Header t csv.header columns [] := ⟨by decide +kernel, by decide +kernel⟩
  have hnext : csv.readNextRow.2.2.readNextRow =
      (true, [[0x31], [0x78], []], ⟨[], 0x3b, 0x0a, 0x22⟩) := by decide +kernel
  have hrows : csv.dataRows = [[[0x31], [0x78], []]] := CSVInputStream.dataRows_singleton hnext
  have hdeclared : declaredRows ops t csv.header 0 csv.dataRows = some declared := by
    rw [hrows]
    decide +kernel
  have hcommit : ∀ t₁, CxxM.exec (addRecordsFromCSV ops csv) t = (.ok (), t₁) →
      ∃ t', t₁.commit mem = .ok t' := by
    intro t₁ hrun
    rw [exec_rows ops hheader hrows] at hrun
    have ht₁ := congrArg Prod.snd hrun
    dsimp only at ht₁
    rw [← ht₁]
    exact Result.exists_eq_ok (by decide +kernel)
  have hstorable : ∀ row ∈ csv.dataRows, ∀ cell ∈ csv.header.zip row,
      Storable t.columns cell.1 cell.2 := by
    rw [hrows]
    intro row hrow cell hcell
    obtain rfl := List.mem_singleton.mp hrow
    rw [show csv.header = [[0x61], [0x62], [0x63]] from by decide +kernel] at hcell
    exact threeColumnTable_storable cell hcell
  have hstored := csvStored_iff mem hcreate threeColumnTable_declares hlevels hnames hbefore
    hheader hdeclared hcommit
  -- the row that has a text for the boolean
  have hheader' : Header t flagged.header columns [] := ⟨by decide +kernel, by decide +kernel⟩
  have hnext' : flagged.readNextRow.2.2.readNextRow =
      (true, [[0x31], [0x78], text], ⟨[], 0x3b, 0x0a, 0x22⟩) := by decide +kernel
  have hrows' : flagged.dataRows = [[[0x31], [0x78], text]] :=
    CSVInputStream.dataRows_singleton hnext'
  have hdeclared' : declaredRows ops t flagged.header 0 flagged.dataRows = some declared' := by
    rw [hrows']
    decide +kernel
  have hraises : ∀ t₁, CxxM.exec (addRecordsFromCSV ops flagged) t ≠ (.ok (), t₁) := by
    intro t₁ hrun
    have hraised :
        (CxxM.exec (forRows (addCSVRow ops columns []) 0 [[[0x31], [0x78], text]]) t).1.isOk =
        false := by decide +kernel
    rw [exec_rows ops hheader' hrows'] at hrun
    rw [hrun] at hraised
    cases hraised
  have hcommit' : ∀ t₁, CxxM.exec (addRecordsFromCSV ops flagged) t = (.ok (), t₁) →
      ∃ t', t₁.commit mem = .ok t' := fun t₁ hrun => absurd hrun (hraises t₁)
  have hstored' := csvStored_iff mem hcreate threeColumnTable_declares hlevels hnames hbefore
    hheader' hdeclared' hcommit'
  refine ⟨t, hcreate, hdeclared, hdeclared', hstored.mpr hstorable, fun hread => ?_⟩
  have htext : Storable t.columns [0x63] text :=
    hstored'.mp hread [[0x31], [0x78], text] (hrows' ▸ List.mem_cons_self) ([0x63], text)
      (by decide +kernel)
  rcases htext with habs | hall
  · exact absurd habs (by decide +kernel)
  · exact (hall ⟨0, [0x63], 1, 1, 0, 1, 0, 0⟩ (by decide +kernel) rfl).1 rfl

/-- The text of a boolean in a boolean column: it is taken for a number and
rejected. -/
theorem not_csvStored_boolean :
    let mem : Uninit := zeroUninit
    let order : HashOrder := ⟨id, fun _ => .refl _⟩
    let schema : TableSchema := [.leaf [0x61] ⟨.BOOLEAN, by decide⟩ .BOOLEAN_BITPACKED false false]
    let ops : CSVOps := ⟨fun _ => .error .fault, fun _ _ _ => .ok none⟩
    let text := chars ['t', 'r', 'u', 'e']
    let csv : CSVInputStream := ⟨[0x61, 0x0a] ++ text ++ [0x0a], 0x3b, 0x0a, 0x22⟩
    ∃ t t', CSTableWriter.createFile mem order .v0_1_0 schema = .ok t ∧
      Human.parseBoolean text = some true ∧
      declaredRows ops t csv.header 0 csv.dataRows =
        some [.write [0x61] ⟨0, 0, .boolean true⟩, .addRow] ∧
      CxxM.exec (addRecordsFromCSV ops csv) t =
        (RAISEF .kTypeError "can't convert '$0' to UINT64" [text], t') := by
  intro mem order schema ops text csv
  let w := v1.ColumnWriter.new 0 0 (v1.ColumnWriter.newDataWriter .BOOLEAN_BITPACKED 1)
  let t : CSTableWriter := ⟨.v0_1_0, schema, PageStore.new (PageManager.new .v0_1_0 [] 0),
    TableSchema.flatColumns mem schema, [⟨.v1 w, []⟩], 0, 0, none, none⟩
  have hheader : Header t csv.header [⟨[0x61], 0, 0, 2⟩] [] :=
    ⟨by decide +kernel, by decide +kernel⟩
  have hnext : csv.readNextRow.2.2.readNextRow =
      (true, [text], ⟨[], 0x3b, 0x0a, 0x22⟩) := by decide +kernel
  have hrows : csv.dataRows = [[text]] := CSVInputStream.dataRows_singleton hnext
  have hexec := exec_rows ops hheader hrows
  refine ⟨t, _, rfl, by decide +kernel, ?_, hexec.trans (Prod.ext (by decide +kernel) rfl)⟩
  rw [hrows]
  decide +kernel

end RecordShredder

end CStable
