import CStable.Proofs.CsvTypes

/-!
# `CStable.Proofs.CsvCells`: the rows of an import are recorded

A row is its cells, each of which stands for a write (`Proofs.CsvTypes`), and then a
null for every column the header does not name (`rowSteps_declared`). A table whose
columns have the types the import finds (`Fillable`) records all of them, row after row
(`recorded_forRows`).
-/

set_option autoImplicit false

namespace CStable

open Support

namespace RecordShredder

open CSTableWriter (TableOp entriesOf rowsAdded Recorded)

/-! ### Rows -/

/-- Writes of the import that stand for valid ones are recorded as these. By induction on the
steps; the two calls hand over the same bytes. -/
theorem recorded_execSteps {steps : List Step} {writes : List TableOp} :
    ∀ {u : CSTableWriter} {entries : ColumnConfig → List v1.Entry}, u.Recorded entries →
      (u.columns.map ColumnConfig.column_name).Nodup →
      (∀ c ∈ u.columns, c.rlevel_max < 2 ^ 32) → (∀ c ∈ u.columns, c.dlevel_max < 2 ^ 32) →
      List.Forall₂ (StandsFor u.columns) steps writes →
      ∃ u', CxxM.exec (execSteps steps) u = (.ok (), u') ∧ u'.columns = u.columns ∧
        u'.num_rows = u.num_rows ∧
        u'.Recorded fun col => entries col ++ entriesOf col writes := by
  induction steps generalizing writes with
  | nil =>
    intro u entries hrec _ _ _ hall
    cases hall
    refine ⟨u, rfl, rfl, rfl, ?_⟩
    have hnil : (fun col => entries col ++ entriesOf col []) = entries :=
      funext fun col => List.append_nil _
    rw [hnil]
    exact hrec
  | cons s steps ih =>
    intro u entries hrec hnames hr hd hall
    cases hall with
    | @cons _ op _ writes hstands hrest =>
      obtain ⟨name, c₀, c, cfg, rfl, rfl, hsame, hmem, rfl, hentry⟩ := hstands
      obtain ⟨u₁, hexec, hcols, hrows, hrec₁⟩ := hrec.write hnames hr hd hmem hsame hentry
      -- the call of the step is recorded as the call the cell declares, which has its bytes
      have hstep : CxxM.exec (Step.write cfg.column_name c₀.rlvl c₀.dlvl (.ok c₀.arg)).exec u =
          (.ok (), u₁) := by
        rw [CSTableWriter.exec_apply_write] at hexec
        cases hget : u.getColumnWriter cfg.column_name with
        | error e =>
          rw [hget] at hexec
          cases hexec
        | ok i =>
          have hcol : CxxM.exec (getColumnWriter cfg.column_name) u = (.ok i, u) :=
            Prod.ext hget rfl
          rw [hget] at hexec
          rw [Step.exec, CxxM.exec_bind_ok hcol]
          exact hexec
      obtain ⟨u₂, hexec₂, hcols₂, hrows₂, hrec₂⟩ := ih hrec₁ (hcols ▸ hnames) (hcols ▸ hr)
        (hcols ▸ hd) (hcols ▸ hrest)
      refine ⟨u₂, ?_, hcols₂.trans hcols, hrows₂.trans hrows, ?_⟩
      · rw [execSteps, CxxM.exec_bind_ok hstep, hexec₂]
      · have happend :
          (fun col => entries col ++ entriesOf col (.write cfg.column_name c :: writes)) =
            fun col => (entries col ++ entriesOf col [.write cfg.column_name c]) ++
              entriesOf col writes := by
          funext col
          rw [List.append_assoc]
          exact congrArg (entries col ++ ·) (List.filterMap_append (l := [_]))
        rw [happend]
        exact hrec₂

/-- The cells of a row stand for the declared writes, cell by cell along the header. By
induction on the columns. -/
theorem cellsSteps_declared {columns : List ColumnConfig} {ops : CSVOps} {n : Nat}
    {header : List Bytes} {opened : List CSVColumn}
    (hfound : List.Forall₂ (fun name col => ∃ cfg type, Found columns name col cfg type)
      header opened) :
    ∀ {i : Nat} {row : List Bytes} {writes : List TableOp},
      declaredCells ops columns n i header row = some writes →
      (∀ cell ∈ header.zip row, Storable columns cell.1 cell.2) →
      List.Forall₂ (StandsFor columns) (cellsSteps ops n i opened row) writes := by
  induction hfound with
  | nil =>
    intro i row writes h _
    cases row <;> cases h <;> exact .nil
  | @cons name col header opened hcol _ ih =>
    intro i row writes h hstorable
    cases row with
    | nil =>
      cases h
      exact .nil
    | cons val row =>
      obtain ⟨cfg, type, hcol⟩ := hcol
      rw [declaredCells] at h
      obtain ⟨c, hc, h⟩ := Option.bind_eq_some_iff.mp h
      obtain ⟨rest, hrest, hret⟩ := Option.bind_eq_some_iff.mp h
      cases hret
      obtain ⟨s, hs, hstands⟩ := cellSteps_declared hcol hc
        (hstorable (name, val) List.mem_cons_self)
      rw [cellsSteps, hs]
      exact .cons hstands (ih hrest fun cell hcell => hstorable cell (List.mem_cons_of_mem _ hcell))

/-- What an import needs of the table it fills. -/
structure Fillable (t : CSTableWriter) : Prop where
  names : (t.columns.map ColumnConfig.column_name).Nodup
  rlevel_max : ∀ c ∈ t.columns, c.rlevel_max < 2 ^ 32
  dlevel_max : ∀ c ∈ t.columns, c.dlevel_max < 2 ^ 32
  declares : ∀ c ∈ t.columns, ∃ type, Declares c type
  answers : List.Forall₂ (fun col slot => ∀ type, Declares col type →
    ColumnSlot.answers slot = ((reportedType type.val).code, col.dlevel_max))
    t.columns t.column_writers

namespace Fillable

variable {t : CSTableWriter}

/-- The column found for a name, and what its writer says of it: the type it reports and its
level. -/
theorem answers_of_name (ht : Fillable t) {name : Bytes} {i : Nat}
    (hget : t.getColumnWriter name = .ok i) {slot : ColumnSlot}
    (hslot : t.column_writers[i]? = some slot) :
    ∃ cfg type, cfg ∈ t.columns ∧ cfg.column_name = name ∧ Declares cfg type ∧
      slot.answers = ((reportedType type.val).code, cfg.dlevel_max) := by
  obtain ⟨cfg, hcfg, hname⟩ := CSTableWriter.name_of_getColumnWriter hget
  have hmem : cfg ∈ t.columns := List.mem_iff_getElem?.mpr ⟨i, hcfg⟩
  obtain ⟨type, hdeclares⟩ := ht.declares cfg hmem
  obtain ⟨hi, hcfg⟩ := List.getElem?_eq_some_iff.mp hcfg
  obtain ⟨hi', hslot⟩ := List.getElem?_eq_some_iff.mp hslot
  have hanswers := (List.forall₂_iff_get.mp ht.answers).2 i hi hi'
  rw [List.get_eq_getElem, List.get_eq_getElem, hcfg, hslot] at hanswers
  exact ⟨cfg, type, hmem, hname, hdeclares, hanswers type hdeclares⟩

/-- With distinct names the first column of a name is the only one. -/
theorem find_eq (ht : Fillable t) {cfg : ColumnConfig} (hmem : cfg ∈ t.columns) {name : Bytes}
    (hname : cfg.column_name = name) :
    (t.columns.find? fun c => c.column_name == name) = some cfg := by
  cases hfind : t.columns.find? fun c => c.column_name == name with
  | none =>
    have hnone := List.find?_eq_none.mp hfind cfg hmem
    exact absurd (beq_iff_eq.mpr hname) hnone
  | some cfg' =>
    have hfound := List.find?_some hfind
    have hname' : cfg'.column_name = name := beq_iff_eq.mp hfound
    rw [List.inj_on_of_nodup_map ht.names (List.mem_of_find?_eq_some hfind) hmem
      (hname'.trans hname.symm)]

/-- A column the importer opens is one of the table, with the type its writer reports. -/
theorem found (ht : Fillable t) {name : Bytes} {col : CSVColumn} (h : Opens t name col) :
    ∃ cfg type, Found t.columns name col cfg type := by
  obtain ⟨slot, hslot, hmax, htype⟩ := h.slot
  obtain ⟨cfg, type, hmem, hname, hdeclares, hanswers⟩ := ht.answers_of_name h.writer hslot
  refine ⟨cfg, type, h.name_eq, hmem, hname, ht.find_eq hmem hname, hdeclares, ?_⟩
  rw [hmax, htype]
  exact hanswers

/-- A missing column stands for a null, which it can take. -/
theorem standsFor_missing (ht : Fillable t) {name : Bytes} {i : Nat}
    (h : openMissingColumn t name = .ok i) :
    StandsFor t.columns (.write name 0 0 (.ok .null)) (.write name ⟨0, 0, .null⟩) := by
  obtain ⟨hget, slot, hslot, hmax⟩ := openMissingColumn_eq_ok h
  obtain ⟨cfg, type, hmem, hname, hdeclares, hanswers⟩ := ht.answers_of_name hget hslot
  have hdmax : slot.writer.maxDefinitionLevel = cfg.dlevel_max := congrArg Prod.snd hanswers
  exact ⟨name, ⟨0, 0, .null⟩, ⟨0, 0, .null⟩, cfg, rfl, rfl, .refl _, hmem, hname,
    columnEntry_null hdeclares (hdmax ▸ hmax)⟩

end Fillable

/-- A row stands for the declared one: its cells, and the nulls of the columns that are
missing. -/
theorem rowSteps_declared {t : CSTableWriter} (ht : Fillable t) {header : List Bytes}
    {columns : List CSVColumn} {missing : List Nat} (hheader : Header t header columns missing)
    {ops : CSVOps} {n : Nat} {row : List Bytes} {writes : List TableOp}
    (h : declaredRow ops t header n row = some writes)
    (hstorable : ∀ cell ∈ header.zip row, Storable t.columns cell.1 cell.2) :
    ∃ writes', writes = writes' ++ [.addRow] ∧
      List.Forall₂ (StandsFor t.columns)
        (rowSteps ops columns (missingColumns t header) n row) writes' := by
  obtain ⟨cells, hcells, hret⟩ := Option.bind_eq_some_iff.mp h
  cases hret
  refine ⟨_, rfl, List.rel_append (cellsSteps_declared
    (hheader.opens.imp fun name col hopens => ht.found hopens) hcells hstorable) ?_⟩
  have hmissing := Result.forall₂_of_mapM hheader.missing
  unfold missingSteps
  refine List.forall₂_map_left_iff.mpr (List.forall₂_map_right_iff.mpr
    (List.forall₂_same.mpr fun name hname => ?_))
  obtain ⟨i, -, hi⟩ := exists_of_mem_left hmissing hname
  exact ht.standsFor_missing hi

/-- The entries of operations come in their order. -/
theorem entriesOf_append (col : ColumnConfig) (xs ys : List TableOp) :
    entriesOf col (xs ++ ys) = entriesOf col xs ++ entriesOf col ys := List.filterMap_append

/-- And their rows add up. -/
theorem rowsAdded_append (xs ys : List TableOp) :
    rowsAdded (xs ++ ys) = rowsAdded xs + rowsAdded ys := by
  induction xs with
  | nil => exact (UInt64.zero_add _).symm
  | cons x xs ih =>
    cases x with
    | addRow =>
      show 1 + rowsAdded (xs ++ ys) = 1 + rowsAdded xs + rowsAdded ys
      rw [ih, UInt64.add_assoc]
    | addRows n =>
      show n + rowsAdded (xs ++ ys) = n + rowsAdded xs + rowsAdded ys
      rw [ih, UInt64.add_assoc]
    | write name c => exact ih

/-- The writes of a row add no rows; that is left to `addRow` behind them. -/
theorem rowsAdded_standsFor {columns : List ColumnConfig} {steps : List Step}
    {writes : List TableOp} (h : List.Forall₂ (StandsFor columns) steps writes) :
    rowsAdded writes = 0 := by
  induction h with
  | nil => rfl
  | cons hstands _ ih =>
    obtain ⟨name, c₀, c, cfg, -, rfl, -⟩ := hstands
    exact ih

/-- The native value of a class is what is read back for the argument. -/
theorem readDatum_native {encoding : ColumnEncoding} {arg : WriteArg} {v : v1.Datum}
    (h : v1.nativeDatum encoding arg = some v) : readDatum arg = some v := by
  cases v1.nativeValue_of_nativeDatum h <;> rfl

/-- The entry of a write that stands for a step is its declared one. The argument may be of
another type than the declared value, and stores the same bytes. -/
theorem writtenEntry_standsFor {columns : List ColumnConfig}
    (hnames : (columns.map ColumnConfig.column_name).Nodup) {s : Step} {op : TableOp}
    (h : StandsFor columns s op) {col : ColumnConfig} (hcol : col ∈ columns) :
    CSTableWriter.writtenEntry col op = readEntry col op := by
  obtain ⟨name, c₀, c, cfg, -, rfl, -, hmem, hname, hentry⟩ := h
  unfold CSTableWriter.writtenEntry readEntry
  dsimp only
  by_cases heq : name = col.column_name
  · rw [if_pos heq, if_pos heq]
    obtain rfl := List.inj_on_of_nodup_map hnames hmem hcol (hname.trans heq)
    obtain ⟨e, he⟩ := Option.isSome_iff_exists.mp hentry
    obtain ⟨encoding, -, hof⟩ := Option.bind_eq_some_iff.mp he
    obtain ⟨hr, hd, -, hkind⟩ := v1.entryOf_eq_some hof
    obtain ⟨rlvl, dlvl, value⟩ := e
    rw [he, ← show rlvl = c.rlvl from hr, ← show dlvl = c.dlvl from hd]
    rcases hkind with ⟨harg, -, hvalue⟩ | ⟨-, v, hv, hvalue⟩
    · rw [harg, show value = none from hvalue]
      rfl
    · rw [readDatum_native hv, show value = some v from hvalue]
  · rw [if_neg heq, if_neg heq]

/-- So the entries of a column are those that were declared. By induction on the steps. -/
theorem entriesOf_standsFor {columns : List ColumnConfig}
    (hnames : (columns.map ColumnConfig.column_name).Nodup) {steps : List Step}
    {writes : List TableOp} (h : List.Forall₂ (StandsFor columns) steps writes)
    {col : ColumnConfig} (hcol : col ∈ columns) :
    entriesOf col writes = writes.filterMap (readEntry col) := by
  refine List.filterMap_congr fun op hop => ?_
  obtain ⟨s, -, hs⟩ := exists_of_mem_right h hop
  exact writtenEntry_standsFor hnames hs hcol

/-- An import of storable cells makes the declared writes. By induction on the rows, with the
table and its entries moving on. -/
theorem recorded_forRows {t : CSTableWriter} (ht : Fillable t) {header : List Bytes}
    {columns : List CSVColumn} {missing : List Nat} (hheader : Header t header columns missing)
    {ops : CSVOps} {rows : List (List Bytes)} :
    ∀ {n : Nat} {declared : List TableOp} {u : CSTableWriter}
      {entries : ColumnConfig → List v1.Entry}, u.columns = t.columns → u.Recorded entries →
      declaredRows ops t header n rows = some declared →
      (∀ row ∈ rows, ∀ cell ∈ header.zip row, Storable t.columns cell.1 cell.2) →
      ∃ u', CxxM.exec (forRows (addCSVRow ops columns missing) n rows) u = (.ok (), u') ∧
        u'.columns = t.columns ∧ u'.num_rows = u.num_rows + rowsAdded declared ∧
        (u'.Recorded fun col => entries col ++ entriesOf col declared) ∧
        ∀ col ∈ t.columns, entriesOf col declared = declared.filterMap (readEntry col) := by
  induction rows with
  | nil =>
    intro n declared u entries hu hrec h _
    cases h
    refine ⟨u, rfl, hu, (UInt64.add_zero _).symm, ?_, fun col _ => rfl⟩
    have hnil : (fun col => entries col ++ entriesOf col []) = entries :=
      funext fun col => List.append_nil _
    rw [hnil]
    exact hrec
  | cons row rows ih =>
    intro n declared u entries hu hrec h hstorable
    rw [declaredRows] at h
    obtain ⟨first, hfirst, h⟩ := Option.bind_eq_some_iff.mp h
    obtain ⟨rest, hrest, hret⟩ := Option.bind_eq_some_iff.mp h
    cases hret
    obtain ⟨writes, rfl, hstands⟩ := rowSteps_declared ht hheader hfirst
      (hstorable row List.mem_cons_self)
    obtain ⟨u₁, hexec, hcols₁, hrows₁, hrec₁⟩ := recorded_execSteps hrec (hu ▸ ht.names)
      (hu ▸ ht.rlevel_max) (hu ▸ ht.dlevel_max) (hu ▸ hstands)
    -- a row is its steps and one `addRow`, which touches no column
    have hrow : CxxM.exec (addCSVRow ops columns missing n row) u = (.ok (), u₁.addRow) := by
      rw [exec_addCSVRow hheader hu, hexec]
    have hadd : u₁.addRow.Recorded fun col => entries col ++ entriesOf col writes :=
      ⟨hrec₁.version, hrec₁.file, hrec₁.length, hrec₁.slots⟩
    have hcols : u₁.addRow.columns = t.columns := hcols₁.trans hu
    obtain ⟨u', hexec', hcols', hrows', hrec', hread⟩ := ih hcols hadd hrest
      fun row' hrow' => hstorable row' (List.mem_cons_of_mem row hrow')
    refine ⟨u', ?_, hcols', ?_, ?_, fun col hcol => ?_⟩
    · rw [forRows, CxxM.exec_bind_ok hrow, hexec']
    · rw [hrows', rowsAdded_append, rowsAdded_append, rowsAdded_standsFor hstands, UInt64.zero_add]
      show u₁.num_rows + 1 + _ = _
      rw [hrows₁, UInt64.add_assoc]
      rfl
    · have happend : (fun col => entries col ++ entriesOf col (writes ++ [.addRow] ++ rest)) =
          fun col => (entries col ++ entriesOf col writes) ++ entriesOf col rest := by
        funext col
        have hrow : entriesOf col [.addRow] = [] := rfl
        rw [entriesOf_append, entriesOf_append, hrow, List.append_nil, List.append_assoc]
      rw [happend]
      exact hrec'
    · rw [entriesOf_append, entriesOf_append, List.filterMap_append, List.filterMap_append,
        entriesOf_standsFor ht.names hstands hcol, hread col hcol]
      rfl
end RecordShredder

end CStable
