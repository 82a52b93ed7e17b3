import CStable.Proofs.CsvSteps
import CStable.Proofs.EndOfColumn
import CStable.Proofs.LoadedRecords
import CStable.Proofs.ReadBack
import CStable.Proofs.Replay
import CStable.TableColumns

/-!
# `CStable.Proofs.WrittenFile`: what the file of a table returns

A v0.1.0 table whose columns have taken calls of their own classes (`NativeHistory`), in
whatever order and from whichever client, is committed to a file that returns for every
column name a reader of exactly the entries of these calls (`exists_table`).

The commit knows nothing of the order in which the columns were written, so the run that
writes one column after the other stands for all of them (`columnRun`).
-/

set_option autoImplicit false

namespace CStable

/-! ### Calls of the class of a column -/

/-- The argument under which the class of the column stores a value: a time is stored as an
unsigned integer. -/
def WriteArg.native : WriteArg → WriteArg
  | .dateTime value => .unsignedInt value
  | arg => arg

/-- The call with the argument of the class. -/
def WriteCall.native (c : WriteCall) : WriteCall := { c with arg := c.arg.native }

/-- A call stores the bytes of its native form: the conversion that the column class makes is
the conversion that `native` makes. -/
theorem sameBytes_native (c : WriteCall) : v1.SameBytes c c.native := by
  refine ⟨rfl, rfl, ?_⟩
  obtain ⟨rlvl, dlvl, arg⟩ := c
  cases arg <;> rfl

/-- No column tells a run of calls from that of the calls of its class. Both store the same
bytes, call by call. -/
theorem callAll_native_eq (calls : List WriteCall) : ∀ w : v1.ColumnWriter,
    (w.callAll (calls.map WriteCall.native)).1 = (w.callAll calls).1 := by
  induction calls with
  | nil => exact fun _ => rfl
  | cons c calls ih =>
    intro w
    rw [List.map_cons, v1.ColumnWriter.callAll, v1.ColumnWriter.callAll,
      ← (sameBytes_native c).call_eq w]
    cases w.call c with
    | ok w' => exact ih w'
    | error e => exact ih w

namespace CSTableWriter

open v1 (Entry)

/-- The entry a column has for a call, whose argument may be a time. -/
def nativeEntry (col : ColumnConfig) (c : WriteCall) : Option Entry := columnEntry col c.native

/-- The calls of the history are ones for the column, with levels and values in its range. -/
def NativeHistory (col : ColumnConfig) (slot : ColumnSlot) : Prop :=
  ∀ c ∈ slot.history, (nativeEntry col c).isSome

/-- Values that are all there, and what they are. -/
theorem forall₂_filterMap {α β : Type} {f : α → Option β} {xs : List α}
    (h : ∀ x ∈ xs, (f x).isSome) :
    List.Forall₂ (fun x y => f x = some y) xs (xs.filterMap f) := by
  induction xs with
  | nil => exact .nil
  | cons x xs ih =>
    obtain ⟨y, hy⟩ := Option.isSome_iff_exists.mp (h x List.mem_cons_self)
    rw [List.filterMap_cons_some hy]
    exact .cons hy (ih fun x' hx' => h x' (List.mem_cons_of_mem x hx'))

/-- Calls each of which has an entry, and the entries. By induction on the calls. -/
theorem forall₂_nativeEntry {col : ColumnConfig} {encoding : ColumnEncoding}
    (hencoding : ColumnEncoding.ofCode? col.storage_type = some encoding) {calls : List WriteCall}
    (h : ∀ c ∈ calls, (nativeEntry col c).isSome) :
    List.Forall₂ (fun c e => v1.entryOf encoding col.rlevel_max col.dlevel_max c = some e)
      (calls.map WriteCall.native) (calls.filterMap (nativeEntry col)) := by
  refine List.forall₂_map_left_iff.mpr ((forall₂_filterMap h).imp fun c e he => ?_)
  unfold nativeEntry columnEntry at he
  rwa [hencoding] at he

/-- A column of the table has recorded the entries of its history. -/
theorem ReplaysHistory.recordsSlot {col : ColumnConfig} {slot : ColumnSlot}
    (h : ReplaysHistory col slot) (hnative : NativeHistory col slot)
    (hr : col.rlevel_max < 2 ^ 32) (hd : col.dlevel_max < 2 ^ 32) :
    RecordsSlot col slot (slot.history.filterMap (nativeEntry col)) := by
  obtain ⟨w, hw, hslot⟩ := h
  unfold openColumnV1 at hw
  split at hw
  · next encoding hencoding =>
    cases hw
    have henc := v1.DataWriter.encoding_new encoding col.logical_type
    have hmax := v1.DataWriter.defaultMax_new encoding col.logical_type
    obtain ⟨hrec, hrm, hdm, henc'⟩ :=
      (v1.ColumnWriter.records_new hr hd encoding col.logical_type).callAll_native hr hd hmax
        (henc.symm ▸ forall₂_nativeEntry hencoding hnative)
    rw [callAll_native_eq] at hrec hrm hdm henc'
    refine ⟨_, congrArg ColumnSlot.writer hslot.symm, hrm, hdm, ?_,
      v1.ColumnWriter.defaultMax_callAll _ _ hmax, hrec⟩
    rw [henc', hencoding]
    exact congrArg some henc.symm
  · cases hw

/-! ### One column after the other -/

/-- The calls of a column, by the name of the column. -/
def columnWrites (p : ColumnConfig × ColumnSlot) : List TableOp :=
  p.2.history.map fun c => .write p.1.column_name c.native

/-- The run that makes all calls of the first column, then all of the second one, and so
on, and adds the rows in the end. -/
def columnRun (t : CSTableWriter) : List TableOp :=
  (t.columns.zip t.column_writers).flatMap columnWrites ++ [.addRows t.num_rows]

/-- Writes to columns add no rows. Only `addRow` and `addRows` do. -/
theorem rowsAdded_writes {ops : List TableOp} (h : ∀ op ∈ ops, ∃ name c, op = .write name c)
    (rest : List TableOp) : rowsAdded (ops ++ rest) = rowsAdded rest := by
  induction ops with
  | nil => rfl
  | cons op ops ih =>
    obtain ⟨name, c, rfl⟩ := h op List.mem_cons_self
    exact ih fun op' hop' => h op' (List.mem_cons_of_mem _ hop')

/-- The run that goes through the table column by column adds the same number of rows. -/
theorem rowsAdded_columnRun (t : CSTableWriter) : rowsAdded t.columnRun = t.num_rows := by
  unfold columnRun
  rw [rowsAdded_writes fun op hop => ?_]
  · exact UInt64.add_zero _
  · obtain ⟨p, -, hop⟩ := List.mem_flatMap.mp hop
    obtain ⟨c, -, rfl⟩ := List.mem_map.mp hop
    exact ⟨_, _, rfl⟩

/-- What is collected for a key comes from the one element that has it. The keys are the names
of columns here. -/
theorem flatMap_of_key {α β : Type} {key : α → Bytes} {f : α → List β} {xs : List α}
    (hkeys : (xs.map key).Nodup) {x : α} (hx : x ∈ xs)
    (hothers : ∀ y ∈ xs, key y ≠ key x → f y = []) : xs.flatMap f = f x := by
  induction xs with
  | nil => cases hx
  | cons y ys ih =>
    rw [List.map_cons, List.nodup_cons] at hkeys
    obtain ⟨hnot, hkeys⟩ := hkeys
    rw [List.flatMap_cons]
    rcases List.mem_cons.mp hx with rfl | hx
    · have hnone : ys.flatMap f = [] := List.flatMap_eq_nil_iff.mpr fun z hz =>
        hothers z (List.mem_cons_of_mem x hz) fun heq => hnot (heq ▸ List.mem_map_of_mem hz)
      rw [hnone, List.append_nil]
    · have hne : key y ≠ key x := fun heq => hnot (heq.symm ▸ List.mem_map_of_mem hx)
      rw [hothers y List.mem_cons_self hne, List.nil_append]
      exact ih hkeys hx fun z hz => hothers z (List.mem_cons_of_mem y hz)

/-- The run's part for one column has the entries of that column and none of the others. -/
theorem entriesOf_columnWrites (col : ColumnConfig) (p : ColumnConfig × ColumnSlot) :
    entriesOf col (columnWrites p) =
      if p.1.column_name = col.column_name then p.2.history.filterMap (nativeEntry col)
      else [] := by
  unfold entriesOf columnWrites
  rw [List.filterMap_map]
  by_cases hname : p.1.column_name = col.column_name
  · rw [if_pos hname]
    exact List.filterMap_congr fun c _ => if_pos hname
  · rw [if_neg hname]
    exact List.filterMap_eq_nil_iff.mpr fun c _ => if_neg hname

/-- The run writes to a column the entries of its history. Names are distinct, so no other
column's calls are among them. -/
theorem entriesOf_columnRun {t : CSTableWriter}
    (hnames : (t.columns.map ColumnConfig.column_name).Nodup)
    (hlength : t.column_writers.length = t.columns.length) {i : Nat} {col : ColumnConfig}
    {slot : ColumnSlot} (hcol : t.columns[i]? = some col)
    (hslot : t.column_writers[i]? = some slot) :
    entriesOf col t.columnRun = slot.history.filterMap (nativeEntry col) := by
  have hzip : (t.columns.zip t.column_writers).map Prod.fst = t.columns :=
    List.map_fst_zip (Nat.le_of_eq hlength.symm)
  have hkeys : ((t.columns.zip t.column_writers).map fun p => p.1.column_name).Nodup := by
    rw [← hzip, List.map_map] at hnames
    exact hnames
  have hmem : (col, slot) ∈ t.columns.zip t.column_writers :=
    List.mem_iff_getElem?.mpr ⟨i, List.getElem?_zip_eq_some.mpr ⟨hcol, hslot⟩⟩
  have hrows : entriesOf col [.addRows t.num_rows] = [] := rfl
  unfold columnRun
  rw [entriesOf, List.filterMap_append, List.filterMap_flatMap]
  change _ ++ entriesOf col _ = _
  rw [hrows, List.append_nil]
  change (t.columns.zip t.column_writers).flatMap (fun p => entriesOf col (columnWrites p)) = _
  rw [flatMap_of_key hkeys hmem fun p _ hne => ?_]
  · rw [entriesOf_columnWrites, if_pos rfl]
  · rw [entriesOf_columnWrites, if_neg hne]

/-- A table whose columns are where calls of their classes take them has recorded the
entries of the run that writes one column after the other. -/
theorem Replayed.recorded {t : CSTableWriter} (h : t.Replayed) (hversion : t.version = .v0_1_0)
    (hnames : (t.columns.map ColumnConfig.column_name).Nodup) (hlevels : LevelsFit t.columns)
    (hnative : ∀ (i : Nat) (col : ColumnConfig) (slot : ColumnSlot), t.columns[i]? = some col →
      t.column_writers[i]? = some slot → NativeHistory col slot) :
    t.Recorded fun col => entriesOf col t.columnRun := by
  refine ⟨hversion, h.file, h.slots.length_eq.symm, fun i col hcol => ?_⟩
  obtain ⟨hi, hget⟩ := List.getElem?_eq_some_iff.mp hcol
  have hlt : i < t.column_writers.length := h.slots.length_eq ▸ hi
  have hslot : t.column_writers[i]? = some t.column_writers[i] := List.getElem?_eq_getElem hlt
  have hmem : col ∈ t.columns := List.mem_of_getElem? hcol
  have hreplays := (List.forall₂_iff_get.mp h.slots).2 i hi hlt
  rw [List.get_eq_getElem, List.get_eq_getElem, hget] at hreplays
  refine ⟨_, hslot, ?_⟩
  rw [entriesOf_columnRun hnames h.slots.length_eq.symm hcol hslot]
  exact hreplays.recordsSlot (hnative i col _ hcol hslot) (hlevels.rlevel_max col hmem)
    (hlevels.dlevel_max col hmem)

end CSTableWriter

/-! ### The columns of the opened file -/

namespace CSTableReader

/-- The readers of a file that was opened as one of v0.1.0 are those of its columns. Columns and
readers are in the order of the header. -/
theorem openFile_readers {mem : Uninit} {file : Bytes} {reader : CSTableReader}
    (h : openFile mem file = .ok reader) (hv1 : ∀ r ∈ reader.column_readers, ∃ cr, r = .v1 cr) :
    List.Forall₂ (fun c r => ∃ cr, r = ColumnReader.v1 cr ∧ openColumnV1 reader.mmap c = .ok cr)
      reader.columns reader.column_readers := by
  obtain ⟨⟨hdr, rest⟩, -, h⟩ := Result.bind_eq_ok.mp h
  dsimp only at h
  split at h
  · obtain ⟨mmap, -, h⟩ := Result.bind_eq_ok.mp h
    obtain ⟨readers, hreaders, hret⟩ := Result.bind_eq_ok.mp h
    cases hret
    exact List.forall₂_map_right_iff.mpr
      ((Result.forall₂_of_mapM hreaders).imp fun c cr hcr => ⟨cr, rfl, hcr⟩)
  · split at h
    · cases h
    · obtain ⟨⟨readers, page_idx⟩, hopen, hret⟩ := Result.bind_eq_ok.mp h
      cases hret
      -- none of the readers of v0.2.0 is one of v0.1.0, so there are no columns at all
      cases hcolumns : hdr.header.columns with
      | nil =>
        rw [hcolumns] at hopen
        cases hopen
        exact .nil
      | cons c cs =>
        rw [hcolumns] at hopen
        obtain ⟨⟨reader, page_idx⟩, -, hopen⟩ := Result.bind_eq_ok.mp hopen
        obtain ⟨⟨readers, page_idx⟩, -, hret⟩ := Result.bind_eq_ok.mp hopen
        cases hret
        obtain ⟨cr, hcr⟩ := hv1 (.v2 reader) List.mem_cons_self
        cases hcr

/-- The column found for a name, where names are different. The search returns the first of a
name. -/
theorem find_eq_some {reader : CSTableReader}
    (hnames : (reader.columns.map ColumnConfig.column_name).Nodup)
    (hlength : reader.columns.length = reader.column_readers.length) {c : ColumnConfig}
    {r : ColumnReader} (h : (c, r) ∈ reader.columns.zip reader.column_readers) :
    reader.find c.column_name = some (c, r) := by
  have hzip : (reader.columns.zip reader.column_readers).map Prod.fst = reader.columns :=
    List.map_fst_zip (Nat.le_of_eq hlength)
  have hkeys : ((reader.columns.zip reader.column_readers).map
      fun p => p.1.column_name).Nodup := by
    rw [← hzip, List.map_map] at hnames
    exact hnames
  exact find?_eq_some_of_nodup hkeys h

end CSTableReader

/-- The entries of a run in columns of the same shape are the same. -/
theorem CSTableWriter.entriesOf_congr {c c' : ColumnConfig} (h : c.shape = c'.shape)
    (ops : List TableOp) : entriesOf c ops = entriesOf c' ops := by
  obtain ⟨hname, hstorage, hr, hd⟩ := ColumnShape.mk.inj h
  refine List.filterMap_congr fun op _ => ?_
  cases op with
  | write name call =>
    unfold writtenEntry columnEntry
    rw [hname, hstorage, hr, hd]
  | _ => rfl

/-- The opened table has a column reader for a column of the table that was written, of the
class and with the level maxima of the column, and it returns exactly the entries. -/
structure OpensColumn (table : CSTableReader) (col : ColumnConfig) (entries : List v1.Entry) :
    Prop where
  found : ∃ c cr, table.find col.column_name = some (c, .v1 cr) ∧
    ColumnEncoding.ofCode? col.storage_type = some cr.data_reader.encoding ∧
    cr.r_max = col.rlevel_max ∧ cr.ReadsExactly table.mmap entries

/-- The columns of a table that is read back. Their order in the file is that of their names,
and may differ from the table's. -/
theorem ReadBack.opensColumn {mem : Uninit} {columns : List ColumnConfig}
    {ops : List CSTableWriter.TableOp} {t' : CSTableWriter} {table : CSTableReader}
    (h : ReadBack mem columns ops t' table) (hnames : (columns.map ColumnConfig.column_name).Nodup)
    {col : ColumnConfig} (hcol : col ∈ columns) :
    OpensColumn table col (CSTableWriter.entriesOf col ops) := by
  have hreaders := CSTableReader.openFile_readers h.opened fun r hr => by
    obtain ⟨c, -, cr, hcr, -⟩ := Support.exists_of_mem_right h.entries hr
    exact ⟨cr, hcr⟩
  -- the reader sorts the columns, and no name repeats
  have hnames' : (table.columns.map ColumnConfig.column_name).Nodup := by
    have hperm := h.columns.map ColumnShape.column_name
    rw [List.map_map, List.map_map] at hperm
    exact hperm.nodup_iff.mpr hnames
  obtain ⟨c, hc, hshape⟩ := List.mem_map.mp (h.columns.symm.subset (List.mem_map_of_mem hcol))
  obtain ⟨i, hi, hget⟩ := List.mem_iff_getElem.mp hc
  have hlength := h.entries.length_eq
  obtain ⟨cr, hcr, hreads⟩ := (List.forall₂_iff_get.mp h.entries).2 i hi (hlength ▸ hi)
  obtain ⟨cr', hcr', hopen⟩ := (List.forall₂_iff_get.mp hreaders).2 i hi (hlength ▸ hi)
  rw [show table.columns.get ⟨i, hi⟩ = c from hget] at hreads hopen
  rw [List.get_eq_getElem] at hcr hcr'
  cases hcr.symm.trans hcr'
  have hmem : (c, ColumnReader.v1 cr) ∈ table.columns.zip table.column_readers := by
    refine List.mem_iff_getElem?.mpr ⟨i, List.getElem?_zip_eq_some.mpr ⟨?_, ?_⟩⟩
    · rw [List.getElem?_eq_getElem hi, hget]
    · rw [List.getElem?_eq_getElem (hlength ▸ hi), hcr]
  have hfound := CSTableReader.find_eq_some hnames' hlength hmem
  obtain ⟨hname, hstorage, hr, -⟩ := ColumnShape.mk.inj hshape
  unfold CSTableReader.openColumnV1 at hopen
  split at hopen
  · next encoding hencoding =>
    obtain ⟨henc, hrmax, -⟩ := v1.ColumnReader.new_spec hopen
    refine ⟨c, cr, hname ▸ hfound, ?_, hrmax.trans hr, ?_⟩
    · rw [← hstorage, hencoding, henc]
    · rw [← CSTableWriter.entriesOf_congr hshape]
      exact hreads
  · cases hopen

/-- The opened table has no columns but those of the table. -/
theorem ReadBack.find_eq_none {mem : Uninit} {columns : List ColumnConfig}
    {ops : List CSTableWriter.TableOp} {t' : CSTableWriter} {table : CSTableReader}
    (h : ReadBack mem columns ops t' table) {name : Bytes}
    (hname : name ∉ columns.map ColumnConfig.column_name) : table.find name = none := by
  have hperm := h.columns.map ColumnShape.column_name
  rw [List.map_map, List.map_map] at hperm
  refine List.find?_eq_none.mpr fun c hc heq => hname (hperm.subset ?_)
  exact List.mem_map.mpr ⟨c.1, (List.of_mem_zip hc).1, eq_of_beq heq⟩

namespace CSTableWriter

/-- The level maxima of a table whose names are as long as its levels are deep fit the header
once the table was committed: the names are in the header, which `File::pwrite` takes in one
call. -/
theorem Replayed.levelsFit {mem : Uninit} {t t' : CSTableWriter} (h : t.Replayed)
    (hversion : t.version = .v0_1_0)
    (hdeep : ∀ c ∈ t.columns, c.rlevel_max ≤ c.column_name.length + 1 ∧
      c.dlevel_max ≤ c.column_name.length + 1)
    (hcommit : t.commit mem = .ok t') : LevelsFit t.columns := by
  obtain ⟨ws, hws⟩ : ∃ ws, t.WritersV1 ws := exists_writersV1 h.allV1
  rw [CSTableWriter.commit, hversion] at hcommit
  have hc := commitV1_spec hws (h.slots.length_eq.trans hws.length_eq) hcommit
  have hlt := hc.header.count
  have hshort : ∀ c ∈ t.columns, c.column_name.length + 1 < 2 ^ 32 := fun c hcol =>
    Nat.lt_of_le_of_lt (Nat.succ_le_succ ((le_headerSizeV1 t).2 c hcol)) (by omega)
  exact ⟨fun c hcol => Nat.lt_of_le_of_lt (hdeep c hcol).1 (hshort c hcol),
    fun c hcol => Nat.lt_of_le_of_lt (hdeep c hcol).2 (hshort c hcol)⟩

/-- A committed table whose columns are where calls of their classes took them is opened
with a reader of the entries of every column, and with no other readers. -/
theorem Replayed.exists_table {mem : Uninit} (mem' : Uninit) {t t' : CSTableWriter}
    (h : t.Replayed) (hversion : t.version = .v0_1_0)
    (hnames : (t.columns.map ColumnConfig.column_name).Nodup) (hlevels : LevelsFit t.columns)
    (hnative : ∀ (i : Nat) (col : ColumnConfig) (slot : ColumnSlot), t.columns[i]? = some col →
      t.column_writers[i]? = some slot → NativeHistory col slot)
    (hcommit : t.commit mem = .ok t') :
    ∃ table, CSTableReader.openFile mem' (contents t'.file) = .ok table ∧
      table.numRecords = t.num_rows ∧
      (∀ (i : Nat) (col : ColumnConfig) (slot : ColumnSlot), t.columns[i]? = some col →
        t.column_writers[i]? = some slot →
          OpensColumn table col (slot.history.filterMap (nativeEntry col))) ∧
      ∀ name, name ∉ t.columns.map ColumnConfig.column_name → table.find name = none := by
  have hlength := h.slots.length_eq.symm
  obtain ⟨table, hread⟩ := readBack_recorded mem' (h.recorded hversion hnames hlevels hnative)
    (rowsAdded_columnRun t).symm hlevels hcommit
  refine ⟨table, hread.opened, hread.num_rows.trans (rowsAdded_columnRun t), ?_,
    fun name hname => hread.find_eq_none hname⟩
  intro i col slot hcol hslot
  have hopens := hread.opensColumn hnames (List.mem_of_getElem? hcol)
  rwa [entriesOf_columnRun hnames hlength hcol hslot] at hopens

end CSTableWriter

end CStable
