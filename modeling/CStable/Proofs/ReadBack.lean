import CStable.Proofs.TableV1

/-!
# `CStable.Proofs.ReadBack`: a v0.1.0 table reads back what was written

`ReadBack` relates the reader of a file to the run that wrote it: row count,
columns, and for each column the sequence of entries with its end.

* `readBack_commit`: every run of valid operations that could be committed is read
  back.
* `FitsHeaderV1.of_commit`: the counts and lengths of a table need no bound of their
  own. The header is one `File::pwrite`, so a commit that returns has stored them in
  their 32-bit fields without loss.
-/

set_option autoImplicit false

namespace CStable

open Support

/-- What a reader has to tell the columns of a table apart by and to decode
them. -/
structure ColumnShape where
  column_name : Bytes
  storage_type : UInt8
  rlevel_max : Nat
  dlevel_max : Nat
  deriving DecidableEq, Repr

/-- The shape of a column. -/
def ColumnConfig.shape (c : ColumnConfig) : ColumnShape :=
  ⟨c.column_name, c.storage_type, c.rlevel_max, c.dlevel_max⟩

/-- The reader of the file of a committed table returns what the run wrote to
the columns. -/
structure ReadBack (mem : Uninit) (columns : List ColumnConfig)
    (ops : List CSTableWriter.TableOp) (t' : CSTableWriter) (reader : CSTableReader) : Prop where
  opened : CSTableReader.openFile mem (contents t'.file) = .ok reader
  num_rows : reader.numRecords = CSTableWriter.rowsAdded ops
  columns : (reader.columns.map ColumnConfig.shape).Perm (columns.map ColumnConfig.shape)
  entries : List.Forall₂ (fun col r => ∃ cr, r = ColumnReader.v1 cr ∧
    cr.ReadsExactly reader.mmap (CSTableWriter.entriesOf col ops))
    reader.columns reader.column_readers
  announced : (reader.columns.map ColumnConfig.bodyExtent).Perm
    (t'.columns.map ColumnConfig.bodyExtent)
  contiguous : ∃ header bodies hdr, contents t'.file = header ++ bodies ∧
    readHeader mem (contents t'.file) = .ok (hdr, bodies) ∧
    Adjacent header.length (t'.columns.map ColumnConfig.bodyExtent)
  disjoint : (reader.columns.map ColumnConfig.bodyExtent).Pairwise Extent.Disjoint

namespace CSTableWriter

/-- The counts and lengths of a column list fit the 32-bit fields of a v0.1.0
header. -/
structure FitsHeaderV1 (columns : List ColumnConfig) : Prop where
  count : columns.length < 2 ^ 32
  name : ∀ c ∈ columns, c.column_name.length < 2 ^ 32
  rlevel_max : ∀ c ∈ columns, c.rlevel_max < 2 ^ 32
  dlevel_max : ∀ c ∈ columns, c.dlevel_max < 2 ^ 32

/-- The level maxima of the columns fit the 32-bit fields of a v0.1.0 header. The bit
widths of the level streams are those of the maxima in 32 bits as well, so columns with
larger maxima have no streams to speak of. -/
structure LevelsFit (columns : List ColumnConfig) : Prop where
  rlevel_max : ∀ c ∈ columns, c.rlevel_max < 2 ^ 32
  dlevel_max : ∀ c ∈ columns, c.dlevel_max < 2 ^ 32

/-- A v0.1.0 header has 32 bytes and its name for each column. -/
theorem le_headerSizeV1 (t : CSTableWriter) :
    t.columns.length ≤ t.headerSizeV1 ∧
      ∀ c ∈ t.columns, c.column_name.length ≤ t.headerSizeV1 := by
  have hsum : ∀ columns : List ColumnConfig,
      columns.length ≤ (columns.map fun col => 32 + col.column_name.length).sum ∧
        ∀ c ∈ columns, c.column_name.length ≤
          (columns.map fun col => 32 + col.column_name.length).sum := by
    intro columns
    induction columns with
    | nil => exact ⟨Nat.zero_le _, fun c hc => absurd hc List.not_mem_nil⟩
    | cons col columns ih =>
      rw [List.map_cons, List.sum_cons, List.length_cons]
      refine ⟨by omega, fun c hc => ?_⟩
      rcases List.mem_cons.mp hc with rfl | hrest
      · omega
      · have hle := ih.2 c hrest
        omega
  unfold headerSizeV1
  exact ⟨Nat.le_trans (hsum t.columns).1 (Nat.le_add_left _ _),
    fun c hc => Nat.le_trans ((hsum t.columns).2 c hc) (Nat.le_add_left _ _)⟩

/-- The columns of a table that was committed fit the header: the commit has written it in
one call, so it is shorter than `2 ^ 31` bytes. -/
theorem FitsHeaderV1.of_commit {mem : Uninit} {t t' : CSTableWriter} {ws : List v1.ColumnWriter}
    (hlevels : LevelsFit t.columns) (hc : CommittedV1 mem t t' ws) : FitsHeaderV1 t.columns := by
  obtain ⟨hcount, hnames⟩ := le_headerSizeV1 t
  have hlt := hc.header.count
  exact ⟨by omega, fun c hmem => by have hname := hnames c hmem; omega, hlevels.rlevel_max,
    hlevels.dlevel_max⟩

/-- The columns of a committed table fit its header. -/
theorem fitsColumn_placed {t : CSTableWriter} {ws : List v1.ColumnWriter}
    {p : ColumnConfig × v1.ColumnWriter} (hfits : FitsHeaderV1 t.columns)
    (hp : p ∈ t.placedColumns ws) (hbelow : p.1.body_offset + p.1.body_size < 2 ^ 63) :
    v0_1_0.FitsColumn p.1 := by
  obtain ⟨⟨col, w⟩, hcw, hcol, -⟩ := exists_of_mem_right (placedColumns_spec t ws) hp
  have hmem : col ∈ t.columns := (List.of_mem_zip hcw).1
  refine ⟨?_, ?_, ?_, by omega, by omega⟩
  · rw [hcol]
    exact hfits.name col hmem
  · rw [hcol]
    exact hfits.rlevel_max col hmem
  · rw [hcol]
    exact hfits.dlevel_max col hmem

/-- The shapes of the placed columns are those of the table. -/
theorem placedColumns_shapes {t : CSTableWriter} {ws : List v1.ColumnWriter}
    (hlen : t.columns.length = ws.length) :
    ((t.placedColumns ws).map Prod.fst).map ColumnConfig.shape =
      t.columns.map ColumnConfig.shape :=
  placedColumns_map (fun _ _ _ => rfl) hlen

/-- The columns that a commit writes to the header fit it, in their number and one by one. -/
theorem CommittedV1.fitsColumns {mem : Uninit} {t t' : CSTableWriter} {ws : List v1.ColumnWriter}
    (h : CommittedV1 mem t t' ws) (hlen : t.columns.length = ws.length)
    (hfits : FitsHeaderV1 t.columns) :
    t'.columns.length < 2 ^ 32 ∧ ∀ c ∈ t'.columns, v0_1_0.FitsColumn c := by
  rw [h.columns]
  constructor
  · rw [List.length_map, length_placedColumns hlen]
    exact hfits.count
  · intro c hmem
    obtain ⟨p, hp, rfl⟩ := List.mem_map.mp hmem
    exact fitsColumn_placed hfits hp (h.bodies p hp).below

/-- The header is never empty, so a file that begins with one can be mapped. -/
theorem headerV1_ne_nil (num_rows : UInt64) (columns : List ColumnConfig) :
    headerV1 num_rows columns ≠ [] := by
  unfold headerV1
  refine List.append_ne_nil_of_left_ne_nil (List.ne_nil_of_length_pos ?_) _
  rw [length_headerPreludeV1]
  norm_num

/-- A file that is not empty can be mapped. -/
theorem mapFile_ok {file : Bytes} (h : file ≠ []) :
    ∃ zeros, CSTableReader.mapFile file = .ok (file ++ zeros) := by
  unfold CSTableReader.mapFile
  rw [if_neg (by rwa [List.length_eq_zero_iff])]
  exact ⟨_, rfl⟩

/-- What a header stores of a column is read back, up to the order: the columns are sorted by
name. The shapes and the regions are such data. -/
theorem map_sorted {α : Type} {f : ColumnConfig → α} (mem : Uninit)
    (hf : ∀ c, f (v0_1_0.stored mem c) = f c) (columns : List ColumnConfig) :
    (((columns.map (v0_1_0.stored mem)).mergeSort v0_1_0.nameLE).map f).Perm (columns.map f) := by
  have h := (List.mergeSort_perm (columns.map (v0_1_0.stored mem)) v0_1_0.nameLE).map f
  have hsame : columns.map (f ∘ v0_1_0.stored mem) = columns.map f :=
    List.map_congr_left fun c _ => hf c
  rwa [List.map_map, hsame] at h

/-- The columns of a committed file are opened, each over the body that was written for it, and
read what was recorded. The file may be mapped with zeros behind it. -/
theorem CommittedV1.opens_columns {mem : Uninit} (mem' : Uninit) {t t' : CSTableWriter}
    {ws : List v1.ColumnWriter} {ops : List TableOp} (hc : CommittedV1 mem t t' ws)
    (hall : List.Forall₂ (fun col w => RecordsColumn col w (entriesOf col ops)) t.columns ws)
    (hfits : FitsHeaderV1 t.columns) (hnew : t.file = []) (zeros : Bytes) :
    ∀ c ∈ (t'.columns.map (v0_1_0.stored mem')).mergeSort v0_1_0.nameLE,
      ∃ r, CSTableReader.openColumnV1 (CStable.contents t'.file ++ zeros) c = .ok r ∧
        r.ReadsExactly (CStable.contents t'.file ++ zeros) (entriesOf c ops) := by
  intro c hmem
  obtain ⟨c', hc', rfl⟩ := List.mem_map.mp (List.mem_mergeSort.mp hmem)
  rw [hc.columns] at hc'
  obtain ⟨p, hp, rfl⟩ := List.mem_map.mp hc'
  obtain ⟨col, hcol, w, hrec, hw, hplace⟩ := exists_of_placed hall hp
  have hholds := holdsAt_bodyWrites mem 0 zeros placedColumns_fit
    (assignOffsets_adjacent t.headerSizeV1 (sizedColumns t.columns ws))
    (hc.length_header hall.length_eq) p hp
  rw [← List.append_assoc] at hholds
  rw [← CommittedV1.contents hc hall.length_eq hnew] at hholds
  -- the body was written in one call, and has a bit for each entry at least
  have hsmall := (hc.bodies p hp).count
  have hcount : (entriesOf col ops).length < 2 ^ 64 := by
    have hle := hrec.2.2.2.2.length_le hrec.2.2.2.1 (hrec.2.1.symm ▸ hfits.dlevel_max col hcol)
    rw [hplace] at hsmall
    dsimp only at hsmall
    omega
  obtain ⟨r, hr, hreads⟩ := openColumnV1_ok mem' hrec (hfits.rlevel_max col hcol)
    (hfits.dlevel_max col hcol) hcount hw hplace hholds (by omega)
  have hentries : entriesOf (v0_1_0.stored mem' p.1) ops = entriesOf col ops := by
    rw [hplace]
    rfl
  exact ⟨r, hr, hentries ▸ hreads⟩

/-- A committed table whose columns have recorded entries is read back. -/
theorem readBack_recorded {mem : Uninit} (mem' : Uninit) {t t' : CSTableWriter} {ops : List TableOp}
    (h : t.Recorded fun col => entriesOf col ops) (hrows : t.num_rows = rowsAdded ops)
    (hlevels : LevelsFit t.columns) (hcommit : t.commit mem = .ok t') :
    ∃ reader, ReadBack mem' t.columns ops t' reader := by
  obtain ⟨ws, hws, hall⟩ := h.writers
  have hlen : t.columns.length = ws.length := hall.length_eq
  unfold commit at hcommit
  rw [h.version] at hcommit
  have hc := commitV1_spec hws hlen hcommit
  have hfits := FitsHeaderV1.of_commit hlevels hc
  have hcontents := hc.contents hlen h.file
  -- the bodies lie one behind the other, so every reader opens on its own bytes
  have hadj : Adjacent t.headerSizeV1 ((t.placedColumns ws).map fun p => p.1.bodyExtent) :=
    assignOffsets_adjacent t.headerSizeV1 (sizedColumns t.columns ws)
  have hext : t'.columns.map ColumnConfig.bodyExtent =
      (t.placedColumns ws).map fun p => p.1.bodyExtent := by
    rw [hc.columns, List.map_map]
    rfl
  have hsorted := map_sorted (f := ColumnConfig.bodyExtent) mem' (fun _ => rfl) t'.columns
  obtain ⟨hcount, hcols⟩ := hc.fitsColumns hlen hfits
  have hread := readHeader_headerV1 mem' t.num_rows hcount hcols
    (((bodyWrites mem 0 (t.placedColumns ws)).map FileWrite.toWrite).flatMap Write.data)
  rw [← hcontents] at hread
  have hne : CStable.contents t'.file ≠ [] :=
    hcontents ▸ List.append_ne_nil_of_left_ne_nil (headerV1_ne_nil _ _) _
  obtain ⟨zeros, hmap⟩ := mapFile_ok hne
  obtain ⟨readers, hreaders, hall'⟩ :=
    Result.mapM_ok (hc.opens_columns mem' hall hfits h.file zeros)
  refine ⟨⟨.v0_1_0, (t'.columns.map (v0_1_0.stored mem')).mergeSort v0_1_0.nameLE,
    readers.map ColumnReader.v1, t.num_rows, CStable.contents t'.file ++ zeros, []⟩,
    ?_, hrows, ?_, ?_, hsorted, ?_, ?_⟩
  · unfold CSTableReader.openFile
    rw [hread, Result.ok_bind]
    dsimp only
    rw [hmap, Result.ok_bind, hreaders, Result.ok_bind]
  · have hshapes := map_sorted (f := ColumnConfig.shape) mem' (fun _ => rfl) t'.columns
    rw [hc.columns, placedColumns_shapes hlen, ← hc.columns] at hshapes
    exact hshapes
  · exact List.forall₂_map_right_iff.mpr (hall'.imp fun c r hr => ⟨r, rfl, hr⟩)
  · refine ⟨_, _, _, hcontents, hread, ?_⟩
    rw [hc.length_header hlen, hext]
    exact hadj
  · refine (hsorted.pairwise_iff fun h => h.symm).mpr ?_
    rw [hext]
    exact hadj.pairwise_disjoint

end CSTableWriter

/-- A run of valid operations on a new v0.1.0 table, followed by a commit that returns, is
read back: the rows, the columns, and every column's entries with their end. There is no
bound on the names, the number of columns or the number of entries; what can be committed
can be read. -/
theorem readBack_commit (mem mem' : Uninit) (schema : TableSchema) (columns : List ColumnConfig)
    (t t' : CSTableWriter) (ops : List CSTableWriter.TableOp)
    (hnew : CSTableWriter.new .v0_1_0 schema (PageManager.new .v0_1_0 [] 0) columns = .ok t)
    (hlevels : CSTableWriter.LevelsFit columns)
    (hnames : (columns.map ColumnConfig.column_name).Nodup)
    (hvalid : CSTableWriter.ValidOps columns ops)
    (hcommit : (t.after ops).commit mem = .ok t') :
    ∃ reader, ReadBack mem' columns ops t' reader := by
  obtain ⟨rfl, hzero, hrec⟩ :=
    CSTableWriter.new_v1_spec hnew hlevels.rlevel_max hlevels.dlevel_max
  obtain ⟨hcols, hrows, hrec⟩ := hrec.after hnames hlevels.rlevel_max hlevels.dlevel_max hvalid
  rw [hzero, UInt64.zero_add] at hrows
  have h := CSTableWriter.readBack_recorded mem' hrec hrows (hcols.symm ▸ hlevels) hcommit
  rwa [hcols] at h

/-- Three entries in two columns, one of them with repetition and null values. -/
theorem readBack_two_columns :
    let mem : Uninit := zeroUninit
    let columns : List ColumnConfig :=
      [⟨0, [0x62], 100, 4, 1, 1, 0, 0⟩, ⟨0, [0x61], 1, 1, 0, 0, 0, 0⟩]
    let ops : List CSTableWriter.TableOp := [.write [0x62] ⟨0, 1, .string [0x78]⟩,
      .write [0x62] ⟨1, 0, .null⟩, .write [0x61] ⟨0, 0, .boolean true⟩, .addRow]
    ∃ t t' reader, CSTableWriter.new .v0_1_0 [] (PageManager.new .v0_1_0 [] 0) columns = .ok t ∧
      (t.after ops).commit mem = .ok t' ∧ ReadBack mem columns ops t' reader := by
  intro mem columns ops
  have hrun : ∃ t', (CSTableWriter.new .v0_1_0 [] (PageManager.new .v0_1_0 [] 0) columns >>=
      fun t => (t.after ops).commit mem) = .ok t' := Result.exists_eq_ok (by decide +kernel)
  obtain ⟨t', hrun⟩ := hrun
  obtain ⟨t, hnew, hcommit⟩ := Result.bind_eq_ok.mp hrun
  have hvalid : CSTableWriter.ValidOps columns ops := by
    intro name c hmem
    simp only [ops, List.mem_cons, List.not_mem_nil, or_false, reduceCtorEq,
      CSTableWriter.TableOp.write.injEq] at hmem
    rcases hmem with ⟨rfl, rfl⟩ | ⟨rfl, rfl⟩ | ⟨rfl, rfl⟩
    · exact ⟨_, List.mem_cons_self, rfl, by decide⟩
    · exact ⟨_, List.mem_cons_self, rfl, by decide⟩
    · exact ⟨_, List.mem_cons_of_mem _ List.mem_cons_self, rfl, by decide⟩
  obtain ⟨reader, hread⟩ := readBack_commit mem mem [] columns t t' ops hnew
    ⟨by decide, by decide⟩ (by decide) hvalid hcommit
  exact ⟨t, t', reader, hnew, hcommit, hread⟩

/-- The columns of a reader are those of the header. -/
theorem CSTableReader.openFile_columns {mem : Uninit} {file : Bytes} {reader : CSTableReader}
    (h : openFile mem file = .ok reader) :
    ∃ hdr rest, readHeader mem file = .ok (hdr, rest) ∧ reader.columns = hdr.header.columns := by
  obtain ⟨⟨hdr, rest⟩, hread, h⟩ := Result.bind_eq_ok.mp h
  refine ⟨hdr, rest, hread, ?_⟩
  dsimp only at h
  split at h
  · obtain ⟨_, -, h⟩ := Result.bind_eq_ok.mp h
    obtain ⟨_, -, hret⟩ := Result.bind_eq_ok.mp h
    cases hret
    rfl
  · split at h
    · cases h
    · obtain ⟨_, -, hret⟩ := Result.bind_eq_ok.mp h
      cases hret
      rfl

end CStable
