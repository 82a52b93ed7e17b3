import CStable.Proofs.ReadBack
import CStable.Proofs.TableV2

/-!
# `CStable.Proofs.AtomicCommit`: what a crash before the end of a commit leaves

`PublishesAtomically` is the promise of `CSTableWriter`: a file to which only some
of the writes were made cannot be opened, and once all are made it shows all of
the table.

A v0.2.0 commit ends with the metablock, and keeps the promise. A v0.1.0 commit
begins with the complete header: after this first write the file opens with the
new row count (`not_publishesAtomically_v1`). `publishesAtomically_iff` puts both
together.
-/

set_option autoImplicit false

namespace CStable

open Support

/-- Every byte range a header refers to has been written: the bodies of a v0.1.0
file, the index page of a v0.2.0 file and the pages its entries list. -/
structure RangesWritten (file : List FileWrite) (hdr : HeaderData) : Prop where
  bodies : hdr.version = .v0_1_0 → ∀ c ∈ hdr.header.columns, Written file c.bodyExtent
  index : ∀ mb, hdr.metablock = some mb → ∃ entries,
    PageIndex.indexWrite mb.headIndexPage entries ∈ file ∧
    ∀ e ∈ entries, ∃ pages, e.2 = UInt64PageWriter.pageListBytes pages ∧
      ∀ p ∈ pages, Written file p.1.extent

/-- The table `t` has become `t'` by a commit, and the writes to the file show it
at once. -/
structure PublishesAtomically (mem : Uninit) (t t' : CSTableWriter) : Prop where
  unpublished : ∀ k < t'.file.length,
    Raises (CSTableReader.openFile mem (contents (t'.file.take k)))
  published : ∃ hdr rest reader, readHeader mem (contents t'.file) = .ok (hdr, rest) ∧
    CSTableReader.openFile mem (contents t'.file) = .ok reader ∧
    reader.numRecords = t.num_rows ∧
    (reader.columns.map ColumnConfig.shape).Perm (t.columns.map ColumnConfig.shape) ∧
    RangesWritten t'.file hdr

/-! ### v0.2.0 -/

namespace CSTableWriter

/-- What the metablock of a commit refers to was written before it: the index page by the
commit, the pages by it or earlier. -/
theorem Committed.rangesWritten {t t' : CSTableWriter} {header : Bytes} {page : PageRef}
    {entries : List (PageIndexKey × Bytes)} {pages : List FileWrite} {hdr : HeaderData}
    (h : Committed t t' header entries page pages) (hinv : t.pages.Inv header)
    (hversion : hdr.version = .v0_2_0)
    (hmetablock : ∀ mb, hdr.metablock = some mb → mb.headIndexPage = page) :
    RangesWritten t'.file hdr := by
  obtain ⟨page_mgr, -, hentries, hfile₁⟩ := h.index
  obtain ⟨file_size, hfile⟩ := h.file
  have hsplit : t'.file = page_mgr.file ++ ([PageIndex.indexWrite page entries] ++
      [.metablock (v0_2_0.slotOffset 1)
        (v0_2_0.writeMetaBlock ⟨1, t.num_rows, page.offset, page.size, file_size⟩)]) := by
    rw [hfile, hfile₁]
    simp only [List.cons_append, List.append_assoc, List.nil_append]
  refine ⟨fun hv1 => ?_, fun mb hmb => ⟨entries, ?_, fun e he => ?_⟩⟩
  · rw [hversion] at hv1
    cases hv1
  · rw [hmetablock mb hmb, hsplit]
    exact List.mem_append_right _ List.mem_cons_self
  · obtain ⟨ps, hbytes, hwritten⟩ := hentries.pages hinv.finished e he
    refine ⟨ps, hbytes, fun p hp => ?_⟩
    rw [hsplit]
    exact (hwritten p hp).append _

end CSTableWriter

/-- A v0.2.0 commit publishes the table with its last write, the metablock. Whatever part of the
writes before it gets to the file, opening it raises. -/
theorem publishesAtomically_v2 {mem mem' : Uninit} {order : HashOrder} {schema : TableSchema}
    {t t' : CSTableWriter} {ops : List CSTableWriter.TableOp}
    (hcreate : CSTableWriter.createFile mem order .v0_2_0 schema = .ok t)
    (hcols : v0_2_0.Representable t.columns) (hcommit : (t.after ops).commit mem = .ok t') :
    PublishesAtomically mem' (t.after ops) t' := by
  obtain ⟨header, hcreated⟩ := CSTableWriter.createFile_v2_spec hcreate
  obtain ⟨hsame, hinv, -⟩ := hcreated.after ops
  obtain ⟨entries, page, pages, h⟩ := CSTableWriter.commit_v2_spec
    (hsame.version.trans hcreated.version) hinv (hsame.current_txid.trans hcreated.current_txid)
    (hsame.free_idx_ptr.trans hcreated.free_idx_ptr) hcommit
  have hheader := hcreated.writeHeader
  have htypes := hcreated.types
  rw [← hsame.columns] at hheader htypes hcols
  obtain ⟨file_size, rest, hread⟩ := CSTableWriter.readHeader_committed mem' h hheader hcols
  obtain ⟨reader, hopen, -, hcolumns, hrows, -⟩ :=
    CSTableWriter.openFile_committed mem' h hheader hcols htypes
  refine ⟨fun k hk => CSTableWriter.openFile_unpublished h hheader hcols hk,
    _, rest, reader, hread, hopen, hrows, ?_, h.rangesWritten hinv rfl fun mb hmb => ?_⟩
  · rw [hcolumns, List.map_map]
    exact .refl _
  · cases hmb
    rfl

/-! ### v0.1.0 -/

namespace CSTableWriter

/-- A v0.1.0 table to whose file nothing has been written. -/
structure UnwrittenV1 (t : CSTableWriter) : Prop where
  version : t.version = .v0_1_0
  file : t.file = []
  writers : ∃ ws, t.WritersV1 ws ∧ t.columns.length = ws.length
  encoded : ∀ c ∈ t.columns, (ColumnEncoding.ofCode? c.storage_type).isSome

/-- Creating a v0.1.0 table writes nothing to the file. -/
theorem createFile_unwritten {mem : Uninit} {order : HashOrder} {schema : TableSchema}
    {t : CSTableWriter} (h : createFile mem order .v0_1_0 schema = .ok t) : t.UnwrittenV1 := by
  obtain ⟨_, hinit, hnew⟩ := Result.bind_eq_ok.mp h
  cases hinit
  obtain ⟨⟨slots, pages⟩, hopen, hret⟩ := Result.bind_eq_ok.mp hnew
  cases hret
  obtain ⟨rfl, hall⟩ := openColumns_v1_spec hopen
  obtain ⟨ws, hws⟩ := exists_writersV1 fun slot hslot => by
    obtain ⟨c, -, encoding, -, rfl⟩ := exists_of_mem_right hall hslot
    exact ⟨_, rfl⟩
  refine ⟨rfl, rfl, ⟨ws, hws, ?_⟩, fun c hc => ?_⟩
  · have hlen := congrArg List.length hws
    rw [List.length_map, List.length_map] at hlen
    exact hall.length_eq.trans hlen
  · obtain ⟨slot, -, encoding, hencoding, -⟩ := exists_of_mem_left hall hc
    rw [hencoding]
    rfl

/-- An operation on a v0.1.0 table stays in memory, whether it fails or not. -/
theorem UnwrittenV1.apply {t : CSTableWriter} (h : t.UnwrittenV1) (op : TableOp) :
    (CxxM.exec (apply op) t).2.UnwrittenV1 := by
  cases op with
  | addRow => exact ⟨h.version, h.file, h.writers, h.encoded⟩
  | addRows num_rows => exact ⟨h.version, h.file, h.writers, h.encoded⟩
  | write name c =>
    rw [exec_apply_write]
    cases t.getColumnWriter name with
    | error e => exact h
    | ok i =>
      obtain ⟨ws, hws, hlen⟩ := h.writers
      unfold CxxM.exec writeColumn slot
      dsimp only
      cases hslot : t.column_writers[i]? with
      | none => exact h
      | some slot =>
        have hwriter : (t.column_writers.map ColumnSlot.writer)[i]? = some slot.writer := by
          rw [List.getElem?_map, hslot, Option.map_some]
        rw [hws, List.getElem?_map] at hwriter
        obtain ⟨w, -, hw⟩ := Option.map_eq_some_iff.mp hwriter
        dsimp only
        rw [← hw]
        dsimp only
        -- a call keeps the writer one of v0.1.0, and writes nothing to the file
        cases w.call c with
        | error e => exact h
        | ok w' =>
          refine ⟨h.version, h.file, ⟨ws.set i w', ?_, ?_⟩, h.encoded⟩
          · show (t.column_writers.set i _).map ColumnSlot.writer = _
            rw [List.map_set, hws, ← List.map_set]
          · rw [List.length_set]
            exact hlen

/-- So does a run of operations. -/
theorem UnwrittenV1.after {t : CSTableWriter} (h : t.UnwrittenV1) (ops : List TableOp) :
    (t.after ops).UnwrittenV1 := by
  induction ops generalizing t with
  | nil => exact h
  | cons op ops ih => exact ih (h.apply op)

end CSTableWriter

/-! ### Opening a file that is too short -/

/-- A load from memory has no check that raises; outside of the mapping it faults. -/
theorem not_raises_load (mem : Mapping) (address n_bytes : Nat) :
    ¬ Raises (load mem address n_bytes) := by
  rintro ⟨e, he⟩
  unfold load at he
  split_ifs at he
  cases he

/-- A sequence raises only where one of its steps does. -/
theorem not_raises_bind {α β : Type} {x : Result α} {f : α → Result β} (hx : ¬ Raises x)
    (hf : ∀ a, x = .ok a → ¬ Raises (f a)) : ¬ Raises (x >>= f) := by
  rintro ⟨e, he⟩
  cases x with
  | error e' =>
    cases he
    exact hx ⟨e, rfl⟩
  | ok a => exact hf a rfl ⟨e, he⟩

/-- A loop raises only where one of its rounds does. By induction on the list. -/
theorem not_raises_mapM {α β : Type} {f : α → Result β} {xs : List α}
    (h : ∀ x ∈ xs, ¬ Raises (f x)) : ¬ Raises (xs.mapM f) := by
  induction xs with
  | nil =>
    rintro ⟨e, he⟩
    cases he
  | cons x xs ih =>
    rw [List.mapM_cons]
    refine not_raises_bind (h x List.mem_cons_self) fun y _ => not_raises_bind
      (ih fun x' hx' => h x' (List.mem_cons_of_mem x hx')) fun ys _ => ?_
    rintro ⟨e, he⟩
    cases he

/-- A read within the bounds of a message ends with its bytes, or outside of the
mapping. -/
theorem BinaryMessageReader.not_raises_readUInt64 {mem : Mapping} {r : BinaryMessageReader}
    (h : r.pos + 8 ≤ r.size) : ¬ Raises (r.readUInt64 mem) := by
  unfold readUInt64 BinaryMessageReader.read
  rw [if_neg (by omega)]
  refine not_raises_bind (not_raises_bind (not_raises_load mem _ _) fun bytes _ => ?_)
    fun bytes _ => ?_
  · rintro ⟨e, he⟩
    cases he
  · rintro ⟨e, he⟩
    cases he

/-- A number that was read moves the position by its eight bytes. -/
theorem BinaryMessageReader.readUInt64_pos {mem : Mapping} {r r' : BinaryMessageReader} {n : Nat}
    (h : r.readUInt64 mem = .ok (n, r')) : r'.pos = r.pos + 8 ∧ r'.size = r.size := by
  obtain ⟨⟨bytes, r₁⟩, hread, hret⟩ := Result.bind_eq_ok.mp h
  cases hret
  unfold BinaryMessageReader.read at hread
  split_ifs at hread
  · cases hread
  · obtain ⟨_, -, hret⟩ := Result.bind_eq_ok.mp hread
    cases hret
    exact ⟨rfl, rfl⟩

/-- The constructor of a column reader checks the size of the body only. So a file whose bodies
are missing is opened. -/
theorem v1.ColumnReader.not_raises_new {mem : Mapping} {encoding : ColumnEncoding}
    {r_max d_max data size : Nat} (hsize : 32 ≤ size) :
    ¬ Raises (new mem encoding r_max d_max data size) := by
  unfold new
  refine not_raises_bind (BinaryMessageReader.not_raises_readUInt64 ?_) fun ⟨n₁, r₁⟩ h₁ => ?_
  · show 0 + 8 ≤ size
    omega
  have hp₁ := BinaryMessageReader.readUInt64_pos h₁
  have hpos₁ : r₁.pos = 8 := hp₁.1
  have hsize₁ : r₁.size = size := hp₁.2
  refine not_raises_bind (BinaryMessageReader.not_raises_readUInt64 (by omega))
    fun ⟨n₂, r₂⟩ h₂ => ?_
  have hp₂ := BinaryMessageReader.readUInt64_pos h₂
  refine not_raises_bind (BinaryMessageReader.not_raises_readUInt64 (by omega))
    fun ⟨n₃, r₃⟩ h₃ => ?_
  have hp₃ := BinaryMessageReader.readUInt64_pos h₃
  refine not_raises_bind (BinaryMessageReader.not_raises_readUInt64 (by omega)) fun ⟨n₄, r₄⟩ _ => ?_
  refine not_raises_bind ?_ fun reader _ => ?_
  · unfold DataReader.new
    cases encoding with
    | UINT32_BITPACKED =>
      refine not_raises_bind (not_raises_load mem _ _) fun bytes _ => ?_
      rintro ⟨e, he⟩
      cases he
    | _ =>
      rintro ⟨e, he⟩
      cases he
  · rintro ⟨e, he⟩
    cases he

namespace CSTableWriter

/-- Columns fit a v0.1.0 header when there is a header whose columns have the same shapes: the
name and the maxima are part of the shape. -/
theorem FitsHeaderV1.of_shapes {columns columns' : List ColumnConfig}
    (hshapes : (columns'.map ColumnConfig.shape).Perm (columns.map ColumnConfig.shape))
    (hcount : columns'.length < 2 ^ 32) (hfits : ∀ c ∈ columns', v0_1_0.FitsColumn c) :
    FitsHeaderV1 columns := by
  have hshape : ∀ c ∈ columns, ∃ c', v0_1_0.FitsColumn c' ∧ c'.shape = c.shape := by
    intro c hmem
    obtain ⟨c', hc', heq⟩ := List.mem_map.mp
      (hshapes.symm.subset (List.mem_map.mpr ⟨c, hmem, rfl⟩))
    exact ⟨c', hfits c' hc', heq⟩
  refine ⟨?_, fun c hmem => ?_, fun c hmem => ?_, fun c hmem => ?_⟩
  · have hlength := hshapes.length_eq
    rw [List.length_map, List.length_map] at hlength
    omega
  · obtain ⟨c', hfit, heq⟩ := hshape c hmem
    have hsame : c'.column_name = c.column_name := congrArg ColumnShape.column_name heq
    exact hsame ▸ hfit.name
  · obtain ⟨c', hfit, heq⟩ := hshape c hmem
    have hsame : c'.rlevel_max = c.rlevel_max := congrArg ColumnShape.rlevel_max heq
    exact hsame ▸ hfit.rlevel_max
  · obtain ⟨c', hfit, heq⟩ := hshape c hmem
    have hsame : c'.dlevel_max = c.dlevel_max := congrArg ColumnShape.dlevel_max heq
    exact hsame ▸ hfit.dlevel_max

/-- A header without its bodies is opened. The readers of the columns are made over regions that
lie behind the end, and only the size of a region is checked. -/
theorem not_raises_openFile_headerV1 (mem : Uninit) (num_rows : UInt64)
    {columns : List ColumnConfig} (hcount : columns.length < 2 ^ 32)
    (hcols : ∀ c ∈ columns, v0_1_0.FitsColumn c ∧ 32 ≤ c.body_size ∧
      (ColumnEncoding.ofCode? c.storage_type).isSome) :
    ¬ Raises (CSTableReader.openFile mem (headerV1 num_rows columns)) := by
  have hheader := readHeader_headerV1 mem num_rows hcount (fun c hmem => (hcols c hmem).1) []
  rw [List.append_nil] at hheader
  obtain ⟨zeros, hmap⟩ := mapFile_ok (headerV1_ne_nil num_rows columns)
  unfold CSTableReader.openFile
  rw [hheader, Result.ok_bind]
  dsimp only
  rw [hmap, Result.ok_bind]
  refine not_raises_bind (not_raises_mapM fun c hmem => ?_) fun readers _ => ?_
  · obtain ⟨c', hc', rfl⟩ := List.mem_map.mp (List.mem_mergeSort.mp hmem)
    obtain ⟨-, hbody, hencoded⟩ := hcols c' hc'
    obtain ⟨encoding, hencoding⟩ := Option.isSome_iff_exists.mp hencoded
    unfold CSTableReader.openColumnV1
    rw [show ColumnEncoding.ofCode? (v0_1_0.stored mem c').storage_type = some encoding from
      hencoding]
    exact v1.ColumnReader.not_raises_new hbody
  · rintro ⟨e, he⟩
    cases he

variable {mem : Uninit} {t t' : CSTableWriter} {ws : List v1.ColumnWriter}

/-- After its first write a new file is the header of the commit, and holds nothing else. -/
theorem CommittedV1.contents_take_one (h : CommittedV1 mem t t' ws)
    (hlen : t.columns.length = ws.length) (hnew : t.file = []) :
    CStable.contents (t'.file.take 1) = headerV1 t.num_rows t'.columns := by
  rw [h.file, hnew, List.nil_append, List.take_succ_cons, List.take_zero, CStable.contents,
    List.map_singleton, h.toWrite_header hlen]
  exact contents_stream _

/-- The bodies are written after the header, one write for each column. -/
theorem CommittedV1.one_lt_length (h : CommittedV1 mem t t' ws)
    (hlen : t.columns.length = ws.length) (hne : t.columns ≠ []) : 1 < t'.file.length := by
  have hpos : 0 < (t.placedColumns ws).length := by
    rw [length_placedColumns hlen]
    exact List.length_pos_of_ne_nil hne
  have hbodies : (bodyWrites mem 0 (t.placedColumns ws)).length = (t.placedColumns ws).length := by
    have hextents := congrArg List.length (extent_bodyWrites mem 0 (t.placedColumns ws))
    rwa [List.length_map, List.length_map, List.length_map] at hextents
  rw [h.file, List.length_append, List.length_cons, hbodies]
  omega

/-- Each column of the header has a region for the four numbers of a body at least, and an
encoding that there is. -/
theorem CommittedV1.placed_columns (h : CommittedV1 mem t t' ws)
    (hencoded : ∀ c ∈ t.columns, (ColumnEncoding.ofCode? c.storage_type).isSome) :
    ∀ c ∈ t'.columns, 32 ≤ c.body_size ∧ (ColumnEncoding.ofCode? c.storage_type).isSome := by
  rw [h.columns]
  intro c hmem
  obtain ⟨p, hp, rfl⟩ := List.mem_map.mp hmem
  obtain ⟨⟨col, w⟩, hcw, hcol, -⟩ := exists_of_mem_right (placedColumns_spec t ws) hp
  constructor
  · rw [placedColumns_size p hp]
    unfold v1.ColumnWriter.bodySize
    omega
  · rw [hcol]
    exact hencoded col (List.of_mem_zip hcw).1

/-- The first write of a v0.1.0 commit is the header, and the file already opens
with it. -/
theorem not_publishesAtomically_v1 {mem' : Uninit} (h : t.UnwrittenV1)
    (hne : t.columns ≠ []) (hcommit : t.commit mem = .ok t') : ¬ PublishesAtomically mem' t t' := by
  intro hatomic
  obtain ⟨ws, hws, hlen⟩ := h.writers
  unfold commit at hcommit
  rw [h.version] at hcommit
  have hc := commitV1_spec hws hlen hcommit
  obtain ⟨hdr, rest, reader, hread, hopen, -, hshapes, -⟩ := hatomic.published
  -- the complete file shows all columns, so they fit their header
  have hfits : FitsHeaderV1 t.columns := by
    rw [hc.contents hlen h.file] at hopen
    obtain ⟨hdr', rest', hread', hcolumns⟩ := CSTableReader.openFile_columns hopen
    obtain ⟨-, hcount, hfitsread⟩ := readHeader_fits hread'
    rw [← hcolumns] at hcount hfitsread
    exact .of_shapes hshapes hcount hfitsread
  obtain ⟨hcount, hfitscols⟩ := hc.fitsColumns hlen hfits
  have hcols : ∀ c ∈ t'.columns, v0_1_0.FitsColumn c ∧ 32 ≤ c.body_size ∧
      (ColumnEncoding.ofCode? c.storage_type).isSome := fun c hmem =>
    ⟨hfitscols c hmem, hc.placed_columns h.encoded c hmem⟩
  have hraises := hatomic.unpublished 1 (hc.one_lt_length hlen hne)
  rw [hc.contents_take_one hlen h.file] at hraises
  exact not_raises_openFile_headerV1 mem' t.num_rows hcount hcols hraises

end CSTableWriter

/-! ### Both versions -/

/-- Of all tables with a column that are created, filled and committed, those of
v0.2.0 are published atomically. -/
theorem publishesAtomically_iff {mem mem' : Uninit} {order : HashOrder}
    {version : BinaryFormatVersion} {schema : TableSchema} {t t' : CSTableWriter}
    {ops : List CSTableWriter.TableOp}
    (hcreate : CSTableWriter.createFile mem order version schema = .ok t) (hne : t.columns ≠ [])
    (hcols : v0_2_0.Representable t.columns) (hcommit : (t.after ops).commit mem = .ok t') :
    PublishesAtomically mem' (t.after ops) t' ↔ version = .v0_2_0 := by
  constructor
  · intro hatomic
    cases version with
    | v0_2_0 => rfl
    | v0_1_0 =>
      have hunwritten := (CSTableWriter.createFile_unwritten hcreate).after ops
      have hcolumns : (t.after ops).columns = t.columns :=
        (CSTableWriter.after_spec (P := fun _ => True) (fun _ _ _ _ => trivial) ops t).1.columns
      exact absurd hatomic
        (CSTableWriter.not_publishesAtomically_v1 hunwritten (hcolumns ▸ hne) hcommit)
  · rintro rfl
    exact publishesAtomically_v2 hcreate hcols hcommit

/-- One row in a v0.2.0 table of one column. -/
theorem publishesAtomically_one_row :
    let mem : Uninit := zeroUninit
    let schema : TableSchema := [.leaf [0x61] ⟨.UNSIGNED_INT, by decide⟩ .UINT64_PLAIN false false]
    let ops : List CSTableWriter.TableOp := [.write [0x61] ⟨0, 0, .unsignedInt 7⟩, .addRow]
    ∃ t t', CSTableWriter.createFile mem ⟨id, fun _ => .refl _⟩ .v0_2_0 schema = .ok t ∧
      (t.after ops).commit mem = .ok t' ∧ PublishesAtomically mem (t.after ops) t' := by
  intro mem schema ops
  have hrun : ∃ r, CSTableWriter.createAndCommit mem ⟨id, fun _ => .refl _⟩ .v0_2_0 schema ops =
      .ok r := Result.exists_eq_ok (by decide +kernel)
  obtain ⟨r, hr⟩ := hrun
  obtain ⟨t, hcreate, hr⟩ := Result.bind_eq_ok.mp hr
  obtain ⟨t', hcommit, -⟩ := Result.bind_eq_ok.mp hr
  have hcolumns := CSTableWriter.createFile_columns hcreate
  have hcols : v0_2_0.Representable t.columns := by
    rw [hcolumns]
    constructor <;> decide
  have hne : t.columns ≠ [] := by
    rw [hcolumns]
    decide
  exact ⟨t, t', hcreate, hcommit, (publishesAtomically_iff hcreate hne hcols hcommit).mpr rfl⟩

/-- One row in a v0.1.0 table of one column: after the first of the two writes of
the commit the file opens and counts the row. -/
theorem not_publishesAtomically_one_row :
    let mem : Uninit := zeroUninit
    let schema : TableSchema := [.leaf [0x61] ⟨.BOOLEAN, by decide⟩ .BOOLEAN_BITPACKED false false]
    let ops : List CSTableWriter.TableOp := [.write [0x61] ⟨0, 0, .boolean true⟩, .addRow]
    ∃ t t' reader, CSTableWriter.createFile mem ⟨id, fun _ => .refl _⟩ .v0_1_0 schema = .ok t ∧
      (t.after ops).commit mem = .ok t' ∧ 1 < t'.file.length ∧
      CSTableReader.openFile mem (contents (t'.file.take 1)) = .ok reader ∧
      reader.numRecords = 1 ∧ ¬ PublishesAtomically mem (t.after ops) t' := by
  intro mem schema ops
  let run : Result (CSTableWriter × CSTableWriter) :=
    CSTableWriter.createAndCommit mem ⟨id, fun _ => .refl _⟩ .v0_1_0 schema ops
  have hopened : ∃ reader, (run >>= fun r =>
      CSTableReader.openFile mem (contents (r.2.file.take 1))) = .ok reader :=
    Result.exists_eq_ok (by decide +kernel)
  have hrows : ((run >>= fun r => CSTableReader.openFile mem (contents (r.2.file.take 1))).map
      fun reader => reader.numRecords) = .ok 1 := by decide +kernel
  have hlength : (run.map fun r => r.2.file.length) = .ok 2 := by decide +kernel
  obtain ⟨reader, hreader⟩ := hopened
  obtain ⟨⟨t, t'⟩, hrun, hopen⟩ := Result.bind_eq_ok.mp hreader
  rw [hreader] at hrows
  rw [hrun] at hlength
  obtain ⟨t, hcreate, hr⟩ := Result.bind_eq_ok.mp hrun
  obtain ⟨t', hcommit, hret⟩ := Result.bind_eq_ok.mp hr
  cases hret
  have htwo : t'.file.length = 2 := Except.ok.inj hlength
  have hmore : 1 < t'.file.length := htwo ▸ Nat.lt_succ_self 1
  refine ⟨t, t', reader, hcreate, hcommit, hmore, hopen, Except.ok.inj hrows, fun hatomic => ?_⟩
  obtain ⟨e, he⟩ := hatomic.unpublished 1 hmore
  rw [hopen] at he
  cases he

end CStable
