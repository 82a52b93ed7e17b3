import CStable.CSTableReader
import CStable.Proofs.MetaBlock
import CStable.Proofs.Store

/-!
# `CStable.Proofs.TableV2`: committing and opening a v0.2.0 table

The file of a v0.2.0 table is its header, then page writes behind the header,
then one metablock (`Committed`). Up to the metablock no slot of the header
holds one, and `openFile` raises (`openFile_unpublished`); after it the file
opens with the columns and the row count of the table (`openFile_committed`).
-/

set_option autoImplicit false

namespace CStable

open Support v0_2_0

/-! ### The commit -/

namespace CSTableWriter

/-- What the client of a created table does keeps the page store sound and the
index as it is. -/
theorem Created.after {t : CSTableWriter} {header : Bytes} (h : t.Created header)
    (ops : List TableOp) :
    SameTable t (t.after ops) ∧ (t.after ops).pages.Inv header ∧
      (t.after ops).pages.page_idx = t.pages.page_idx := by
  have hidx : ∀ i value, CxxM.Preserves (fun s : PageStore => s.page_idx = t.pages.page_idx)
      (PageStore.appendValue i value) := by
    intro i value
    refine CxxM.Preserves.update fun s s' hs hstep => ?_
    cases hi : s.page_writers[i]? with
    | none =>
      rw [hi] at hstep
      cases hstep
    | some w =>
      rw [hi] at hstep
      obtain ⟨_, -, hret⟩ := Result.bind_eq_ok.mp hstep
      cases hret
      exact hs
  obtain ⟨hsame, hinv⟩ := after_spec (PageStore.preserves_appendValue header) ops t
  exact ⟨hsame, hinv h.inv, (after_spec hidx ops t).2 rfl⟩

/-- What `commit` has written, from the header on: pages behind the header, the
index page with the entries, and the metablock that names it. -/
structure Committed (t t' : CSTableWriter) (header : Bytes)
    (entries : List (PageIndexKey × Bytes)) (page : PageRef) (pages : List FileWrite) : Prop where
  index : ∃ page_mgr, PageIndex.writeEntries t.pages.page_writers t.pages.page_mgr
      t.pages.page_idx = .ok (entries, page_mgr) ∧
    PageIndex.Entries t.pages.page_writers t.pages.page_mgr page_mgr t.pages.page_idx entries ∧
    page_mgr.file = .stream header :: pages
  file : ∃ file_size, t'.file = .stream header :: (pages ++ [PageIndex.indexWrite page entries]) ++
    [.metablock (slotOffset 1) (writeMetaBlock ⟨1, t.num_rows, page.offset, page.size, file_size⟩)]
  behind : PagesFrom header.length (pages ++ [PageIndex.indexWrite page entries])

/-- What a first commit leaves in the file: the header, the pages of the columns behind it, and
the index page that the metablock in the first slot points to. -/
theorem commit_v2_spec {mem : Uninit} {t t' : CSTableWriter} {header : Bytes}
    (hversion : t.version = .v0_2_0) (hinv : t.pages.Inv header) (htx : t.current_txid = 0)
    (hfree : t.free_idx_ptr = none) (h : t.commit mem = .ok t') :
    ∃ entries page pages, Committed t t' header entries page pages := by
  unfold commit commitV2 at h
  rw [hversion, hfree] at h
  obtain ⟨⟨page, pm⟩, hwrite, h⟩ := Result.bind_eq_ok.mp h
  obtain ⟨pm', htrans, hret⟩ := Result.bind_eq_ok.mp h
  cases hret
  obtain ⟨entries, pm₁, size, hentries, hpage, hpm⟩ := PageIndex.write_eq_ok hwrite
  have hspec := PageIndex.writeEntries_spec hentries
  have hsound := hspec.sound hinv
  -- what the file gains is the pages, then the index page, then the metablock
  obtain ⟨us, hfile, hus⟩ := hsound.file
  obtain ⟨ws, hpm₁, hws⟩ := hspec.writes
  have hfile₁ : pm₁.file = .stream header :: (us ++ ws) := by
    rw [hpm₁, ← List.cons_append, ← hfile]
  have hoffset : header.length ≤ page.offset.toNat := by
    rw [hpage, hpm₁]
    exact hsound.header_le
  have htxid : txid (t.newMetaBlock page pm) = 1 := by
    unfold txid newMetaBlock
    rw [htx]
    rfl
  have hmb : t.newMetaBlock page pm = ⟨1, t.num_rows, page.offset, page.size, pm.getOffset⟩ := by
    unfold newMetaBlock
    rw [htx]
    rfl
  rw [writeTransaction_eq (by rw [hpm, hpm₁]; exact hinv.version)
    (by rw [hpm, hpm₁]; exact hinv.position) (by rw [hpm, hpm₁]; exact hinv.size), htxid,
    hmb] at htrans
  cases htrans
  refine ⟨entries, page, us ++ ws, ⟨pm₁, hentries, hspec, hfile₁⟩, ⟨pm.getOffset, ?_⟩, ?_⟩
  · show pm.file ++ _ = _
    have hpmfile : pm.file = pm₁.file ++ [PageIndex.indexWrite page entries] := by
      rw [hpm]
    rw [hpmfile, hfile₁, List.cons_append]
  · exact (hus.append (hws header.length hsound.current)).append (PagesFrom.page hoffset _ _)

end CSTableWriter

/-! ### The file -/

/-- Page writes behind the header keep the slots. -/
theorem v0_2_0.HasSlots.pages {columns : List ColumnConfig} {s : Slots MetaBlock}
    {ws us : List FileWrite} {start : Nat} (h : HasSlots columns s (contents ws))
    (hstart : headerSize columns ≤ start) (hus : PagesFrom start us) :
    HasSlots columns s (contents (ws ++ us)) := by
  induction us generalizing ws with
  | nil => rwa [List.append_nil]
  | cons u us ih =>
    obtain ⟨o, n, data, rfl, ho⟩ := hus u List.mem_cons_self
    have hnext := h.page (FileWrite.pageData n data) (Nat.le_trans hstart ho)
    have hcont : contents (ws ++ [.page o n data]) =
        writeAt 0 (contents ws) o (FileWrite.pageData n data) := contents_append ws _
    rw [← hcont] at hnext
    rw [List.append_cons]
    exact ih hnext fun w hw => hus w (List.mem_cons_of_mem _ hw)

/-- Without a byte in the file there is no header. -/
theorem raises_readHeader_nil (mem : Uninit) : Raises (readHeader mem []) := by
  unfold readHeader
  rw [Parser.run_bind]
  have hread : readInto (mem.buffer 0 6) [] = .ok (mem.buffer 0 6, []) := rfl
  rw [hread]
  dsimp only
  split_ifs with hmagic
  · exact ⟨_, rfl⟩
  · generalize (mem.buffer 0 6).getD 4 0 = vnum
    split
    · exact ⟨_, rfl⟩
    · exact ⟨_, rfl⟩
    · exact ⟨_, rfl⟩

namespace CSTableReader

/-- A file whose header does not parse is not opened. -/
theorem raises_openFile {mem : Uninit} {file : Bytes} (h : Raises (readHeader mem file)) :
    Raises (openFile mem file) := by
  obtain ⟨e, he⟩ := h
  refine ⟨e, ?_⟩
  unfold openFile
  rw [he]
  rfl

/-- The keys a column reader registers: there is none for definition levels. -/
def openedKeys (c : ColumnConfig) : List PageIndexKey :=
  (if c.rlevel_max > 0 then [⟨c.column_id, .RLEVEL⟩] else []) ++ [⟨c.column_id, .DATA⟩]

/-- A column of the class that the reader supports in version 0.2.0 is opened, and registers its
keys behind those of the columns before it. -/
theorem openColumnV2_ok {c : ColumnConfig} (page_idx : PageIndexReader)
    (htype : c.logical_type = ColumnType.UNSIGNED_INT.code)
    (henc : c.storage_type = ColumnEncoding.UINT64_PLAIN.code) :
    ∃ reader, openColumnV2 c page_idx = .ok (reader, page_idx ++ openedKeys c) := by
  unfold openColumnV2 UnsignedIntColumnReader.new
  rw [htype, henc, ColumnType.ofCode?_code, ColumnEncoding.ofCode?_code]
  refine ⟨⟨c, decide (c.rlevel_max > 0)⟩, ?_⟩
  unfold openedKeys PageIndexReader.addPageReader
  dsimp only
  split_ifs with hr
  · rw [← List.append_assoc]
  · rw [List.nil_append]

/-- So all columns are opened, and the reader has asked for their keys in the order of the
columns. By induction on the columns. -/
theorem openColumnsV2_ok (page_idx : PageIndexReader) (columns : List ColumnConfig)
    (htypes : ∀ c ∈ columns, c.logical_type = ColumnType.UNSIGNED_INT.code ∧
      c.storage_type = ColumnEncoding.UINT64_PLAIN.code) :
    ∃ readers, openColumnsV2 page_idx columns =
      .ok (readers, page_idx ++ columns.flatMap openedKeys) := by
  induction columns generalizing page_idx with
  | nil => exact ⟨[], by rw [List.flatMap_nil, List.append_nil]; rfl⟩
  | cons c cs ih =>
    obtain ⟨htype, henc⟩ := htypes c List.mem_cons_self
    obtain ⟨reader, hopen⟩ := openColumnV2_ok page_idx htype henc
    obtain ⟨readers, hrest⟩ := ih (page_idx ++ openedKeys c) fun c' hc' =>
      htypes c' (List.mem_cons_of_mem c hc')
    refine ⟨reader :: readers, ?_⟩
    unfold openColumnsV2
    rw [hopen, Result.ok_bind]
    dsimp only
    rw [hrest, List.flatMap_cons, ← List.append_assoc]
    rfl

end CSTableReader

namespace CSTableWriter

variable {t t' : CSTableWriter} {header : Bytes} {page : PageRef}
  {entries : List (PageIndexKey × Bytes)} {pages : List FileWrite}

/-- Before the last write of the commit there is nothing to open. -/
theorem openFile_unpublished {mem : Uninit} (h : Committed t t' header entries page pages)
    (hheader : writeHeader t.columns = .ok header) (hcols : Representable t.columns) {k : Nat}
    (hk : k < t'.file.length) :
    Raises (CSTableReader.openFile mem (contents (t'.file.take k))) := by
  obtain ⟨file_size, hfile⟩ := h.file
  refine CSTableReader.raises_openFile ?_
  cases k with
  | zero =>
    rw [List.take_zero]
    exact raises_readHeader_nil mem
  | succ k =>
    have htake : t'.file.take (k + 1) =
        [.stream header] ++ (pages ++ [PageIndex.indexWrite page entries]).take k := by
      rw [hfile, List.length_append, List.length_cons, List.length_singleton] at hk
      rw [hfile, List.cons_append, List.take_succ_cons, List.take_append_of_le_length (by omega)]
      rfl
    rw [htake]
    have hbehind : PagesFrom header.length
        ((pages ++ [PageIndex.indexWrite page entries]).take k) :=
      fun w hw => h.behind w (List.mem_of_mem_take hw)
    have hslots := (hasSlots_header hheader).pages (headerSize_le hheader) hbehind
    exact hslots.readHeader mem hcols

/-- After it the header names the columns, the row count and the index page. -/
theorem readHeader_committed (mem : Uninit) (h : Committed t t' header entries page pages)
    (hheader : writeHeader t.columns = .ok header) (hcols : Representable t.columns) :
    ∃ file_size rest, readHeader mem (contents t'.file) =
      .ok (⟨.v0_2_0, ⟨t.columns.map (stored mem), mem.num_rows⟩,
        some ⟨1, t.num_rows, page.offset, page.size, file_size⟩, none⟩, rest) := by
  obtain ⟨file_size, hfile⟩ := h.file
  have hslots := (hasSlots_header hheader).pages (headerSize_le hheader) h.behind
  have hslot := hslots.slot 1
    (length_writeMetaBlock ⟨1, t.num_rows, page.offset, page.size, file_size⟩)
  rw [slotBlock_writeMetaBlock] at hslot
  obtain ⟨rest, hread⟩ := hslot.readHeader mem hcols
  refine ⟨file_size, rest, ?_⟩
  rw [hfile, contents_append]
  exact hread

/-- A file that was committed is opened, with the columns and the number of rows of the table.
No bound is put on the index page: the reader does not parse it. -/
theorem openFile_committed (mem : Uninit) (h : Committed t t' header entries page pages)
    (hheader : writeHeader t.columns = .ok header) (hcols : Representable t.columns)
    (htypes : ∀ c ∈ t.columns, c.logical_type = ColumnType.UNSIGNED_INT.code ∧
      c.storage_type = ColumnEncoding.UINT64_PLAIN.code) :
    ∃ reader, CSTableReader.openFile mem (contents t'.file) = .ok reader ∧
      reader.version = .v0_2_0 ∧ reader.columns = t.columns.map (stored mem) ∧
      reader.numRecords = t.num_rows ∧
      reader.page_idx = t.columns.flatMap CSTableReader.openedKeys := by
  obtain ⟨file_size, rest, hread⟩ := readHeader_committed mem h hheader hcols
  obtain ⟨readers, hopen⟩ := CSTableReader.openColumnsV2_ok []
    (t.columns.map (stored mem)) fun c hc => by
      obtain ⟨c', hc', rfl⟩ := List.mem_map.mp hc
      exact htypes c' hc'
  rw [List.nil_append, List.flatMap_map] at hopen
  refine ⟨⟨.v0_2_0, t.columns.map (stored mem), readers.map ColumnReader.v2, t.num_rows, [],
    t.columns.flatMap CSTableReader.openedKeys⟩, ?_, rfl, rfl, rfl, rfl⟩
  unfold CSTableReader.openFile
  rw [hread, Result.ok_bind]
  dsimp only
  rw [hopen, Result.ok_bind]
  rfl

end CSTableWriter

end CStable
