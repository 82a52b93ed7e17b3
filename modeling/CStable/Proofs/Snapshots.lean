import CStable.Proofs.PagesKept

/-!
# `CStable.Proofs.Snapshots`: what a crash leaves of a v0.2.0 table with several commits

A commit of a v0.2.0 table writes the pages being filled, an index of all pages and the
metablock. The table may be written to and committed again: the file then grows behind the
pages of the commit before, and the pages that were being filled are written again with more
in them. So whatever is written up to the next metablock, the file shows the last commit:
its metablock, its index and every byte its index refers to (`Intact`).

* `Resting`: the table between two commits, when nothing is pending.
* `Resting.intact`: the writes of the next commit up to its metablock.
* `Resting.commit`: from one commit to the next.
-/

set_option autoImplicit false

namespace CStable

open Support v0_2_0

/-! ### The writes of a commit -/

namespace PageIndex

/-- What a page holds that the index of a store was written to. -/
def indexData (s : PageStore) (page : PageRef) : Bytes :=
  FileWrite.pageData page.size.toNat (indexPage s.indexBytes.length s.indexBytes)

/-- The write of the index of a store. -/
def indexPageWrite (s : PageStore) (page : PageRef) : FileWrite :=
  .page page.offset.toNat page.size.toNat (indexPage s.indexBytes.length s.indexBytes)

/-- The write of an index page, at its position. -/
theorem toWrite_indexPageWrite (s : PageStore) (page : PageRef) :
    (indexPageWrite s page).toWrite = ⟨page.offset.toNat, indexData s page⟩ := rfl

/-- The page writes of the loop over the registered writers. -/
def flushAll (writers : List UInt64PageWriter) (idx : List (PageIndexKey × Nat)) :
    List FileWrite :=
  idx.flatMap fun e => (writers[e.2]?.map UInt64PageWriter.flushWrites).getD []

/-- The pages that a commit writes are the current ones of the registered writers. Earlier pages
were written when they were full. -/
theorem mem_flushAll {writers : List UInt64PageWriter} {idx : List (PageIndexKey × Nat)}
    {u : FileWrite} : u ∈ flushAll writers idx ↔
      ∃ e ∈ idx, ∃ w, writers[e.2]? = some w ∧ u ∈ w.flushWrites := by
  unfold flushAll
  rw [List.mem_flatMap]
  refine exists_congr fun e => and_congr_right fun _ => ?_
  cases writers[e.2]? with
  | none => simp
  | some w => simp

/-- The loop over the registrations gives their pages as bytes, and its page writes follow each
other. -/
theorem writeEntries_ok {writers : List UInt64PageWriter} {idx : List (PageIndexKey × Nat)}
    {pm pm' : PageManager} {entries : List (PageIndexKey × Bytes)}
    (h : writeEntries writers pm idx = .ok (entries, pm')) :
    entries = (PageStore.registeredPages writers idx).map
        (fun e => (e.1, UInt64PageWriter.pageListBytes e.2)) ∧
      pm' = { pm with file := pm.file ++ flushAll writers idx } := by
  induction idx generalizing pm entries with
  | nil =>
    cases h
    rw [flushAll, List.flatMap_nil, List.append_nil]
    exact ⟨rfl, rfl⟩
  | cons entry rest ih =>
    obtain ⟨key, writer⟩ := entry
    unfold writeEntries at h
    cases hw : writers[writer]? with
    | none =>
      rw [hw] at h
      cases h
    | some w =>
      rw [hw] at h
      obtain ⟨⟨index, pm₁⟩, hindex, h⟩ := Result.bind_eq_ok.mp h
      obtain ⟨⟨pages, pm₂⟩, hflush, hret⟩ := Result.bind_eq_ok.mp hindex
      cases hret
      obtain ⟨⟨entries', pm₃⟩, hrest, hret⟩ := Result.bind_eq_ok.mp h
      cases hret
      -- the flush adds the page of this writer, the rest adds theirs
      obtain ⟨rfl, rfl⟩ := UInt64PageWriter.flushPages_ok hflush
      obtain ⟨rfl, rfl⟩ := ih hrest
      have hlisted : PageStore.registeredPages writers ((key, writer) :: rest) =
          (key, w.listed) :: PageStore.registeredPages writers rest :=
        List.filterMap_cons_some (by rw [hw]; rfl)
      have hcons : flushAll writers ((key, writer) :: rest) =
          w.flushWrites ++ flushAll writers rest := by
        unfold flushAll
        rw [List.flatMap_cons, hw]
        rfl
      rw [hcons, hlisted, List.map_cons, ← List.append_assoc]
      exact ⟨rfl, rfl⟩

/-- An index is written to a new page behind all others, and only where there is no old index
to be replaced. -/
theorem write_ok {s : PageStore} {head : Option PageRef} {page : PageRef} {pm' : PageManager}
    (h : write s head = .ok (page, pm')) :
    head = none ∧ page.offset = s.page_mgr.offset ∧
      page.offset.toNat + page.size.toNat < 2 ^ 63 ∧
      (∃ entries pm, writeEntries s.page_writers s.page_mgr s.page_idx = .ok (entries, pm)) ∧
      pm' = { s.page_mgr with
        file := s.page_mgr.file ++ (flushAll s.page_writers s.page_idx ++ [indexPageWrite s page])
        offset := s.page_mgr.offset + page.size.toUInt64 } := by
  obtain ⟨⟨entries, pm⟩, hentries, h⟩ := Result.bind_eq_ok.mp h
  dsimp only at h
  split_ifs at h with hempty
  cases head with
  | some old => cases h
  | none =>
    obtain ⟨pm₁, hwrite, h⟩ := Result.bind_eq_ok.mp h
    obtain ⟨_, hcheck, hret⟩ := Result.bind_eq_ok.mp h
    unfold RCHECK at hcheck
    split_ifs at hcheck with hused
    · rw [beq_iff_eq.mp hused] at hwrite
      obtain ⟨hpos, rfl⟩ := PageManager.writePage_eq_ok.mp hwrite
      cases hret
      obtain ⟨rfl, rfl⟩ := writeEntries_ok hentries
      have hbytes : ((PageStore.registeredPages s.page_writers s.page_idx).map
          fun e => (e.1, UInt64PageWriter.pageListBytes e.2)).flatMap entryBytes =
            s.indexBytes := List.flatMap_map _ _ _
      rw [hbytes] at hpos ⊢
      refine ⟨rfl, rfl, hpos.below, ⟨_, _, hentries⟩, ?_⟩
      rw [← List.append_assoc]
      rfl
    · cases hcheck

end PageIndex

/-! ### Regions that are kept -/

/-- What is apart from a range is apart from its beginning. -/
theorem disjoint_sub {o n len : Nat} {e : Extent} (h : Extent.Disjoint ⟨o, n⟩ e)
    (hlen : len ≤ n) : Extent.Disjoint ⟨o, len⟩ e := by
  unfold Extent.Disjoint Extent.stop at *
  dsimp only at *
  omega

/-- The file goes up to the end of what was written. An empty write has no end, and is
left out. -/
theorem Written.stop_le {file : List FileWrite} {e : Extent} (h : Written file e)
    (hlen : e.len ≠ 0) : e.stop ≤ (contents file).length := by
  obtain ⟨data, hmem⟩ := h
  obtain ⟨pre, post, rfl⟩ := List.append_of_mem hmem
  have hpage : contents (pre ++ .page e.start e.len data :: post) =
      applyWrites 0 (writeAt 0 (contents pre) e.start (FileWrite.pageData e.len data))
        (post.map FileWrite.toWrite) := contents_append pre _
  have hgrow := length_le_length_applyWrites 0
    (writeAt 0 (contents pre) e.start (FileWrite.pageData e.len data)) (post.map FileWrite.toWrite)
  have hwrite := length_writeAt 0 (contents pre) e.start (FileWrite.pageData e.len data)
    (by rw [FileWrite.length_pageData]; exact hlen)
  rw [FileWrite.length_pageData] at hwrite
  rw [hpage]
  unfold Extent.stop
  omega

/-- A region of the file that all later writes keep. It has to lie in the file already, or be
empty. -/
theorem readAt_contents_of_keeps {file ws : List FileWrite} {pos len : Nat}
    (hin : len = 0 ∨ pos + len ≤ (contents file).length)
    (hws : ∀ u ∈ ws, u.toWrite.Keeps pos (readAt (contents file) pos len)) :
    readAt (contents (file ++ ws)) pos len = readAt (contents file) pos len := by
  rcases hin with rfl | hin
  · rw [readAt, readAt, List.take_zero, List.take_zero]
  have hlen := length_readAt hin
  have hkeeps : ∀ w ∈ ws.map FileWrite.toWrite,
      w.Keeps pos (readAt (contents file) pos len) := by
    intro w hw
    obtain ⟨u, hu, rfl⟩ := List.mem_map.mp hw
    exact hws u hu
  have hstart : readAt (contents file) pos (readAt (contents file) pos len).length =
      readAt (contents file) pos len := by rw [hlen]
  have hkept := readAt_applyWrites_of_keeps (0 : UInt8) hstart hkeeps
  rw [hlen, ← contents_append] at hkept
  exact hkept

/-! ### Between two commits -/

namespace CSTableWriter

/-- The bytes a page writer has put on its current page. -/
def currentData (w : UInt64PageWriter) : Bytes := w.page_buf.take w.page.size.toNat

/-- A v0.2.0 table right after it was created or committed. Everything is in the file: the
pages being filled as well, and the index and the row count of the last commit. -/
structure Resting (header : Bytes) (t : CSTableWriter) : Prop where
  version : t.version = .v0_2_0
  writeHeader : v0_2_0.writeHeader t.columns = .ok header
  pm_version : t.pages.page_mgr.version = .v0_2_0
  position : t.pages.page_mgr.meta_block_position = kMetaBlockPosition
  size : t.pages.page_mgr.meta_block_size = kMetaBlockSize
  registered : ∀ i, i < t.pages.page_writers.length → ∃ key, (key, i) ∈ t.pages.page_idx
  current_txid : t.current_txid = 0
  since : t.pages.Since header.length t.pages.page_mgr.offset.toNat t.file t.pages.page_writers
  durable : ∀ w ∈ t.pages.page_writers, w.has_page = true →
    readAt (contents t.file) w.page.offset.toNat (currentData w).length = currentData w
  index : ∀ page, t.cur_idx_ptr = some page → PageIndex.indexPageWrite t.pages page ∈ t.file ∧
    page.extent.stop ≤ t.pages.page_mgr.offset.toNat ∧
    ∀ w ∈ t.pages.page_writers, w.has_page = true → w.page.extent.stop ≤ page.offset.toNat
  index_data : ∀ page, t.cur_idx_ptr = some page →
    readAt (contents t.file) page.offset.toNat page.size.toNat = PageIndex.indexData t.pages page
  slots : ∃ file_size, HasSlots t.columns ⟨none, t.cur_idx_ptr.map fun page =>
    ⟨1, t.num_rows, page.offset, page.size, file_size⟩⟩ (contents t.file)

/-- A file still has what the table had in its file: its metablocks, its index, and the pages
its index lists as far as they were used. -/
structure Intact (t : CSTableWriter) (file : Bytes) : Prop where
  slots : ∀ s, HasSlots t.columns s (contents t.file) → HasSlots t.columns s file
  index : ∀ page, t.cur_idx_ptr = some page →
    readAt file page.offset.toNat page.size.toNat =
      readAt (contents t.file) page.offset.toNat page.size.toNat
  pages : ∀ w ∈ t.pages.page_writers, ∀ p ∈ w.listed,
    readAt file p.1.offset.toNat (min p.2 p.1.size.toNat) =
      readAt (contents t.file) p.1.offset.toNat (min p.2 p.1.size.toNat)

/-- Right after a commit everything is as the commit left it. -/
theorem Intact.refl (t : CSTableWriter) : t.Intact (contents t.file) :=
  ⟨fun _ h => h, fun _ _ => rfl, fun _ _ _ _ => rfl⟩

variable {header : Bytes} {t : CSTableWriter}

/-- A page write that came later. -/
def Later (t : CSTableWriter) : FileWrite → Prop :=
  PageStore.Later t.pages.page_mgr.offset.toNat t.pages.page_writers

/-- The current page of a writer is one of its pages. -/
theorem Resting.page_mem {w : UInt64PageWriter} (hpage : w.has_page = true) :
    w.page ∈ w.allPages :=
  UInt64PageWriter.mem_allPages.mpr (Or.inr ⟨hpage, rfl⟩)

/-- Later writes stay behind the header, where the metablocks are. So a crash between two
commits leaves the slots alone. -/
theorem Resting.pagesFrom (h : Resting header t) {ws : List FileWrite}
    (hws : ∀ u ∈ ws, t.Later u) :
    PagesFrom header.length ws := by
  intro u hu
  have hlater := hws u hu
  cases u with
  | stream data => cases hlater
  | metablock pos data => cases hlater
  | page o n data =>
    refine ⟨o, n, data, rfl, ?_⟩
    rcases hlater with hbehind | ⟨v, hv, hpage, rfl, -, -⟩
    · exact Nat.le_trans h.since.start_le hbehind
    · exact (h.since.within v hv v.page (page_mem hpage)).1

/-- The data of the current page is the buffer, as far as the page goes. The buffer is never
cleared, and may be longer than the page. -/
theorem length_currentData (w : UInt64PageWriter) :
    (currentData w).length = min w.page_buf.length w.page.size.toNat := by
  rw [currentData, List.length_take, Nat.min_comm]

/-- A page that is written again begins with what was on it, since the buffer only grows. This
is why a commit may rewrite a page that an older index lists. -/
theorem begins_pageData {w : UInt64PageWriter} {data : Bytes} (h : w.page_buf <+: data) :
    currentData w <+: FileWrite.pageData w.page.size.toNat data := by
  unfold currentData FileWrite.pageData
  obtain ⟨rest, rfl⟩ := h
  rw [List.append_assoc, List.take_append]
  exact List.prefix_append _ _

/-- Later writes keep the pages the index lists: they go elsewhere, or to the current page with
the same data in front. -/
theorem Resting.keeps_listed (h : Resting header t) {w : UInt64PageWriter}
    (hw : w ∈ t.pages.page_writers) {p : PageRef × Nat} (hp : p ∈ w.listed) {u : FileWrite}
    (hu : t.Later u) :
    u.toWrite.Keeps p.1.offset.toNat
      (readAt (contents t.file) p.1.offset.toNat (min p.2 p.1.size.toNat)) := by
  have hall : p.1 ∈ w.allPages := w.map_listed ▸ List.mem_map_of_mem hp
  have hle : (readAt (contents t.file) p.1.offset.toNat (min p.2 p.1.size.toNat)).length ≤
      p.1.size.toNat := by
    rw [readAt, List.length_take]
    omega
  cases u with
  | stream data => cases hu
  | metablock pos data => cases hu
  | page o n data =>
    have hextent : (FileWrite.page o n data).toWrite.extent = ⟨o, n⟩ := by
      rw [FileWrite.toWrite, Write.extent, FileWrite.length_pageData]
    rcases hu with hbehind | ⟨v, hv, hpage, rfl, rfl, hbuf⟩
    · refine Or.inl (hextent ▸ Or.inl ?_)
      -- a page allocated later lies behind every page that is listed
      have hstop : p.1.offset.toNat + p.1.size.toNat ≤ t.pages.page_mgr.offset.toNat :=
        (h.since.within w hw p.1 hall).2
      show p.1.offset.toNat + (readAt _ _ _).length ≤ o
      omega
    · -- the page `v` was filling is written again: another page, or this one
      by_cases hcurrent : w.has_page = true ∧ p = (w.page, w.page_buf.length)
      · obtain ⟨hwpage, rfl⟩ := hcurrent
        obtain ⟨i, hi⟩ := List.mem_iff_getElem?.mp hw
        obtain ⟨j, hj⟩ := List.mem_iff_getElem?.mp hv
        by_cases hij : i = j
        · subst hij
          rw [hi] at hj
          cases hj
          refine Or.inr ⟨rfl, ?_⟩
          have hdata := h.durable w hw hwpage
          rw [length_currentData] at hdata
          rw [hdata]
          exact begins_pageData hbuf
        · exact Or.inl (hextent ▸ disjoint_sub (h.since.filled i j w v hi hj hij hwpage hpage) hle)
      · have hfinished : p ∈ w.pages := by
          unfold UInt64PageWriter.listed at hp
          split_ifs at hp with hwpage
          · rcases List.mem_append.mp hp with hfin | hcur
            · exact hfin
            · exact absurd ⟨hwpage, List.mem_singleton.mp hcur⟩ hcurrent
          · exact hp
        exact Or.inl (hextent ▸
          disjoint_sub (h.since.finished w hw v hv hpage p.1 (List.mem_map_of_mem hfinished)) hle)

/-- The pages the index lists are in the file, as far as they are used. The commit has written
all of them before the index. -/
theorem Resting.listed_in_file (h : Resting header t) {w : UInt64PageWriter}
    (hw : w ∈ t.pages.page_writers) {p : PageRef × Nat} (hp : p ∈ w.listed) :
    min p.2 p.1.size.toNat = 0 ∨
      p.1.offset.toNat + min p.2 p.1.size.toNat ≤ (contents t.file).length := by
  by_cases hzero : min p.2 p.1.size.toNat = 0
  · exact Or.inl hzero
  refine Or.inr ?_
  have hfinished : p ∈ w.pages →
      p.1.offset.toNat + min p.2 p.1.size.toNat ≤ (contents t.file).length := fun hfin => by
    have hsize : p.1.size.toNat ≠ 0 := by omega
    have hstop : p.1.offset.toNat + p.1.size.toNat ≤ (contents t.file).length :=
      (h.since.written w hw p hfin).stop_le hsize
    omega
  unfold UInt64PageWriter.listed at hp
  -- a listed page was finished, or is the current one, which the last commit flushed
  split_ifs at hp with hpage
  · rcases List.mem_append.mp hp with hfin | hcur
    · exact hfinished hfin
    · rw [List.mem_singleton] at hcur
      subst hcur
      have hlen := congrArg List.length (h.durable w hw hpage)
      rw [readAt, List.length_take, List.length_drop, length_currentData] at hlen
      dsimp only at hzero ⊢
      omega
  · exact hfinished hp

/-- Whatever is written up to the next metablock leaves the last commit as it is: the metablock,
the index page and every listed byte. -/
theorem Resting.intact (h : Resting header t) {ws : List FileWrite}
    (hws : ∀ u ∈ ws, t.Later u) :
    t.Intact (contents (t.file ++ ws)) where
  slots := fun s hs => hs.pages (headerSize_le h.writeHeader) (h.pagesFrom hws)
  index := by
    intro page hpage
    obtain ⟨hwritten, hstop, hbehind⟩ := h.index page hpage
    refine readAt_contents_of_keeps ?_ fun u hu => ?_
    · by_cases hsize : page.size.toNat = 0
      · exact Or.inl hsize
      · have hin : Written t.file page.extent := ⟨_, hwritten⟩
        exact Or.inr (hin.stop_le hsize)
    · have hlater := hws u hu
      have hle : (readAt (contents t.file) page.offset.toNat page.size.toNat).length ≤
          page.size.toNat := by
        rw [readAt, List.length_take]
        exact Nat.min_le_left _ _
      cases u with
      | stream data => cases hlater
      | metablock pos data => cases hlater
      | page o n data =>
        have hextent : (FileWrite.page o n data).toWrite.extent = ⟨o, n⟩ := by
          rw [FileWrite.toWrite, Write.extent, FileWrite.length_pageData]
        refine Or.inl (hextent ▸ disjoint_sub (n := page.size.toNat) ?_ hle)
        -- pages written later are behind the index page or were in front of it
        rcases hlater with hnew | ⟨v, hv, hvpage, rfl, rfl, -⟩
        · exact Or.inl (Nat.le_trans hstop hnew)
        · exact Or.inr (hbehind v hv hvpage)
  pages := fun w hw p hp =>
    readAt_contents_of_keeps (h.listed_in_file hw hp) fun u hu => h.keeps_listed hw hp (hws u hu)

/-! ### From one commit to the next -/

/-- What operations leave of a table that was at rest: a store whose pages came later, or a
writer that is stuck. -/
theorem Resting.after (h : Resting header t) (ops : List TableOp) :
    SameTable t (t.after ops) ∧ PageStore.SameIndex t.pages (t.after ops).pages ∧
      ((t.after ops).pages.SomeStuck ∨ (t.after ops).pages.Since header.length
        t.pages.page_mgr.offset.toNat t.file t.pages.page_writers) := by
  obtain ⟨hsame, hindex⟩ := after_spec (PageStore.preserves_sameIndex t.pages) ops t
  obtain ⟨-, hsince⟩ := after_spec (PageStore.keptByAppend_since header.length
    t.pages.page_mgr.offset.toNat t.file t.pages.page_writers).preserves ops t
  exact ⟨hsame, hindex (.refl _), hsince (Or.inr h.since)⟩

/-- A store whose index could be written has no writer that is stuck, because the index flushes
every writer. -/
theorem not_someStuck {s : PageStore} {entries : List (PageIndexKey × Bytes)} {pm : PageManager}
    (hreg : ∀ i, i < s.page_writers.length → ∃ key, (key, i) ∈ s.page_idx)
    (h : PageIndex.writeEntries s.page_writers s.page_mgr s.page_idx = .ok (entries, pm)) :
    ¬ s.SomeStuck := by
  rintro ⟨w, hw, hstuck⟩
  obtain ⟨i, hi⟩ := List.mem_iff_getElem?.mp hw
  obtain ⟨key, hkey⟩ := hreg i (List.getElem?_eq_some_iff.mp hi).1
  exact (PageIndex.writeEntries_spec h).not_stuck key i w hkey hi hstuck

/-- What a commit adds to a store: the pages being filled, the index page and the metablock. -/
structure CommitWrites (s s' : PageStore) (page : PageRef) (mb : Bytes) : Prop where
  page_offset : page.offset = s.page_mgr.offset
  below : page.offset.toNat + page.size.toNat < 2 ^ 63
  length : mb.length = kMetaBlockSize
  store : s' = { s with page_mgr := { s.page_mgr with
    file := s.page_mgr.file ++ (PageIndex.flushAll s.page_writers s.page_idx ++
      [PageIndex.indexPageWrite s page]) ++ [.metablock (slotOffset 1) mb]
    offset := s.page_mgr.offset + page.size.toUInt64 } }

section Commit

variable {s s' : PageStore} {page : PageRef} {mb : Bytes} {start limit : Nat}
  {base : List FileWrite} {snap : List UInt64PageWriter}

/-- A commit takes one page, for the index. The next allocation starts behind it. -/
theorem CommitWrites.offset (h : CommitWrites s s' page mb) :
    s'.page_mgr.offset.toNat = s.page_mgr.offset.toNat + page.size.toNat := by
  have hlt := h.below
  rw [h.page_offset] at hlt
  rw [h.store]
  show (s.page_mgr.offset + page.size.toUInt64).toNat = _
  rw [UInt64.toNat_add, UInt32.toNat_toUInt64]
  omega

/-- The page writes of a commit are later ones as well: the current pages, and a new page for
the index. -/
theorem CommitWrites.later (h : CommitWrites s s' page mb)
    (hs : s.Since start limit base snap) : ∀ u ∈ PageIndex.flushAll s.page_writers s.page_idx ++
      [PageIndex.indexPageWrite s page], PageStore.Later limit snap u := by
  intro u hu
  rcases List.mem_append.mp hu with hflush | hindex
  · obtain ⟨e, -, w, hw, hmem⟩ := PageIndex.mem_flushAll.mp hflush
    exact hs.later_flush hw u hmem
  · rw [List.mem_singleton] at hindex
    subst hindex
    refine Or.inl ?_
    rw [h.page_offset]
    exact hs.limit_le

/-- After a commit the store is in the state from which the next one counts. The snapshot is
taken anew. -/
theorem CommitWrites.since (h : CommitWrites s s' page mb)
    (hs : s.Since start limit base snap) :
    s'.Since start s'.page_mgr.offset.toNat s'.page_mgr.file s'.page_writers := by
  have hoffset := h.offset
  have hbelow := h.below
  rw [h.page_offset] at hbelow
  have hstart := hs.start_le
  have hlimit := hs.limit_le
  have hwriters : s'.page_writers = s.page_writers := by rw [h.store]
  refine ⟨by omega, by omega, Nat.le_refl _, fun w hw p hp => ?_, ?_, fun w hw p hp => ?_, ?_,
    fun i w hi hpage => Or.inr ⟨w, hi, hpage, rfl, List.prefix_refl _⟩,
    ⟨[], (List.append_nil _).symm, fun u hu => absurd hu List.not_mem_nil⟩⟩
  · obtain ⟨hlo, hhi⟩ := hs.within w (hwriters ▸ hw) p hp
    exact ⟨hlo, by omega⟩
  · rw [hwriters]
    exact hs.finished
  · rw [h.store]
    exact ((hs.written w (hwriters ▸ hw) p hp).append _).append _
  · rw [hwriters]
    exact hs.filled

/-- The writes of a commit keep a page being filled: the flush of another page, the index page
and the metablock lie elsewhere, and its own flush writes the same bytes. -/
theorem CommitWrites.keeps_current (h : CommitWrites s s' page mb)
    (hs : s.Since start limit base snap) (hstart : slotOffset 1 + kMetaBlockSize ≤ start)
    {w : UInt64PageWriter} {i : Nat} (hi : s.page_writers[i]? = some w) (hpage : w.has_page = true)
    {u : FileWrite} (hu : u ∈ PageIndex.flushAll s.page_writers s.page_idx ++
      [PageIndex.indexPageWrite s page, .metablock (slotOffset 1) mb]) :
    u.toWrite.Keeps w.page.offset.toNat (currentData w) := by
  obtain ⟨hlo, hhi⟩ := hs.within w (List.mem_of_getElem? hi) w.page (Resting.page_mem hpage)
  have hle : (currentData w).length ≤ w.page.size.toNat := by
    rw [length_currentData]
    exact Nat.min_le_right _ _
  rcases List.mem_append.mp hu with hflush | hlast
  · obtain ⟨e, -, v, hv, hmemv⟩ := PageIndex.mem_flushAll.mp hflush
    obtain ⟨hvpage, rfl⟩ := UInt64PageWriter.mem_flushWrites.mp hmemv
    -- the flush of this writer, or that of another one, whose page is another
    by_cases hij : i = e.2
    · subst hij
      rw [hi] at hv
      cases hv
      exact Or.inr ⟨rfl, begins_pageData (List.prefix_refl _)⟩
    · have hextent : (FileWrite.page v.page.offset.toNat v.page.size.toNat
          v.page_buf).toWrite.extent = v.page.extent := by
        rw [FileWrite.toWrite, Write.extent, FileWrite.length_pageData]
        rfl
      exact Or.inl (hextent ▸ disjoint_sub (hs.filled i e.2 w v hi hv hij hpage hvpage) hle)
  · have hstop : w.page.offset.toNat + w.page.size.toNat ≤ s.page_mgr.offset.toNat := hhi
    rcases List.mem_cons.mp hlast with rfl | hmeta
    · refine Or.inl (Or.inl ?_)
      show w.page.offset.toNat + (currentData w).length ≤ page.offset.toNat
      rw [h.page_offset]
      omega
    · rw [List.mem_singleton] at hmeta
      subst hmeta
      refine Or.inl (Or.inr ?_)
      show slotOffset 1 + mb.length ≤ w.page.offset.toNat
      rw [h.length]
      omega

/-- After a commit the pages being filled are in the file: the index flushed them, and what was
written after that went elsewhere. -/
theorem CommitWrites.durable (h : CommitWrites s s' page mb)
    (hs : s.Since start limit base snap) (hstart : slotOffset 1 + kMetaBlockSize ≤ start)
    (hreg : ∀ i, i < s.page_writers.length → ∃ key, (key, i) ∈ s.page_idx) :
    ∀ w ∈ s.page_writers, w.has_page = true →
      readAt (contents s'.page_mgr.file) w.page.offset.toNat (currentData w).length =
        currentData w := by
  intro w hw hpage
  obtain ⟨i, hi⟩ := List.mem_iff_getElem?.mp hw
  obtain ⟨key, hkey⟩ := hreg i (List.getElem?_eq_some_iff.mp hi).1
  have hflush : .page w.page.offset.toNat w.page.size.toNat w.page_buf ∈
      PageIndex.flushAll s.page_writers s.page_idx :=
    PageIndex.mem_flushAll.mpr ⟨_, hkey, w, hi, UInt64PageWriter.mem_flushWrites.mpr ⟨hpage, rfl⟩⟩
  obtain ⟨pre, post, hsplit⟩ := List.append_of_mem hflush
  have hle : (currentData w).length ≤ w.page.size.toNat := by
    rw [length_currentData]
    exact Nat.min_le_right _ _
  -- the page is written; what is written after it goes elsewhere or is the same page again
  have hfile : s'.page_mgr.file = (s.page_mgr.file ++ pre) ++
      .page w.page.offset.toNat w.page.size.toNat w.page_buf :: (post ++
        [PageIndex.indexPageWrite s page, .metablock (slotOffset 1) mb]) := by
    rw [h.store]
    show s.page_mgr.file ++ (PageIndex.flushAll s.page_writers s.page_idx ++ _) ++ _ = _
    rw [hsplit]
    simp only [List.append_assoc, List.cons_append, List.nil_append]
  have hpageData := readAt_writeAt 0 (contents (s.page_mgr.file ++ pre)) w.page.offset.toNat
    (FileWrite.pageData w.page.size.toNat w.page_buf)
  have hwritten : readAt (writeAt 0 (contents (s.page_mgr.file ++ pre)) w.page.offset.toNat
      (FileWrite.pageData w.page.size.toNat w.page_buf)) w.page.offset.toNat
      (currentData w).length = currentData w := by
    rw [FileWrite.length_pageData] at hpageData
    rw [← take_readAt hle, hpageData]
    exact (List.prefix_iff_eq_take.mp (begins_pageData (List.prefix_refl _))).symm
  rw [hfile, contents_append, List.map_cons, applyWrites_cons]
  refine readAt_applyWrites_of_keeps 0 hwritten fun later hlater => ?_
  obtain ⟨u, hu, rfl⟩ := List.mem_map.mp hlater
  refine h.keeps_current hs hstart hi hpage ?_
  rcases List.mem_append.mp hu with hpost | hlast
  · refine List.mem_append_left _ ?_
    rw [hsplit]
    exact List.mem_append_right _ (List.mem_cons_of_mem _ hpost)
  · exact List.mem_append_right _ hlast

/-- The metablock leaves the index page as it is, since it lies in the header. The index page
was written just before it. -/
theorem CommitWrites.index_data (h : CommitWrites s s' page mb)
    (hstart : slotOffset 1 + kMetaBlockSize ≤ s.page_mgr.offset.toNat) :
    readAt (contents s'.page_mgr.file) page.offset.toNat page.size.toNat =
      PageIndex.indexData s page := by
  have hlen : (PageIndex.indexData s page).length = page.size.toNat :=
    FileWrite.length_pageData _ _
  have hfile : s'.page_mgr.file = (s.page_mgr.file ++
      PageIndex.flushAll s.page_writers s.page_idx) ++
        [PageIndex.indexPageWrite s page, .metablock (slotOffset 1) mb] := by
    rw [h.store]
    show s.page_mgr.file ++ (PageIndex.flushAll s.page_writers s.page_idx ++ _) ++ _ = _
    simp only [List.append_assoc, List.cons_append, List.nil_append]
  rw [hfile, contents_append, List.map_cons, applyWrites_cons, ← hlen,
    PageIndex.toWrite_indexPageWrite]
  refine readAt_applyWrites_of_keeps 0 (readAt_writeAt 0 _ _ _) fun later hlater => ?_
  rw [List.map_singleton, List.mem_singleton] at hlater
  subst hlater
  refine Or.inl (Or.inr ?_)
  show slotOffset 1 + mb.length ≤ page.offset.toNat
  rw [h.length, h.page_offset]
  exact hstart

/-- The index of a store does not depend on its page manager. -/
theorem CommitWrites.indexPageWrite_eq (h : CommitWrites s s' page mb) :
    PageIndex.indexPageWrite s' page = PageIndex.indexPageWrite s page := by
  rw [h.store]
  rfl

/-- Neither does the data of its page. -/
theorem CommitWrites.indexData_eq (h : CommitWrites s s' page mb) :
    PageIndex.indexData s' page = PageIndex.indexData s page := by
  rw [h.store]
  rfl

/-- The writes of a commit come behind those that were made since the last one, and the metablock
is the last of all. -/
theorem CommitWrites.file_eq (h : CommitWrites s s' page mb) {ws : List FileWrite}
    (hfile : s.page_mgr.file = base ++ ws) :
    s'.page_mgr.file = base ++ ((ws ++ (PageIndex.flushAll s.page_writers s.page_idx ++
      [PageIndex.indexPageWrite s page])) ++ [.metablock (slotOffset 1) mb]) := by
  rw [h.store]
  show s.page_mgr.file ++ _ ++ _ = _
  rw [hfile]
  simp only [List.append_assoc]

/-- The index page is one of the writes of the commit. -/
theorem CommitWrites.index_mem (h : CommitWrites s s' page mb) :
    PageIndex.indexPageWrite s' page ∈ s'.page_mgr.file := by
  rw [h.indexPageWrite_eq, h.store]
  exact List.mem_append_left _ (List.mem_append_right _ (List.mem_append_right _
    List.mem_cons_self))

/-- What is allocated after the commit lies behind its index page. -/
theorem CommitWrites.index_stop (h : CommitWrites s s' page mb) :
    page.extent.stop ≤ s'.page_mgr.offset.toNat := by
  refine Nat.le_of_eq ?_
  rw [h.offset, ← h.page_offset]
  rfl

/-- The current pages of the writers lie in front of the index page, which was allocated after
them. -/
theorem CommitWrites.pages_stop (h : CommitWrites s s' page mb)
    (hs : s.Since start limit base snap) :
    ∀ w ∈ s'.page_writers, w.has_page = true → w.page.extent.stop ≤ page.offset.toNat := by
  intro w hw hpage
  rw [h.store] at hw
  rw [h.page_offset]
  exact (hs.within w hw w.page (UInt64PageWriter.mem_allPages.mpr (Or.inr ⟨hpage, rfl⟩))).2

end Commit

/-- The metablocks lie inside the header. The columns are described behind them, and the padding
behind those. -/
theorem slots_in_header {columns : List ColumnConfig} {header : Bytes}
    (h : v0_2_0.writeHeader columns = .ok header) :
    slotOffset 1 + kMetaBlockSize ≤ header.length := by
  have hle := headerSize_le h
  have hlayout : slotOffset 1 + kMetaBlockSize ≤ headerSize columns := by
    unfold headerSize layout slotOffset
    simp only [List.length_append, length_prelude, length_emptySlot]
    omega
  omega

/-- What a commit changes. It succeeds only while there is no index before the last one: with a
free index page `PageIndex::write` raises. -/
theorem commit_v2_ok {u t' : CSTableWriter} {mem : Uninit} (hversion : u.version = .v0_2_0)
    (hpm : u.pages.page_mgr.version = .v0_2_0)
    (hposition : u.pages.page_mgr.meta_block_position = kMetaBlockPosition)
    (hsize : u.pages.page_mgr.meta_block_size = kMetaBlockSize) (htx : u.current_txid = 0)
    (h : u.commit mem = .ok t') : u.free_idx_ptr = none ∧
      (∃ entries pm, PageIndex.writeEntries u.pages.page_writers u.pages.page_mgr
        u.pages.page_idx = .ok (entries, pm)) ∧
      ∃ page file_size, CommitWrites u.pages t'.pages page
          (writeMetaBlock ⟨1, u.num_rows, page.offset, page.size, file_size⟩) ∧
        t' = { u with
          pages := t'.pages
          free_idx_ptr := u.cur_idx_ptr
          cur_idx_ptr := some page } := by
  have hv2 : u.commitV2 = .ok t' := by
    rw [CSTableWriter.commit, hversion] at h
    exact h
  obtain ⟨⟨page, pm⟩, hwrite, h⟩ := Result.bind_eq_ok.mp hv2
  obtain ⟨pm', htrans, hret⟩ := Result.bind_eq_ok.mp h
  obtain ⟨hfree, hoffset, hbelow, hentries, hwritten⟩ := PageIndex.write_ok hwrite
  -- every commit of the writer has the transaction id one
  have hmb : u.newMetaBlock page pm = ⟨1, u.num_rows, page.offset, page.size, pm.getOffset⟩ := by
    unfold newMetaBlock
    rw [htx]
    rfl
  rw [hmb, writeTransaction_eq (by rw [hwritten]; exact hpm) (by rw [hwritten]; exact hposition)
    (by rw [hwritten]; exact hsize)] at htrans
  cases htrans
  cases hret
  refine ⟨hfree, hentries, page, pm.getOffset,
    ⟨hoffset, hbelow, length_writeMetaBlock _, ?_⟩, rfl⟩
  rw [hwritten]
  rfl

/-- From one commit to the next: the table is at rest again, and before the metablock only
pages were written. -/
theorem Resting.commit (h : Resting header t) {t' : CSTableWriter} {mem : Uninit}
    {ops : List TableOp} (hcommit : (t.after ops).commit mem = .ok t') :
    t.free_idx_ptr = none ∧ t'.free_idx_ptr = t.cur_idx_ptr ∧ t'.cur_idx_ptr ≠ none ∧
      t'.columns = t.columns ∧ Resting header t' ∧
      ∃ ws mb, t'.file = t.file ++ (ws ++ [.metablock (slotOffset 1) mb]) ∧
        ∀ u ∈ ws, t.Later u := by
  obtain ⟨hsame, hindex, hstate⟩ := h.after ops
  generalize t.after ops = u at hsame hindex hstate hcommit
  obtain ⟨hfree, ⟨entries, pm, hentries⟩, page, file_size, hwrites, ht'⟩ :=
    commit_v2_ok (hsame.version.trans h.version) (hindex.version.trans h.pm_version)
      (hindex.position.trans h.position) (hindex.size.trans h.size)
      (hsame.current_txid.trans h.current_txid) hcommit
  have hreg : ∀ i, i < u.pages.page_writers.length → ∃ key, (key, i) ∈ u.pages.page_idx := by
    rw [hindex.length, hindex.page_idx]
    exact h.registered
  have hs := hstate.resolve_left (not_someStuck hreg hentries)
  have hwriters : t'.pages.page_writers = u.pages.page_writers := by rw [hwrites.store]
  obtain ⟨ws, hfile, hws⟩ := hs.file
  have hlater : ∀ v ∈ ws ++ (PageIndex.flushAll u.pages.page_writers u.pages.page_idx ++
      [PageIndex.indexPageWrite u.pages page]), t.Later v := fun v hv =>
    (List.mem_append.mp hv).elim (hws v) (hwrites.later hs v)
  have hfile' := hwrites.file_eq hfile
  -- the slot the metablock goes to
  obtain ⟨old_size, hold⟩ := h.slots
  have hslot := (hold.pages (headerSize_le h.writeHeader) (h.pagesFrom hlater)).slot 1
    (length_writeMetaBlock ⟨1, u.num_rows, page.offset, page.size, file_size⟩)
  rw [slotBlock_writeMetaBlock] at hslot
  have hcolumns : t'.columns = t.columns := by
    rw [ht']
    exact hsame.columns
  have hcur : t'.cur_idx_ptr = some page := by rw [ht']
  refine ⟨hsame.free_idx_ptr ▸ hfree, ?_, ?_, hcolumns, ?_, _, _, hfile', hlater⟩
  · rw [ht']
    exact hsame.cur_idx_ptr
  · rw [hcur]
    exact Option.some_ne_none page
  have hpage_mgr := congrArg PageStore.page_mgr hwrites.store
  exact
    { version := by rw [ht']; exact hsame.version.trans h.version
      writeHeader := hcolumns ▸ h.writeHeader
      pm_version := by rw [hpage_mgr]; exact hindex.version.trans h.pm_version
      position := by rw [hpage_mgr]; exact hindex.position.trans h.position
      size := by rw [hpage_mgr]; exact hindex.size.trans h.size
      registered := by
        have hidx : t'.pages.page_idx = u.pages.page_idx := by rw [hwrites.store]
        rw [hwriters, hidx]
        exact hreg
      current_txid := by rw [ht']; exact hsame.current_txid.trans h.current_txid
      since := hwrites.since hs
      durable := by
        rw [hwriters]
        exact hwrites.durable hs (slots_in_header h.writeHeader) hreg
      index := fun page' hpage' => by
        rw [hcur] at hpage'
        cases hpage'
        exact ⟨hwrites.index_mem, hwrites.index_stop, hwrites.pages_stop hs⟩
      index_data := fun page' hpage' => by
        rw [hcur] at hpage'
        cases hpage'
        rw [hwrites.indexData_eq]
        refine hwrites.index_data ?_
        have hheader := slots_in_header h.writeHeader
        have hstart := hs.start_le
        have hlimit := hs.limit_le
        omega
      slots := by
        refine ⟨file_size, ?_⟩
        have hrows : t'.num_rows = u.num_rows := by rw [ht']
        rw [hcur, hrows, hcolumns, CSTableWriter.file, hfile', ← List.append_assoc, contents_append]
        exact hslot }

end CSTableWriter

end CStable
