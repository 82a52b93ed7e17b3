import CStable.Proofs.Store

/-!
# `CStable.Proofs.IndexPage`: the index page of a commit, read back

The source has no reader for index pages; their format is described in
`cstable.h`. `readIndexPage` reads a page by that description: the entries up to
the used bytes, back to back.

* `PageIndex.write_decodes`: the page `PageIndex::write` returns holds one entry for
  each registered writer, in the order they were registered, with the pages of the
  writer. It fails exactly where one of the page writes does: at positions the kernel
  does not take, and for an index page of `2 ^ 31` bytes or more, whose count does not
  fit the `int` of `File::pwrite`.
* `PageIndex.not_write_decodes_long_index`: an index of three gigabytes is such a page.
-/

set_option autoImplicit false

namespace CStable

open Support Support.Parser

/-! ### The format -/

/-- An entry of an index page: for each page its offset, its size and the bytes
used. -/
structure IndexEntry where
  entry_type : Nat
  column_id : Nat
  pages : List (Nat × Nat × Nat)
  deriving DecidableEq, Repr

/-- An index page. -/
structure IndexPage where
  next_offset : Nat
  next_size : Nat
  used : Nat
  entries : List IndexEntry
  deriving DecidableEq, Repr

/-- The page of an entry. -/
def readEntryPage : Read (Nat × Nat × Nat) := do
  let offset ← readVarUInt
  let size ← readVarUInt
  let used ← readVarUInt
  pure (offset, size, used)

/-- `<index_entry>`. -/
def readIndexEntry : Read IndexEntry := do
  let entry_type ← readVarUInt
  let column_id ← readVarUInt
  let num_pages ← readVarUInt
  let pages ← repeatN readEntryPage num_pages
  pure ⟨entry_type, column_id, pages⟩

/-- `<index_page>`. -/
def readIndexPage : Read IndexPage := do
  let next_offset ← readUInt64
  let next_size ← readUInt32
  let used ← readUInt32
  let data ← readString used
  let entries ← liftM (readAll readIndexEntry kUnexpectedEnd data.length data)
  pure ⟨next_offset, next_size, used, entries⟩

/-- The entry for a key and a page list. -/
def indexEntry (e : PageIndexKey × List (PageRef × Nat)) : IndexEntry where
  entry_type := e.1.entry_type.code.toNat
  column_id := e.1.column_id.toNat
  pages := e.2.map fun p => (p.1.offset.toNat, p.1.size.toNat, p.2)

/-! ### One entry -/

/-- The bytes of one page in a page list. -/
def pageBytes (p : PageRef × Nat) : Bytes :=
  appendVarUInt p.1.offset.toNat ++ appendVarUInt p.1.size.toNat ++ appendVarUInt p.2

/-- The bytes of a key and a page list in the index. -/
def keyedBytes (e : PageIndexKey × List (PageRef × Nat)) : Bytes :=
  PageIndex.entryBytes (e.1, UInt64PageWriter.pageListBytes e.2)

/-- An entry of the index takes at least one byte. The bound on the number of entries in a page
rests on this. -/
theorem keyedBytes_ne_nil (e : PageIndexKey × List (PageRef × Nat)) : keyedBytes e ≠ [] := by
  intro hnil
  unfold keyedBytes PageIndex.entryBytes at hnil
  rw [List.append_assoc] at hnil
  exact appendVarUInt_ne_nil _ (List.append_eq_nil_iff.mp hnil).1

/-- One page of an entry is read back: offset, size and the bytes in use. The offset and the
size fit by their types, the bytes in use need the bound. -/
theorem parses_readEntryPage {p : PageRef × Nat} (hused : p.2 < 2 ^ 64) :
    Parses readEntryPage (pageBytes p) (p.1.offset.toNat, p.1.size.toNat, p.2) := by
  have hsize : p.1.size.toNat < 2 ^ 64 := lt_trans p.1.size.toNat_lt (by norm_num)
  unfold pageBytes
  rw [List.append_assoc]
  refine (parses_readVarUInt p.1.offset.toNat_lt).bind ?_
  refine (parses_readVarUInt hsize).bind ?_
  exact (parses_readVarUInt hused).bind_pure rfl

/-- An entry is read back with its key and all its pages, in their order. -/
theorem parses_readIndexEntry {e : PageIndexKey × List (PageRef × Nat)}
    (hcount : e.2.length < 2 ^ 64) (hused : ∀ p ∈ e.2, p.2 < 2 ^ 64) :
    Parses readIndexEntry (keyedBytes e) (indexEntry e) := by
  have htype : e.1.entry_type.code.toNat < 2 ^ 64 :=
    lt_trans e.1.entry_type.code.toNat_lt (by norm_num)
  have hid : e.1.column_id.toNat < 2 ^ 64 := lt_trans e.1.column_id.toNat_lt (by norm_num)
  have hpages := Parses.repeatN (fun p : PageRef × Nat => (p.1.offset.toNat, p.1.size.toNat, p.2))
    e.2 fun p hp => parses_readEntryPage (hused p hp)
  unfold keyedBytes PageIndex.entryBytes UInt64PageWriter.pageListBytes
  rw [List.append_assoc]
  refine (parses_readVarUInt htype).bind ?_
  refine (parses_readVarUInt hid).bind ?_
  refine (parses_readVarUInt hcount).bind ?_
  exact hpages.bind_pure rfl

/-- A page list has no more pages than its entry has bytes. -/
theorem length_le_length_keyedBytes (e : PageIndexKey × List (PageRef × Nat)) :
    e.2.length ≤ (keyedBytes e).length := by
  have hpage : ∀ ps : List (PageRef × Nat), ps.length ≤ (ps.flatMap pageBytes).length := by
    intro ps
    induction ps with
    | nil => exact Nat.le_refl _
    | cons p ps ih =>
      have hpos : 0 < (appendVarUInt p.2).length :=
        List.length_pos_of_ne_nil (appendVarUInt_ne_nil p.2)
      rw [List.flatMap_cons, List.length_append, List.length_cons, pageBytes,
        List.length_append]
      omega
  have hsplit : keyedBytes e = (appendVarUInt e.1.entry_type.code.toNat ++
      appendVarUInt e.1.column_id.toNat) ++
        (appendVarUInt e.2.length ++ e.2.flatMap pageBytes) := rfl
  rw [hsplit, List.length_append]
  refine le_trans (hpage e.2) (le_trans ?_ (Nat.le_add_left _ _))
  rw [List.length_append]
  exact Nat.le_add_left _ _

/-! ### The page -/

/-- The bytes of an index page with entries that fit are read as these entries. The length in
front says where they end, and the padding is not read. -/
theorem readIndexPage_indexPage {es : List (PageIndexKey × List (PageRef × Nat))}
    (hlen : (es.flatMap keyedBytes).length < 2 ^ 32) (hused : ∀ e ∈ es, ∀ p ∈ e.2, p.2 < 2 ^ 64) :
    Parses readIndexPage
      (PageIndex.indexPage (es.flatMap keyedBytes).length (es.flatMap keyedBytes))
      ⟨0, 0, (es.flatMap keyedBytes).length, es.map indexEntry⟩ := by
  have hparse : ∀ e ∈ es, Parses readIndexEntry (keyedBytes e) (indexEntry e) := by
    intro e he
    have hle : (keyedBytes e).length ≤ (es.flatMap keyedBytes).length :=
      (List.sublist_flatten_of_mem (List.mem_map_of_mem he)).length_le
    have hcount := length_le_length_keyedBytes e
    exact parses_readIndexEntry (by omega) (hused e he)
  have hall := readAll_flatMap indexEntry kUnexpectedEnd es hparse
    (fun e _ => keyedBytes_ne_nil e) (Nat.le_refl _)
  unfold PageIndex.indexPage
  rw [List.take_length, List.append_assoc, List.append_assoc]
  refine (parses_readUInt64 (by norm_num)).bind ?_
  refine (parses_readUInt32 (by norm_num)).bind ?_
  refine (parses_readUInt32 hlen).bind ?_
  refine (parses_readString _).bind_nil ?_
  exact (Parses.lift hall).bind_pure rfl

/-- A key and a page list are determined by their entry. So two indexes that read alike
are one. -/
theorem indexEntry_injective : Function.Injective indexEntry := by
  rintro ⟨⟨id, type⟩, pages⟩ ⟨⟨id', type'⟩, pages'⟩ h
  have htype : type.code.toNat = type'.code.toNat := congrArg IndexEntry.entry_type h
  have hid : id.toNat = id'.toNat := congrArg IndexEntry.column_id h
  have hpages := congrArg IndexEntry.pages h
  have hpage : Function.Injective
      fun p : PageRef × Nat => (p.1.offset.toNat, p.1.size.toNat, p.2) := by
    rintro ⟨⟨o, n⟩, u⟩ ⟨⟨o', n'⟩, u'⟩ hp
    simp only [Prod.mk.injEq] at hp
    rw [UInt64.toNat_inj.mp hp.1, UInt32.toNat_inj.mp hp.2.1, hp.2.2]
  have hcode : type = type' := by
    cases type <;> cases type' <;> first | rfl | cases htype
  have hlist : pages = pages' := List.map_injective_iff.mpr hpage hpages
  rw [hcode, UInt32.toNat_inj.mp hid, hlist]

/-! ### Writing it -/

/-- The exception of a `File::pwrite` that does not return: the kernel does not take
the position, or the count does not fit an `int`. -/
def kWriteFailed : Abort := .raised ⟨.kIOError, "write(%i) failed", []⟩

namespace UInt64PageWriter

/-- The pages `writeIndex` lists: the finished ones and the current one. -/
def listed (w : UInt64PageWriter) : List (PageRef × Nat) :=
  if w.has_page then w.pages ++ [(w.page, w.page_buf.length)] else w.pages

/-- The current page, if there is one, can be written. -/
def Writable (w : UInt64PageWriter) : Prop :=
  w.has_page = true → PageManager.FitsPwrite w.page.offset.toNat w.page.size.toNat

/-- `flushPages` lists all pages, or the kernel refuses the current one. -/
theorem flushPages_eq (w : UInt64PageWriter) (pm : PageManager) :
    (w.Writable → ∃ ws, w.flushPages pm = .ok (w.listed, { pm with file := pm.file ++ ws })) ∧
      (¬ w.Writable → w.flushPages pm = .error kWriteFailed) := by
  unfold flushPages listed Writable
  cases hpage : w.has_page with
  | false =>
    refine ⟨fun _ => ⟨[], ?_⟩, fun h => absurd (fun hp => absurd hp Bool.false_ne_true) h⟩
    rw [if_neg Bool.false_ne_true, if_neg Bool.false_ne_true, List.append_nil]
  | true =>
    rw [if_pos rfl, if_pos rfl]
    constructor
    · intro hpos
      exact ⟨_, Result.bind_eq_ok.mpr ⟨_, PageManager.writePage_eq_ok.mpr ⟨hpos rfl, rfl⟩, rfl⟩⟩
    · intro hpos
      have hfits : ¬ PageManager.FitsPwrite w.page.offset.toNat w.page.size.toNat :=
        fun h => hpos fun _ => h
      unfold PageManager.writePageRef PageManager.writePage
      rw [PageManager.pwrite_eq_error pm _ hfits]
      rfl

end UInt64PageWriter

namespace PageStore

/-- The registered keys with the pages of their writers, in the order of their
registration. -/
def registeredPages (writers : List UInt64PageWriter) (idx : List (PageIndexKey × Nat)) :
    List (PageIndexKey × List (PageRef × Nat)) :=
  idx.filterMap fun e => writers[e.2]?.map fun w => (e.1, w.listed)

/-- The bytes of the index. -/
def indexBytes (s : PageStore) : Bytes :=
  (registeredPages s.page_writers s.page_idx).flatMap keyedBytes

/-- The size of the page for an index of `len` bytes. -/
def indexPageSize (len : Nat) : Nat :=
  padToNextSector (max PageIndex.kIndexPageSize (len + PageIndex.kIndexPageOverhead))

/-- The padded page stays below `2 ^ 31` bytes exactly for an index that is shorter than
that by the overhead and the rest of a sector. -/
theorem indexPageSize_lt_iff {len : Nat} : indexPageSize len < 2 ^ 31 ↔ len < 2 ^ 31 - 527 := by
  unfold indexPageSize padToNextSector kSectorSize PageIndex.kIndexPageSize
    PageIndex.kIndexPageOverhead
  omega

/-- All pages that go with an index can be written: the current pages of the writers, and
the page of the index at its position and with its length. -/
structure IndexWritable (s : PageStore) : Prop where
  current : ∀ e ∈ s.page_idx, ∀ w, s.page_writers[e.2]? = some w → w.Writable
  position : s.page_mgr.offset.toNat + indexPageSize s.indexBytes.length < 2 ^ 63
  length : s.indexBytes.length < 2 ^ 31 - 527

/-- The two bounds on the index are what its one `File::pwrite` asks for. -/
theorem indexWritable_iff {s : PageStore} : s.IndexWritable ↔
    (∀ e ∈ s.page_idx, ∀ w, s.page_writers[e.2]? = some w → w.Writable) ∧
      PageManager.FitsPwrite s.page_mgr.offset.toNat (indexPageSize s.indexBytes.length) := by
  constructor
  · intro h
    exact ⟨h.current, h.position, indexPageSize_lt_iff.mpr h.length⟩
  · rintro ⟨hcurrent, hfits⟩
    exact ⟨hcurrent, hfits.below, indexPageSize_lt_iff.mp hfits.count⟩

end PageStore

namespace PageIndex

open PageStore

/-- The loop over the registered writers: the pages of all of them, or the
exception of the first current page the kernel refuses. -/
theorem writeEntries_eq {writers : List UInt64PageWriter} {idx : List (PageIndexKey × Nat)}
    (hreg : ∀ e ∈ idx, e.2 < writers.length) (pm : PageManager) :
    ((∀ e ∈ idx, ∀ w, writers[e.2]? = some w → w.Writable) →
      ∃ ws, writeEntries writers pm idx =
        .ok ((registeredPages writers idx).map fun e => (e.1, UInt64PageWriter.pageListBytes e.2),
          { pm with file := pm.file ++ ws })) ∧
      (¬ (∀ e ∈ idx, ∀ w, writers[e.2]? = some w → w.Writable) →
        writeEntries writers pm idx = .error kWriteFailed) := by
  induction idx generalizing pm with
  | nil =>
    refine ⟨fun _ => ⟨[], ?_⟩, fun h => absurd (fun e he => absurd he List.not_mem_nil) h⟩
    rw [List.append_nil]
    rfl
  | cons entry idx ih =>
    obtain ⟨key, i⟩ := entry
    have hi : i < writers.length := hreg (key, i) List.mem_cons_self
    have hw : writers[i]? = some writers[i] := List.getElem?_eq_getElem hi
    have htail := fun pm => ih (fun e he => hreg e (List.mem_cons_of_mem _ he)) pm
    have hlisted : registeredPages writers ((key, i) :: idx) =
        (key, writers[i].listed) :: registeredPages writers idx :=
      List.filterMap_cons_some (by rw [hw]; rfl)
    obtain ⟨hok, hfail⟩ := UInt64PageWriter.flushPages_eq writers[i] pm
    unfold writeEntries
    rw [hw]
    dsimp only
    constructor
    · intro hall
      obtain ⟨ws, hflush⟩ := hok (hall (key, i) List.mem_cons_self _ hw)
      obtain ⟨us, hrest⟩ := (htail { pm with file := pm.file ++ ws }).1
        fun e he => hall e (List.mem_cons_of_mem _ he)
      refine ⟨ws ++ us, ?_⟩
      rw [UInt64PageWriter.writeIndex, hflush, Result.ok_bind]
      dsimp only
      rw [Result.pure_eq, Result.ok_bind]
      dsimp only
      rw [hrest, hlisted, Result.ok_bind, List.map_cons, ← List.append_assoc]
    · intro hnot
      by_cases hpos : writers[i].Writable
      · -- this page is written, so the one that is refused comes later
        obtain ⟨ws, hflush⟩ := hok hpos
        have hrest := (htail { pm with file := pm.file ++ ws }).2 fun hall => hnot fun e he => by
          rcases List.mem_cons.mp he with rfl | hmem
          · intro w hw'
            rw [hw] at hw'
            cases hw'
            exact hpos
          · exact hall e hmem
        rw [UInt64PageWriter.writeIndex, hflush, Result.ok_bind]
        dsimp only
        rw [Result.pure_eq, Result.ok_bind]
        dsimp only
        rw [hrest]
        rfl
      · -- the kernel refuses the page of this writer
        rw [UInt64PageWriter.writeIndex, hfail hpos]
        rfl

/-- The page of the file holds the entries, by the documented format. -/
structure Decodes (file : List FileWrite) (page : PageRef)
    (entries : List (PageIndexKey × List (PageRef × Nat))) : Prop where
  read : ∃ p rest, readIndexPage
      (readAt (contents file) page.offset.toNat page.size.toNat) = .ok (p, rest) ∧
    p.next_offset = 0 ∧ p.next_size = 0 ∧ p.used = (entries.flatMap keyedBytes).length ∧
    p.used + kIndexPageOverhead ≤ page.size.toNat ∧
    ∀ es : List (PageIndexKey × List (PageRef × Nat)), p.entries = es.map indexEntry ↔ es = entries

/-- A page that was written last is read back with its padding. -/
theorem readAt_lastPage (file : List FileWrite) (page : PageRef) {data : Bytes}
    (hlen : data.length ≤ page.size.toNat) :
    ∃ padding, readAt (contents (file ++ [.page page.offset.toNat page.size.toNat data]))
      page.offset.toNat page.size.toNat = data ++ padding := by
  have hwrite := readAt_writeAt 0 (contents file) page.offset.toNat
    (FileWrite.pageData page.size.toNat data)
  rw [FileWrite.length_pageData] at hwrite
  refine ⟨(FileWrite.pageData page.size.toNat data).drop data.length, ?_⟩
  calc readAt (contents (file ++ [.page page.offset.toNat page.size.toNat data]))
        page.offset.toNat page.size.toNat
      = FileWrite.pageData page.size.toNat data := by
        rw [contents_append]
        exact hwrite
    _ = (FileWrite.pageData page.size.toNat data).take data.length ++
          (FileWrite.pageData page.size.toNat data).drop data.length :=
        (List.take_append_drop _ _).symm
    _ = data ++ (FileWrite.pageData page.size.toNat data).drop data.length := by
        rw [FileWrite.take_pageData hlen]

/-- The index page is its data, the length in front of it and the hash behind. -/
theorem length_indexPage (data : Bytes) :
    (indexPage data.length data).length = data.length + kIndexPageOverhead := by
  simp only [indexPage, kIndexPageOverhead, List.length_append, length_appendUInt64,
    length_appendUInt32, List.take_length]
  omega

/-- A page whose last write is the index page of the entries. What else is in the file does not
matter. -/
theorem decodes_indexPage (file : List FileWrite) {page : PageRef}
    {es : List (PageIndexKey × List (PageRef × Nat))}
    (hlen : (es.flatMap keyedBytes).length < 2 ^ 32)
    (hsize : (es.flatMap keyedBytes).length + kIndexPageOverhead ≤ page.size.toNat)
    (hused : ∀ e ∈ es, ∀ p ∈ e.2, p.2 < 2 ^ 64) :
    Decodes (file ++ [.page page.offset.toNat page.size.toNat
      (indexPage (es.flatMap keyedBytes).length (es.flatMap keyedBytes))]) page es := by
  obtain ⟨padding, hread⟩ := readAt_lastPage file page
    (le_of_eq_of_le (length_indexPage (es.flatMap keyedBytes)) hsize)
  refine ⟨⟨_, padding, hread ▸ readIndexPage_indexPage hlen hused padding, rfl, rfl, rfl, hsize,
    fun es' => ⟨fun h => ?_, fun h => congrArg _ h.symm⟩⟩⟩
  exact (List.map_injective_iff.mpr indexEntry_injective h).symm

/-- Every registered writer has an entry, also one without pages. The index of a table with
columns is therefore not empty. -/
theorem registeredPages_ne_nil {writers : List UInt64PageWriter}
    {idx : List (PageIndexKey × Nat)} (hne : idx ≠ []) (hreg : ∀ e ∈ idx, e.2 < writers.length) :
    ((registeredPages writers idx).flatMap keyedBytes).length ≠ 0 := by
  obtain ⟨e, es, rfl⟩ := List.exists_cons_of_ne_nil hne
  have hi : e.2 < writers.length := hreg e List.mem_cons_self
  have hcons : registeredPages writers (e :: es) =
      (e.1, writers[e.2].listed) :: registeredPages writers es :=
    List.filterMap_cons_some (by rw [List.getElem?_eq_getElem hi]; rfl)
  have hpos := List.length_pos_of_ne_nil (keyedBytes_ne_nil (e.1, writers[e.2].listed))
  rw [hcons, List.flatMap_cons, List.length_append]
  omega

/-- The sizes of the page for an index are stored in 32 bits without loss. -/
theorem indexPage_size {len : Nat} (hlen : len < 2 ^ 32 - 528) :
    (UInt32.ofNat (padToNextSector (UInt32.ofNat
      (max kIndexPageSize (len + kIndexPageOverhead))).toNat)).toNat = indexPageSize len ∧
      len + kIndexPageOverhead ≤ indexPageSize len ∧ indexPageSize len < 2 ^ 32 := by
  have hmax : max kIndexPageSize (len + kIndexPageOverhead) < 2 ^ 32 - 512 := by
    unfold kIndexPageSize kIndexPageOverhead
    omega
  have hpad := padToNextSector_lt (max kIndexPageSize (len + kIndexPageOverhead))
  have hle := le_padToNextSector (max kIndexPageSize (len + kIndexPageOverhead))
  have hsize : (UInt32.ofNat (max kIndexPageSize (len + kIndexPageOverhead))).toNat =
      max kIndexPageSize (len + kIndexPageOverhead) := by
    rw [UInt32.toNat_ofNat']
    exact Nat.mod_eq_of_lt (by omega)
  unfold indexPageSize
  rw [hsize, UInt32.toNat_ofNat']
  exact ⟨Nat.mod_eq_of_lt (by omega), le_trans (Nat.le_max_right _ _) hle, by omega⟩

/-- After the loop over the writers `write` comes down to one page write: the
bytes that are used are all of them, and the check at the end passes. -/
theorem write_eq {s : PageStore} {entries : List (PageIndexKey × Bytes)} {pm : PageManager}
    {buf : Bytes} (hentries : writeEntries s.page_writers s.page_mgr s.page_idx = .ok (entries, pm))
    (hbuf : entries.flatMap entryBytes = buf) (hne : buf.length ≠ 0)
    (hlen : buf.length < 2 ^ 32 - 528) :
    ∃ page : PageRef, page.offset = pm.offset ∧ page.size.toNat = indexPageSize buf.length ∧
      write s none = (do
        let pm ← PageManager.writePageRef { pm with offset := pm.offset + page.size.toUInt64 } page
          (indexPage buf.length buf)
        .ok (page, pm)) := by
  obtain ⟨hsize, hfits, hlt⟩ := indexPage_size hlen
  refine ⟨⟨pm.offset, UInt32.ofNat (padToNextSector (UInt32.ofNat
    (max kIndexPageSize (buf.length + kIndexPageOverhead))).toNat)⟩, rfl, hsize, ?_⟩
  -- the 32-bit arithmetic of `used` is exact
  have hused : min ((indexPageSize buf.length + 2 ^ 64 - kIndexPageOverhead) % 2 ^ 32)
      (buf.length % 2 ^ 32) = buf.length := by
    unfold kIndexPageOverhead at *
    omega
  unfold write
  rw [hentries, Result.ok_bind]
  dsimp only
  rw [hbuf, if_neg hne]
  unfold PageManager.allocPage
  dsimp only
  rw [hsize, hused, RCHECK, if_pos (beq_self_eq_true _)]
  rfl

/-- Where every page write goes through, the index ends up in the last page written, and
that page decodes to the registered page lists. -/
theorem decodes_of_indexWritable {s : PageStore} (hne : s.page_idx ≠ [])
    (hreg : ∀ e ∈ s.page_idx, e.2 < s.page_writers.length)
    (hused : ∀ e ∈ registeredPages s.page_writers s.page_idx, ∀ p ∈ e.2, p.2 < 2 ^ 64)
    (hlen : s.indexBytes.length < 2 ^ 32 - 528) (hpages : s.IndexWritable) :
    ∃ page page_mgr, write s none = .ok (page, page_mgr) ∧
      Decodes page_mgr.file page (registeredPages s.page_writers s.page_idx) := by
  obtain ⟨hcurrent, hindex⟩ := indexWritable_iff.mp hpages
  obtain ⟨ws, hentries⟩ := (writeEntries_eq hreg s.page_mgr).1 hcurrent
  have hbuf : ((registeredPages s.page_writers s.page_idx).map fun e =>
      (e.1, UInt64PageWriter.pageListBytes e.2)).flatMap entryBytes = s.indexBytes :=
    List.flatMap_map _ _ _
  obtain ⟨page, hoffset, hsize, hwrite⟩ :=
    write_eq hentries hbuf (registeredPages_ne_nil hne hreg) hlen
  obtain ⟨-, hfits, -⟩ := indexPage_size hlen
  have hpage : PageManager.FitsPwrite page.offset.toNat page.size.toNat := by
    rw [hoffset, hsize]
    exact hindex
  rw [hwrite]
  refine ⟨page, _, Result.bind_eq_ok.mpr ⟨_, PageManager.writePage_eq_ok.mpr ⟨hpage, rfl⟩, rfl⟩, ?_⟩
  exact decodes_indexPage _ (lt_trans hlen (by norm_num)) (hsize ▸ hfits) hused

/-- Otherwise the first page write that does not go through ends `write`: that of a current
page, or that of the index itself. -/
theorem write_eq_error {s : PageStore} (hne : s.page_idx ≠ [])
    (hreg : ∀ e ∈ s.page_idx, e.2 < s.page_writers.length)
    (hlen : s.indexBytes.length < 2 ^ 32 - 528) (hpages : ¬ s.IndexWritable) :
    write s none = .error kWriteFailed := by
  obtain ⟨hok, hfail⟩ := writeEntries_eq hreg s.page_mgr
  by_cases hcurrent : ∀ e ∈ s.page_idx, ∀ w, s.page_writers[e.2]? = some w → w.Writable
  · obtain ⟨ws, hentries⟩ := hok hcurrent
    have hbuf : ((registeredPages s.page_writers s.page_idx).map fun e =>
        (e.1, UInt64PageWriter.pageListBytes e.2)).flatMap entryBytes = s.indexBytes :=
      List.flatMap_map _ _ _
    obtain ⟨page, hoffset, hsize, hwrite⟩ :=
      write_eq hentries hbuf (registeredPages_ne_nil hne hreg) hlen
    have hpage : ¬ PageManager.FitsPwrite page.offset.toNat page.size.toNat := by
      rw [hoffset, hsize]
      exact fun h => hpages (indexWritable_iff.mpr ⟨hcurrent, h⟩)
    rw [hwrite]
    unfold PageManager.writePageRef PageManager.writePage
    rw [PageManager.pwrite_eq_error _ _ hpage]
    rfl
  · unfold write
    rw [hfail hcurrent]
    rfl

/-- The index of any registered writers, for any page lists whose serialization is
shorter than `2 ^ 32 - 528` bytes. Where the page writes go through, the page that is
returned decodes to exactly the registered page lists. Where one of them does not, the
exception of that write is the outcome; an index of `2 ^ 31 - 527` bytes or more always
ends so. -/
theorem write_decodes (s : PageStore) (hne : s.page_idx ≠ [])
    (hreg : ∀ e ∈ s.page_idx, e.2 < s.page_writers.length)
    (hused : ∀ e ∈ registeredPages s.page_writers s.page_idx, ∀ p ∈ e.2, p.2 < 2 ^ 64)
    (hlen : s.indexBytes.length < 2 ^ 32 - 528) :
    (s.IndexWritable → ∃ page page_mgr, write s none = .ok (page, page_mgr) ∧
      Decodes page_mgr.file page (registeredPages s.page_writers s.page_idx)) ∧
    (¬ s.IndexWritable → write s none = .error kWriteFailed) :=
  ⟨decodes_of_indexWritable hne hreg hused hlen, write_eq_error hne hreg hlen⟩

/-- Two registrations of a writer with a current page, and one writer without
pages. -/
theorem write_decodes_three_entries :
    let s : PageStore := ⟨⟨.v0_2_0, [], 2048, 14, 56⟩,
      [⟨true, ⟨1024, 1024⟩, [7, 0, 0, 0, 0, 0, 0, 0], []⟩, UInt64PageWriter.new],
      [(⟨1, .RLEVEL⟩, 0), (⟨1, .RLEVEL⟩, 0), (⟨1, .DATA⟩, 1)]⟩
    ∃ page page_mgr, write s none = .ok (page, page_mgr) ∧
      Decodes page_mgr.file page (registeredPages s.page_writers s.page_idx) := by
  intro s
  have hwritable : s.IndexWritable := by
    refine ⟨?_, by decide +kernel, by decide +kernel⟩
    intro e he w hw
    simp only [s, List.mem_cons, List.not_mem_nil, or_false] at he
    rcases he with rfl | rfl | rfl
    · cases hw
      exact fun _ => by decide
    · cases hw
      exact fun _ => by decide
    · cases hw
      exact fun h => absurd h Bool.false_ne_true
  have hused : ∀ e ∈ registeredPages s.page_writers s.page_idx, ∀ p ∈ e.2, p.2 < 2 ^ 64 := by
    decide +kernel
  exact (write_decodes s (List.cons_ne_nil _ _) (by decide) hused (by decide +kernel)).1 hwritable

/-- One writer with so many finished pages, all of them empty. -/
def emptyPagesStore (n : Nat) : PageStore :=
  ⟨⟨.v0_2_0, [], 2048, 14, 56⟩, [⟨false, ⟨0, 0⟩, [], List.replicate n (⟨0, 0⟩, 0)⟩],
    [(⟨1, .DATA⟩, 0)]⟩

/-- Its index has three bytes for each page and some for the key and the count. -/
theorem length_indexBytes_emptyPages (n : Nat) :
    (emptyPagesStore n).indexBytes.length = 2 + (appendVarUInt n).length + 3 * n := by
  have hpages : ((List.replicate n ((⟨0, 0⟩ : PageRef), 0)).flatMap pageBytes).length = 3 * n := by
    rw [List.length_flatMap, List.map_replicate, List.sum_replicate]
    exact Nat.mul_comm _ _
  have hbytes : (emptyPagesStore n).indexBytes = (appendVarUInt 1 ++ appendVarUInt 1 ++
      (appendVarUInt (List.replicate n ((⟨0, 0⟩ : PageRef), 0)).length ++
        (List.replicate n ((⟨0, 0⟩ : PageRef), 0)).flatMap pageBytes)) ++ [] := rfl
  rw [hbytes, List.append_nil, List.length_append, List.length_append, List.length_append, hpages,
    List.length_replicate, show (appendVarUInt 1).length = 1 by decide]
  omega

/-- An index of `2 ^ 30` page entries: it is shorter than `2 ^ 32 - 528` bytes, and its page
is never written. -/
theorem not_write_decodes_long_index :
    (emptyPagesStore (2 ^ 30)).indexBytes.length < 2 ^ 32 - 528 ∧
      write (emptyPagesStore (2 ^ 30)) none = .error kWriteFailed := by
  have hlen := length_indexBytes_emptyPages (2 ^ 30)
  have hcount : (appendVarUInt (2 ^ 30)).length = 5 := by decide
  rw [hcount] at hlen
  refine ⟨by omega, write_eq_error (List.cons_ne_nil _ _) ?_ (by omega) ?_⟩
  · intro e he
    obtain rfl := List.mem_singleton.mp he
    exact Nat.zero_lt_one
  · intro h
    have hshort := h.length
    omega

end PageIndex

end CStable
