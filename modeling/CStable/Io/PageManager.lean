import CStable.Format

/-!
# `CStable.Io.PageManager`: page allocation and page writes

`PageManager` hands out sector-aligned pages and writes pages and metablocks to
its file. The file is modelled by the log of the writes issued to it, in order:
the content after any number of them is `contents`, which is also what a crash
between two writes leaves behind. `fsync` adds nothing to the log.

The calls that write raise when the kernel would refuse the position, since a
file offset is a signed 64-bit integer, and when the count of written bytes does
not come back whole through the `int` it is stored in. The kernel is taken to
write all it is given: running out of memory or disk space and a lower limit on
the bytes of one call are not modelled.

* `FitsPwrite`: what `File::pwrite` can write in one call.
* `writePage_eq_ok`: a page write is refused or appended to the log.
-/

set_option autoImplicit false

namespace CStable

open Support

/-- A write the library issues to the file of a table. -/
inductive FileWrite where
  /-- `FileOutputStream::write` on the new file, which starts at its beginning. -/
  | stream (data : Bytes)
  /-- `PageManager::writePage`. -/
  | page (page_offset page_size : Nat) (data : Bytes)
  /-- The `pwrite` of `PageManager::writeTransaction`. -/
  | metablock (mb_offset : Nat) (data : Bytes)
  deriving DecidableEq, Repr

namespace FileWrite

/-- The bytes `writePage` passes to `pwrite`: always `page_size` of them. Data
that is too short is padded with zeros, of longer data the beginning is taken. -/
def pageData (page_size : Nat) (data : Bytes) : Bytes :=
  (data ++ List.replicate (page_size - data.length) 0).take page_size

/-- A page write is always as long as its page: shorter data is padded, longer data is cut
off. -/
@[simp] theorem length_pageData (page_size : Nat) (data : Bytes) :
    (pageData page_size data).length = page_size := by
  rw [pageData, List.length_take, List.length_append, List.length_replicate]
  omega

/-- Data that fits in the page is written in full, in front of the padding. -/
theorem take_pageData {page_size : Nat} {data : Bytes} (h : data.length ≤ page_size) :
    (pageData page_size data).take data.length = data := by
  rw [pageData, List.take_take, Nat.min_eq_left h, List.take_left]

/-- Data of the size of the page is the page. -/
theorem pageData_of_length_eq {page_size : Nat} {data : Bytes} (h : data.length = page_size) :
    pageData page_size data = data := by
  rw [pageData, h, Nat.sub_self, List.replicate_zero, List.append_nil, ← h, List.take_length]

/-- The positional write that reaches the file. -/
def toWrite : FileWrite → Write UInt8
  | stream data => ⟨0, data⟩
  | page page_offset page_size data => ⟨page_offset, pageData page_size data⟩
  | metablock mb_offset data => ⟨mb_offset, data⟩

end FileWrite

/-- The content of a file, new when the first of the writes is issued. -/
def contents (writes : List FileWrite) : Bytes :=
  applyWrites 0 [] (writes.map FileWrite.toWrite)

/-- The content of a file after two logs is what the second one makes of the content after the
first. -/
theorem contents_append (ws us : List FileWrite) :
    contents (ws ++ us) = applyWrites 0 (contents ws) (us.map FileWrite.toWrite) := by
  rw [contents, List.map_append, applyWrites_append, contents]

/-- The first write to a new file is its content. -/
@[simp] theorem contents_stream (data : Bytes) : contents [.stream data] = data := by
  show writeAt (0 : UInt8) [] 0 data = data
  have hwrite := writeAt_length (0 : UInt8) [] data
  rw [List.length_nil, List.nil_append] at hwrite
  exact hwrite

/-- The data of the last page written, read back from its page. No later write can have replaced
it, because there is none. -/
theorem readAt_contents_page {ws : List FileWrite} {page_offset page_size : Nat} {data : Bytes}
    (h : data.length ≤ page_size) :
    readAt (contents (ws ++ [.page page_offset page_size data])) page_offset data.length =
      data := by
  have hpage := readAt_writeAt 0 (contents ws) page_offset (FileWrite.pageData page_size data)
  rw [FileWrite.length_pageData] at hpage
  have hcont : contents (ws ++ [.page page_offset page_size data]) =
      writeAt 0 (contents ws) page_offset (FileWrite.pageData page_size data) :=
    contents_append ws _
  rw [hcont, ← take_readAt h, hpage, FileWrite.take_pageData h]

/-- The value of a byte count that is stored in an `int`. -/
def intOfCount (n : Nat) : Int := (n : Int).bmod (2 ^ 32)

/-- Counts below `2 ^ 31` survive the conversion to `int`, and no others: from
there on the value is negative or, past `2 ^ 32`, the count without its high
bits. -/
theorem intOfCount_eq_self_iff {n : Nat} : intOfCount n = n ↔ n < 2 ^ 31 := by
  unfold intOfCount
  rw [Int.bmod_def]
  push_cast
  split_ifs with hlow <;> omega

/-- The bytes of the file a page covers. -/
def PageRef.extent (p : PageRef) : Extent := ⟨p.offset.toNat, p.size.toNat⟩

/-- `PageManager`; `file` is the log of the writes issued so far. -/
structure PageManager where
  version : BinaryFormatVersion
  file : List FileWrite
  offset : UInt64
  meta_block_position : Nat
  meta_block_size : Nat
  deriving DecidableEq, Repr

namespace PageManager

/-- The constructor. The case of v0.1.0 falls through to that of v0.2.0, so the
metablock fields are the same for both. -/
def new (version : BinaryFormatVersion) (file : List FileWrite) (offset : UInt64) :
    PageManager where
  version := version
  file := file
  offset := offset
  meta_block_position := v0_2_0.kMetaBlockPosition
  meta_block_size := v0_2_0.kMetaBlockSize

/-- `allocPage`: the padded size is computed in 64 bits and stored in 32. -/
def allocPage (pm : PageManager) (size : UInt32) : PageRef × PageManager :=
  let page : PageRef := ⟨pm.offset, UInt32.ofNat (padToNextSector size.toNat)⟩
  (page, { pm with offset := pm.offset + page.size.toUInt64 })

/-- `File::pwrite`: the `int` that `::pwrite` returns its count into is compared
with the size of the buffer. The kernel takes positions up to `2 ^ 63 - 1` only. -/
def pwrite (pm : PageManager) (position : Nat) (buf_len : Nat) (w : FileWrite) :
    Result PageManager :=
  let res := if position + buf_len < 2 ^ 63 then intOfCount buf_len else -1
  if res < 0 ∨ res ≠ buf_len then RAISE .kIOError "write(%i) failed"
  else .ok { pm with file := pm.file ++ [w] }

/-- `writePage(page_offset, page_size, data, data_size)`. -/
def writePage (pm : PageManager) (page_offset page_size : Nat) (data : Bytes) :
    Result PageManager :=
  pm.pwrite page_offset page_size (.page page_offset page_size data)

/-- `writePage(page, buffer)`. -/
def writePageRef (pm : PageManager) (page : PageRef) (buffer : Bytes) : Result PageManager :=
  pm.writePage page.offset.toNat page.size.toNat buffer

/-- `writeTransaction`. -/
def writeTransaction (pm : PageManager) (mb : MetaBlock) : Result PageManager := do
  RCHECK (pm.version != .v0_1_0) "writeTransaction is not supported in v0.1.x"
  let buf ← match pm.version with
    | .v0_1_0 => RAISE .kIllegalArgumentError "unsupported version: v0.1.0"
    | .v0_2_0 => .ok (v0_2_0.writeMetaBlock mb)
  RCHECK (buf.length == pm.meta_block_size) "invalid meta block size"
  let mb_index := mb.transaction_id.toNat % 2
  let mb_offset := pm.meta_block_position + pm.meta_block_size * mb_index
  pm.pwrite mb_offset buf.length (.metablock mb_offset buf)

/-- `getOffset`. -/
def getOffset (pm : PageManager) : UInt64 := pm.offset

/-- An allocation writes nothing; it only moves the offset of the next one. -/
@[simp] theorem allocPage_file (pm : PageManager) (size : UInt32) :
    (pm.allocPage size).2.file = pm.file := rfl

/-- The calls `File::pwrite` returns from: the position is one the kernel takes,
and the count of the bytes is one an `int` can hold. -/
structure FitsPwrite (position buf_len : Nat) : Prop where
  below : position + buf_len < 2 ^ 63
  count : buf_len < 2 ^ 31

instance (position buf_len : Nat) : Decidable (FitsPwrite position buf_len) :=
  decidable_of_iff (position + buf_len < 2 ^ 63 ∧ buf_len < 2 ^ 31)
    ⟨fun h => ⟨h.1, h.2⟩, fun h => ⟨h.below, h.count⟩⟩

/-- The check of `File::pwrite` fails on exactly the calls that do not fit. The
two ways to fail, a refused position and a count the `int` can not hold, raise
the same exception, so callers only ask which side of `FitsPwrite` they are on. -/
theorem pwrite_eq (pm : PageManager) (position buf_len : Nat) (w : FileWrite) :
    pm.pwrite position buf_len w =
      if FitsPwrite position buf_len then .ok { pm with file := pm.file ++ [w] }
      else RAISE .kIOError "write(%i) failed" := by
  unfold pwrite
  dsimp only
  by_cases hpos : position + buf_len < 2 ^ 63
  · rw [if_pos hpos]
    by_cases hcount : buf_len < 2 ^ 31
    · have heq := intOfCount_eq_self_iff.mpr hcount
      rw [if_neg (by omega), if_pos ⟨hpos, hcount⟩]
    · have hne : intOfCount buf_len ≠ buf_len := fun h => hcount (intOfCount_eq_self_iff.mp h)
      rw [if_pos (.inr hne), if_neg fun h => hcount h.count]
  · rw [if_neg hpos, if_pos (.inl (by decide)), if_neg fun h => hpos h.below]

/-- A write that does not fit raises, whichever of the two limits it breaks, and the file is not
touched. -/
theorem pwrite_eq_error {position buf_len : Nat} (pm : PageManager) (w : FileWrite)
    (h : ¬ FitsPwrite position buf_len) :
    pm.pwrite position buf_len w = RAISE .kIOError "write(%i) failed" := by
  rw [pwrite_eq, if_neg h]

/-- A page write is refused or appended to the log; nothing else of the page manager changes, in
particular not the offset for new pages. -/
theorem writePage_eq_ok {pm pm' : PageManager} {page_offset page_size : Nat} {data : Bytes} :
    pm.writePage page_offset page_size data = .ok pm' ↔
      FitsPwrite page_offset page_size ∧
        pm' = { pm with file := pm.file ++ [.page page_offset page_size data] } := by
  unfold writePage
  rw [pwrite_eq]
  by_cases h : FitsPwrite page_offset page_size
  · rw [if_pos h]
    constructor
    · intro heq
      cases heq
      exact ⟨h, rfl⟩
    · rintro ⟨_, rfl⟩
      rfl
  · rw [if_neg h]
    constructor
    · intro heq
      cases heq
    · rintro ⟨h', _⟩
      exact absurd h' h

end PageManager

end CStable
