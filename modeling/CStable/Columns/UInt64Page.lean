import CStable.Io.PageManager

/-!
# `CStable.Columns.UInt64Page`: a stream of 64-bit values in pages

`UInt64PageWriter` collects values in a buffer and writes it to its current
page when the next value would not fit. The page manager it shares with the
other writers is passed in and returned.
-/

set_option autoImplicit false

namespace CStable

/-- `UInt64PageWriter`. `page` is unset before the first value. -/
structure UInt64PageWriter where
  has_page : Bool
  page : PageRef
  page_buf : Bytes
  pages : List (PageRef × Nat)
  deriving DecidableEq, Repr

namespace UInt64PageWriter

/-- `kPageSize`. -/
def kPageSize : UInt32 := 512 * 2

/-- The constructor; what `page` holds is not read before it is set. -/
def new : UInt64PageWriter where
  has_page := false
  page := ⟨0, 0⟩
  page_buf := []
  pages := []

/-- Write the current page, if there is one, and append its entry to the page
list: the lines `appendValue` and `writeIndex` share. -/
def flushPages (w : UInt64PageWriter) (page_mgr : PageManager) :
    Result (List (PageRef × Nat) × PageManager) :=
  if w.has_page then do
    let page_mgr ← page_mgr.writePageRef w.page w.page_buf
    .ok (w.pages ++ [(w.page, w.page_buf.length)], page_mgr)
  else
    .ok (w.pages, page_mgr)

/-- `appendValue`. A page without room for the value is written and recorded
and a new one is allocated; the buffer keeps its content. -/
def appendValue (w : UInt64PageWriter) (page_mgr : PageManager) (value : UInt64) :
    Result (UInt64PageWriter × PageManager) :=
  if !w.has_page || w.page_buf.length + 8 > w.page.size.toNat then do
    let (pages, page_mgr) ← w.flushPages page_mgr
    let (page, page_mgr) := page_mgr.allocPage kPageSize
    .ok ({ has_page := true, page, page_buf := w.page_buf ++ appendUInt64 value.toNat, pages },
      page_mgr)
  else
    .ok ({ w with page_buf := w.page_buf ++ appendUInt64 value.toNat }, page_mgr)

/-- The bytes of a page list in the index. -/
def pageListBytes (pages : List (PageRef × Nat)) : Bytes :=
  appendVarUInt pages.length ++
    pages.flatMap fun p =>
      appendVarUInt p.1.offset.toNat ++ appendVarUInt p.1.size.toNat ++ appendVarUInt p.2

/-- `writeIndex`: the bytes appended to the index. It does not change the
writer. -/
def writeIndex (w : UInt64PageWriter) (page_mgr : PageManager) :
    Result (Bytes × PageManager) := do
  let (pages, page_mgr) ← w.flushPages page_mgr
  pure (pageListBytes pages, page_mgr)

/-- The page a writer begins: 1024 bytes at the current offset, which is a multiple of the
sector size and needs no padding. -/
theorem allocPage_kPageSize (pm : PageManager) :
    pm.allocPage kPageSize = (⟨pm.offset, 1024⟩, { pm with offset := pm.offset + 1024 }) := by
  have hsize : UInt32.ofNat (padToNextSector kPageSize.toNat) = 1024 := by decide
  have hoff : (1024 : UInt32).toUInt64 = 1024 := by decide
  simp only [PageManager.allocPage, hsize, hoff]

/-- What `flushPages` does: nothing without a page, else one page write and one
more entry. -/
theorem flushPages_eq_ok {w : UInt64PageWriter} {page_mgr page_mgr' : PageManager}
    {pages : List (PageRef × Nat)} (h : w.flushPages page_mgr = .ok (pages, page_mgr')) :
    (w.has_page = false ∧ pages = w.pages ∧ page_mgr' = page_mgr) ∨
      (w.has_page = true ∧ pages = w.pages ++ [(w.page, w.page_buf.length)] ∧
        page_mgr' = { page_mgr with
          file := page_mgr.file ++
            [.page w.page.offset.toNat w.page.size.toNat w.page_buf] }) := by
  unfold flushPages at h
  cases hpage : w.has_page with
  | false =>
    rw [hpage, if_neg Bool.false_ne_true] at h
    cases h
    exact Or.inl ⟨rfl, rfl, rfl⟩
  | true =>
    rw [hpage, if_pos rfl] at h
    obtain ⟨pm, hwrite, hret⟩ := Result.bind_eq_ok.mp h
    obtain ⟨_, hpm⟩ := PageManager.writePage_eq_ok.mp hwrite
    cases hret
    exact Or.inr ⟨rfl, rfl, hpm⟩

/-- What `appendValue` does: it begins a page, for the first value or because the
page is full, or stays on the page. The value goes to the buffer in both cases. -/
theorem appendValue_eq_ok {w w' : UInt64PageWriter} {page_mgr page_mgr' : PageManager}
    {value : UInt64} (h : w.appendValue page_mgr value = .ok (w', page_mgr')) :
    (∃ pages pm, (w.has_page = false ∨ w.page.size.toNat < w.page_buf.length + 8) ∧
        w.flushPages page_mgr = .ok (pages, pm) ∧
        w' = ⟨true, (pm.allocPage kPageSize).1, w.page_buf ++ appendUInt64 value.toNat, pages⟩ ∧
        page_mgr' = (pm.allocPage kPageSize).2) ∨
      (w.has_page = true ∧ w.page_buf.length + 8 ≤ w.page.size.toNat ∧
        w' = { w with page_buf := w.page_buf ++ appendUInt64 value.toNat } ∧
        page_mgr' = page_mgr) := by
  unfold appendValue at h
  split_ifs at h with hroll
  · obtain ⟨⟨pages, pm⟩, hflush, hret⟩ := Result.bind_eq_ok.mp h
    cases hret
    refine Or.inl ⟨pages, pm, ?_, hflush, rfl, rfl⟩
    simpa using hroll
  · cases h
    rw [Bool.or_eq_true, not_or] at hroll
    refine Or.inr ⟨by simpa using hroll.1, by simpa using hroll.2, rfl, rfl⟩

end UInt64PageWriter

/-! ### Reading -/

/-- `UInt64PageReader`: the class is a stub in the source. It reads no index and
returns zero for every value. -/
structure UInt64PageReader where
  pages : List (PageRef × Nat)
  deriving DecidableEq, Repr

/-- `readUnsignedInt`. -/
def UInt64PageReader.readUnsignedInt (_r : UInt64PageReader) : UInt64 := 0

end CStable
