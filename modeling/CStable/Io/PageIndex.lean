import CStable.Columns.UInt64Page

/-!
# `CStable.Io.PageIndex`: the index of a table and its page writers

The page writers are objects on the heap: the index and the column writers hold
pointers to them, and one writer may be registered with the index more than
once. `PageStore` is that part of the heap together with the page manager; a
pointer is a position in `page_writers`, which only grows.
-/

set_option autoImplicit false

namespace CStable

open Support

/-- `PageIndexKey`. -/
structure PageIndexKey where
  column_id : UInt32
  entry_type : PageIndexEntryType
  deriving DecidableEq, Repr

/-- The page manager, the page writers created so far and the list
`page_writers_` of the `PageIndex`: keys and pointers in registration order. -/
structure PageStore where
  page_mgr : PageManager
  page_writers : List UInt64PageWriter
  page_idx : List (PageIndexKey × Nat)
  deriving DecidableEq, Repr

namespace PageStore

/-- A page manager and an empty index. -/
def new (page_mgr : PageManager) : PageStore := ⟨page_mgr, [], []⟩

/-- `PageIndex::addPageWriter`. -/
def addPageWriter (s : PageStore) (key : PageIndexKey) (page_writer : Nat) : PageStore :=
  { s with page_idx := s.page_idx ++ [(key, page_writer)] }

/-- `new UInt64PageWriter(key, ...)`: the constructor registers the writer. -/
def newPageWriter (s : PageStore) (key : PageIndexKey) : Nat × PageStore :=
  let page_writer := s.page_writers.length
  let s := { s with page_writers := s.page_writers ++ [UInt64PageWriter.new] }
  (page_writer, s.addPageWriter key page_writer)

/-- `appendValue` on a writer of the store. -/
def appendValue (page_writer : Nat) (value : UInt64) : CxxM PageStore Unit :=
  CxxM.update fun s =>
    match s.page_writers[page_writer]? with
    | none => .error .fault
    | some w => do
      let (w, page_mgr) ← w.appendValue s.page_mgr value
      .ok { s with page_mgr, page_writers := s.page_writers.set page_writer w }

end PageStore

/-! ### `PageIndex::write` -/

namespace PageIndex

/-- `kIndexPageSize`. -/
def kIndexPageSize : Nat := 512 * 1024

/-- `kIndexPageOverhead`. -/
def kIndexPageOverhead : Nat := 16

/-- The loop over the registered writers: the key of each with the bytes its
`writeIndex` appends. -/
def writeEntries (page_writers : List UInt64PageWriter) :
    PageManager → List (PageIndexKey × Nat) → Result (List (PageIndexKey × Bytes) × PageManager)
  | page_mgr, [] => .ok ([], page_mgr)
  | page_mgr, (key, writer) :: rest =>
    match page_writers[writer]? with
    | none => .error .fault
    | some w => do
      let (index, page_mgr) ← w.writeIndex page_mgr
      let (entries, page_mgr) ← writeEntries page_writers page_mgr rest
      .ok ((key, index) :: entries, page_mgr)

/-- One entry of the index. -/
def entryBytes (e : PageIndexKey × Bytes) : Bytes :=
  appendVarUInt e.1.entry_type.code.toNat ++ appendVarUInt e.1.column_id.toNat ++ e.2

/-- The bytes of an index page: no next page, the number of bytes used, and the
bytes. -/
def indexPage (used : Nat) (data : Bytes) : Bytes :=
  appendUInt64 0 ++ appendUInt32 0 ++ appendUInt32 used ++ data.take used

/-- `PageIndex::write`. At most one page is allocated: the only one the loop can
add ends it. Without a page, reading `pages[0]` is undefined. -/
def write (s : PageStore) (head : Option PageRef) : Result (PageRef × PageManager) := do
  let (entries, page_mgr) ← writeEntries s.page_writers s.page_mgr s.page_idx
  let buf := entries.flatMap entryBytes
  if buf.length = 0 then
    .error .fault
  else match head with
  | some _ => RAISE .kNotImplementedError ""
  | none => do
    let (page, page_mgr) :=
      page_mgr.allocPage (UInt32.ofNat (max kIndexPageSize (buf.length + kIndexPageOverhead)))
    -- both operands of the `min` are converted to 32 bits; the difference wraps
    -- in 64 bits when the page is smaller than the overhead
    let used := min ((page.size.toNat + 2 ^ 64 - kIndexPageOverhead) % 2 ^ 32)
      (buf.length % 2 ^ 32)
    let page_mgr ← page_mgr.writePageRef page (indexPage used buf)
    RCHECK (used == buf.length) "invalid page allocation"
    .ok (page, page_mgr)

end PageIndex

/-- `PageIndexReader`: the keys a page reader is registered under. -/
abbrev PageIndexReader := List PageIndexKey

/-- `PageIndexReader::addPageReader`. -/
def PageIndexReader.addPageReader (r : PageIndexReader) (key : PageIndexKey) : PageIndexReader :=
  r ++ [key]

end CStable
