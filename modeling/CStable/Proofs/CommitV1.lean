import CStable.CSTableReader
import CStable.CSTableWriter
import CStable.Proofs.BitStream

/-!
# `CStable.Proofs.CommitV1`: the file of a committed v0.1.0 table

`commitV1` writes a header and then the bodies of the columns, back to back from
the end of the header on (`CommittedV1`). The header is read back field by field
(`readHeader_headerV1`), the columns in the order of their names.

* `commitV1_spec`: what a commit that succeeds has written.
* `commitV1_ok`: it succeeds when each of its writes is one `File::pwrite` can do.
* `CommittedV1.contents`: the file is the header followed by the bodies.
-/

set_option autoImplicit false

namespace CStable

open Support Support.Parser

namespace Support

variable {α β : Type} {R : α → β → Prop}

/-- In two lists that belong together an element of the first has one in the second. -/
theorem exists_of_mem_left {xs : List α} {ys : List β} (h : List.Forall₂ R xs ys) {x : α}
    (hx : x ∈ xs) : ∃ y ∈ ys, R x y := by
  induction h with
  | nil => cases hx
  | cons hab _ ih =>
    rcases List.mem_cons.mp hx with rfl | hmem
    · exact ⟨_, List.mem_cons_self, hab⟩
    · obtain ⟨y, hy, hR⟩ := ih hmem
      exact ⟨y, List.mem_cons_of_mem _ hy, hR⟩

/-- And the other way around. -/
theorem exists_of_mem_right {xs : List α} {ys : List β} (h : List.Forall₂ R xs ys) {y : β}
    (hy : y ∈ ys) : ∃ x ∈ xs, R x y :=
  exists_of_mem_left h.flip hy

/-- What is the same for each pair is the same for the lists. -/
theorem map_eq_map {γ : Type} {f : α → γ} {g : β → γ} {xs : List α} {ys : List β}
    (h : List.Forall₂ R xs ys) (hR : ∀ a b, R a b → f a = g b) : xs.map f = ys.map g := by
  induction h with
  | nil => rfl
  | cons hab _ ih => rw [List.map_cons, List.map_cons, hR _ _ hab, ih]

end Support

/-- The body region a v0.1.0 header announces for a column. -/
def ColumnConfig.bodyExtent (c : ColumnConfig) : Extent := ⟨c.body_offset, c.body_size⟩

namespace CSTableWriter

/-! ### The layout -/

/-- The columns with their committed writers, before the offsets are assigned. -/
def sizedColumns (columns : List ColumnConfig) (ws : List v1.ColumnWriter) :
    List (ColumnConfig × v1.ColumnWriter) :=
  (columns.zip ws).map fun p => ({ p.1 with body_size := p.2.commit.bodySize }, p.2.commit)

/-- All columns of the table are v0.1.0 columns, with the given writers. -/
def WritersV1 (t : CSTableWriter) (ws : List v1.ColumnWriter) : Prop :=
  t.column_writers.map ColumnSlot.writer = ws.map .v1

/-- The first loop of `commitV1` commits the writers and takes their sizes. It raises only where
a writer is not of v0.1.0. -/
theorem commitColumns_eq {t : CSTableWriter} {ws : List v1.ColumnWriter} (h : t.WritersV1 ws) :
    t.commitColumns = .ok (sizedColumns t.columns ws) := by
  unfold WritersV1 at h
  unfold commitColumns sizedColumns
  generalize t.columns = columns at *
  generalize t.column_writers = slots at *
  induction columns generalizing slots ws with
  | nil => rfl
  | cons c cs ih =>
    cases slots with
    | nil =>
      cases ws with
      | nil => rfl
      | cons w ws => cases h
    | cons slot slots =>
      cases ws with
      | nil => cases h
      | cons w ws =>
        obtain ⟨hwriter, hrest⟩ := List.cons.inj h
        rw [List.zip_cons_cons, List.zip_cons_cons, List.mapM_cons]
        dsimp only
        rw [hwriter]
        dsimp only
        rw [Result.ok_bind, ih slots hrest]
        rfl

/-- The offsets are assigned back to back: each body begins where the one before it ends. By
induction on the columns. -/
theorem assignOffsets_adjacent (base : Nat) (cols : List (ColumnConfig × v1.ColumnWriter)) :
    Adjacent base ((assignOffsets base cols).map fun p => p.1.bodyExtent) := by
  induction cols generalizing base with
  | nil => exact trivial
  | cons p cols ih =>
    obtain ⟨col, w⟩ := p
    exact ⟨rfl, ih (base + col.body_size)⟩

/-- Assigning offsets changes nothing else of a column. -/
theorem assignOffsets_spec (base : Nat) (cols : List (ColumnConfig × v1.ColumnWriter)) :
    List.Forall₂ (fun p q => q.1 = { p.1 with body_offset := q.1.body_offset } ∧ q.2 = p.2)
      cols (assignOffsets base cols) := by
  induction cols generalizing base with
  | nil => exact .nil
  | cons p cols ih =>
    obtain ⟨col, w⟩ := p
    exact .cons ⟨rfl, rfl⟩ (ih _)

/-! ### The header -/

/-- A column record takes 32 bytes and the bytes of the name. -/
theorem length_columnHeaderV1 (col : ColumnConfig) :
    (columnHeaderV1 col).length = 32 + col.column_name.length := by
  simp only [columnHeaderV1, List.length_append, length_appendUInt32, length_appendUInt64]
  omega

/-- The part in front of the records takes 26 bytes. -/
theorem length_headerPreludeV1 (num_rows : UInt64) (ncols : Nat) :
    (headerPreludeV1 num_rows ncols).length = 26 := by
  simp only [headerPreludeV1, List.length_append, length_appendUInt16, length_appendUInt32,
    length_appendUInt64]

/-- The header a commit writes for the given columns. -/
def headerV1 (num_rows : UInt64) (columns : List ColumnConfig) : Bytes :=
  headerPreludeV1 num_rows columns.length ++ columns.flatMap columnHeaderV1

/-- The header is as long as the offsets assume: they depend on the names only, so that it does
not matter that the offsets are in the header themselves. -/
theorem length_headerV1 {t : CSTableWriter} {columns : List ColumnConfig}
    (hnames : columns.map ColumnConfig.column_name = t.columns.map ColumnConfig.column_name) :
    (headerV1 t.num_rows columns).length = t.headerSizeV1 := by
  have hsum : ∀ cs : List ColumnConfig, (cs.flatMap columnHeaderV1).length =
      ((cs.map ColumnConfig.column_name).map fun name => 32 + name.length).sum := by
    intro cs
    rw [List.length_flatMap, List.map_map]
    exact congrArg List.sum (List.map_congr_left fun c _ => length_columnHeaderV1 c)
  rw [headerV1, List.length_append, hsum, hnames, List.map_map, headerSizeV1,
    length_headerPreludeV1, length_headerPreludeV1]
  rfl

/-! ### The bodies -/

/-- The bytes of a body and what its buffer holds behind them. -/
def bodyBuffer (mem : Uninit) (i : Nat) (p : ColumnConfig × v1.ColumnWriter) : Bytes :=
  p.2.body ++ (mem.buffer i p.1.body_size).drop p.2.body.length

/-- The page writes of the bodies. -/
def bodyWrites (mem : Uninit) : Nat → List (ColumnConfig × v1.ColumnWriter) → List FileWrite
  | _, [] => []
  | i, p :: cols =>
    .page p.1.body_offset p.1.body_size (bodyBuffer mem i p) :: bodyWrites mem (i + 1) cols

/-- The buffer of a body has the size that was counted, also where fewer bytes were written to
it. -/
theorem length_bodyBuffer (mem : Uninit) (i : Nat) {p : ColumnConfig × v1.ColumnWriter}
    (h : p.2.body.length ≤ p.1.body_size) : (bodyBuffer mem i p).length = p.1.body_size := by
  rw [bodyBuffer, List.length_append, List.length_drop, Uninit.length_buffer]
  omega

/-- `writeBodies` writes the bodies in one `File::pwrite` each; it returns exactly when
all of them go through. -/
theorem writeBodies_eq_ok {mem : Uninit} {cols : List (ColumnConfig × v1.ColumnWriter)}
    (hfit : ∀ p ∈ cols, p.2.body.length ≤ p.1.body_size) {page_mgr page_mgr' : PageManager}
    {i : Nat} :
    writeBodies mem page_mgr i cols = .ok page_mgr' ↔
      (∀ p ∈ cols, PageManager.FitsPwrite p.1.body_offset p.1.body_size) ∧
        page_mgr' = { page_mgr with file := page_mgr.file ++ bodyWrites mem i cols } := by
  induction cols generalizing page_mgr i with
  | nil =>
    constructor
    · intro h
      cases h
      exact ⟨fun p hp => absurd hp List.not_mem_nil, by rw [bodyWrites, List.append_nil]⟩
    · rintro ⟨-, rfl⟩
      rw [bodyWrites, List.append_nil]
      rfl
  | cons p cols ih =>
    obtain ⟨col, w⟩ := p
    have hbody : w.body.length ≤ col.body_size := hfit (col, w) List.mem_cons_self
    have hrest : ∀ {pm : PageManager}, writeBodies mem pm (i + 1) cols = .ok page_mgr' ↔
        (∀ p ∈ cols, PageManager.FitsPwrite p.1.body_offset p.1.body_size) ∧
          page_mgr' = { pm with file := pm.file ++ bodyWrites mem (i + 1) cols } :=
      ih fun q hq => hfit q (List.mem_cons_of_mem _ hq)
    have hwrite : w.write (mem.buffer i col.body_size) = .ok (bodyBuffer mem i (col, w)) := by
      rw [v1.ColumnWriter.write, Uninit.length_buffer, if_neg (by omega)]
      rfl
    -- the buffer has the size the header announced, so the check after the write passes
    have hlen : ((bodyBuffer mem i (col, w)).length == col.body_size) = true :=
      beq_iff_eq.mpr (length_bodyBuffer mem i hbody)
    have hstep : writeBodies mem page_mgr i ((col, w) :: cols) =
        (page_mgr.writePage col.body_offset col.body_size (bodyBuffer mem i (col, w)) >>=
          fun page_mgr => writeBodies mem page_mgr (i + 1) cols) := by
      rw [writeBodies, hwrite, Result.ok_bind, RCHECK, if_pos hlen]
      rfl
    have hwrites : page_mgr.file ++ bodyWrites mem i ((col, w) :: cols) =
        page_mgr.file ++ [.page col.body_offset col.body_size (bodyBuffer mem i (col, w))] ++
          bodyWrites mem (i + 1) cols := List.append_cons _ _ _
    rw [hstep, Result.bind_eq_ok, List.forall_mem_cons]
    constructor
    · rintro ⟨pm, hpage, h⟩
      obtain ⟨hpos, rfl⟩ := PageManager.writePage_eq_ok.mp hpage
      obtain ⟨hpositions, rfl⟩ := hrest.mp h
      refine ⟨⟨hpos, hpositions⟩, ?_⟩
      rw [hwrites]
    · rintro ⟨⟨hpos, hpositions⟩, rfl⟩
      refine ⟨_, PageManager.writePage_eq_ok.mpr ⟨hpos, rfl⟩, hrest.mpr ⟨hpositions, ?_⟩⟩
      rw [hwrites]

/-- No class counts fewer bytes than it writes, so that the buffer is never overrun. Three
classes count more than they write. -/
theorem length_bytes_le (w : v1.DataWriter) : w.bytes.length ≤ w.size := by
  cases w with
  | boolean e => exact Nat.le_refl _
  | bitPackedInt max_value e =>
    show (appendUInt32 max_value ++ e.buf).length ≤ 4 + e.buf.length
    rw [List.length_append, length_appendUInt32]
  | uint32 type w => exact Nat.le_add_left _ _
  | uint64 type w => exact Nat.le_add_left _ _
  | leb128 type w => exact Nat.le_refl _
  | double w => exact Nat.le_add_left _ _
  | string w => exact Nat.le_refl _

/-- The same for the whole body with its four counts and its levels. -/
theorem length_body_le (w : v1.ColumnWriter) : w.body.length ≤ w.bodySize := by
  have hdata := length_bytes_le w.data_writer
  simp only [v1.ColumnWriter.body, v1.ColumnWriter.bodySize, List.length_append,
    length_appendUInt64, BitPackEncoder.size]
  omega

/-! ### The commit -/

/-- The columns a commit assigns to their regions, with their committed writers. -/
def placedColumns (t : CSTableWriter) (ws : List v1.ColumnWriter) :
    List (ColumnConfig × v1.ColumnWriter) :=
  assignOffsets t.headerSizeV1 (sizedColumns t.columns ws)

/-- A placed column is a column of the table with the region of its body. Everything else of the
config is as it was. -/
theorem placedColumns_spec (t : CSTableWriter) (ws : List v1.ColumnWriter) :
    List.Forall₂ (fun c p => p.1 = { c.1 with
        body_offset := p.1.body_offset
        body_size := c.2.commit.bodySize } ∧ p.2 = c.2.commit)
      (t.columns.zip ws) (t.placedColumns ws) := by
  have h := assignOffsets_spec t.headerSizeV1 (sizedColumns t.columns ws)
  exact List.forall₂_map_left_iff.mp h

/-- The size of its region is what the writer counts. -/
theorem placedColumns_size {t : CSTableWriter} {ws : List v1.ColumnWriter} :
    ∀ p ∈ t.placedColumns ws, p.1.body_size = p.2.bodySize := by
  intro p hp
  obtain ⟨c, -, hcol, hw⟩ := exists_of_mem_right (placedColumns_spec t ws) hp
  rw [hcol, hw]

/-- And the body fits into it. The commit allocates the size that the writer counts and writes
what the writer has. -/
theorem placedColumns_fit {t : CSTableWriter} {ws : List v1.ColumnWriter} :
    ∀ p ∈ t.placedColumns ws, p.2.body.length ≤ p.1.body_size := fun p hp =>
  placedColumns_size p hp ▸ length_body_le p.2

/-- There is one placed column for each column. -/
theorem length_placedColumns {t : CSTableWriter} {ws : List v1.ColumnWriter}
    (hlen : t.columns.length = ws.length) :
    (t.placedColumns ws).length = t.columns.length := by
  rw [← (placedColumns_spec t ws).length_eq, List.length_zip, ← hlen, Nat.min_self]

/-- Whatever does not depend on the region of a column is the same for the placed columns as for
the columns, in their order. -/
theorem placedColumns_map {α : Type} {f : ColumnConfig → α}
    (hf : ∀ (c : ColumnConfig) (body_offset body_size : Nat),
      f { c with body_offset, body_size } = f c)
    {t : CSTableWriter} {ws : List v1.ColumnWriter} (hlen : t.columns.length = ws.length) :
    ((t.placedColumns ws).map Prod.fst).map f = t.columns.map f := by
  have hzip : (t.columns.zip ws).map Prod.fst = t.columns :=
    List.map_fst_zip (Nat.le_of_eq hlen)
  rw [List.map_map]
  calc (t.placedColumns ws).map (f ∘ Prod.fst)
      = (t.columns.zip ws).map (f ∘ Prod.fst) :=
        (map_eq_map (placedColumns_spec t ws) fun c p hcp =>
          ((congrArg f hcp.1).trans (hf c.1 _ _)).symm).symm
    _ = t.columns.map f := by
        rw [← List.map_map, hzip]

/-- The placed columns have the names of the columns. The length of the header is that of the
names. -/
theorem placedColumns_names {t : CSTableWriter} {ws : List v1.ColumnWriter}
    (hlen : t.columns.length = ws.length) :
    ((t.placedColumns ws).map Prod.fst).map ColumnConfig.column_name =
      t.columns.map ColumnConfig.column_name :=
  placedColumns_map (fun _ _ _ => rfl) hlen

/-- What a commit writes: the header, then the bodies. -/
structure CommittedV1 (mem : Uninit) (t t' : CSTableWriter) (ws : List v1.ColumnWriter) :
    Prop where
  columns : t'.columns = (t.placedColumns ws).map Prod.fst
  file : t'.file = t.file ++
    .page 0 t.headerSizeV1 (headerV1 t.num_rows t'.columns) ::
      bodyWrites mem 0 (t.placedColumns ws)
  header : PageManager.FitsPwrite 0 t.headerSizeV1
  bodies : ∀ p ∈ t.placedColumns ws, PageManager.FitsPwrite p.1.body_offset p.1.body_size

/-- The header has the length that the commit has computed before it assigned the offsets. -/
theorem CommittedV1.length_header {mem : Uninit} {t t' : CSTableWriter}
    {ws : List v1.ColumnWriter} (h : CommittedV1 mem t t' ws)
    (hlen : t.columns.length = ws.length) :
    (headerV1 t.num_rows t'.columns).length = t.headerSizeV1 := by
  rw [h.columns]
  exact length_headerV1 (placedColumns_names hlen)

/-- So the page of the header is the header, without padding. -/
theorem CommittedV1.toWrite_header {mem : Uninit} {t t' : CSTableWriter}
    {ws : List v1.ColumnWriter} (h : CommittedV1 mem t t' ws)
    (hlen : t.columns.length = ws.length) :
    (FileWrite.page 0 t.headerSizeV1 (headerV1 t.num_rows t'.columns)).toWrite =
      ⟨0, headerV1 t.num_rows t'.columns⟩ := by
  rw [FileWrite.toWrite, FileWrite.pageData_of_length_eq (h.length_header hlen)]

/-- A table has as many writers as slots. -/
theorem WritersV1.length_eq {t : CSTableWriter} {ws : List v1.ColumnWriter}
    (h : t.WritersV1 ws) : t.column_writers.length = ws.length := by
  have hlen := congrArg List.length h
  rwa [List.length_map, List.length_map] at hlen

/-- The writers of slots that hold v0.1.0 writers only. By induction on the slots. -/
theorem exists_writersV1 {slots : List ColumnSlot}
    (h : ∀ slot ∈ slots, ∃ w, slot.writer = .v1 w) :
    ∃ ws : List v1.ColumnWriter, slots.map ColumnSlot.writer = ws.map .v1 := by
  induction slots with
  | nil => exact ⟨[], rfl⟩
  | cons slot slots ih =>
    obtain ⟨w, hw⟩ := h slot List.mem_cons_self
    obtain ⟨ws, hws⟩ := ih fun slot' hslot' => h slot' (List.mem_cons_of_mem slot hslot')
    exact ⟨w :: ws, by rw [List.map_cons, List.map_cons, hw, hws]⟩

/-- A table has one list of writers, so that statements about it do not depend on which was
named. -/
theorem WritersV1.unique {t : CSTableWriter} {ws vs : List v1.ColumnWriter} (h : t.WritersV1 ws)
    (h' : t.WritersV1 vs) : ws = vs :=
  List.map_injective_iff.mpr (fun _ _ heq => ColumnWriter.v1.inj heq) (h.symm.trans h')

/-- What a commit that returns has done: the header with the placed columns in one write, then
each body in one write, in the order of the columns. -/
theorem commitV1_spec {mem : Uninit} {t t' : CSTableWriter} {ws : List v1.ColumnWriter}
    (hws : t.WritersV1 ws) (hlen : t.columns.length = ws.length)
    (h : t.commitV1 mem = .ok t') : CommittedV1 mem t t' ws := by
  have hsize := length_headerV1 (placedColumns_names hlen)
  unfold commitV1 at h
  rw [commitColumns_eq hws, Result.ok_bind] at h
  obtain ⟨pm₁, hheader, h⟩ := Result.bind_eq_ok.mp h
  obtain ⟨pm₂, hbodies, hret⟩ := Result.bind_eq_ok.mp h
  obtain ⟨hfits, rfl⟩ := PageManager.writePage_eq_ok.mp hheader
  obtain ⟨hfitting, rfl⟩ := (writeBodies_eq_ok placedColumns_fit).mp hbodies
  cases hret
  have hheader : PageManager.FitsPwrite 0
      (headerV1 t.num_rows ((t.placedColumns ws).map Prod.fst)).length := hfits
  rw [hsize] at hheader
  refine ⟨rfl, ?_, hheader, hfitting⟩
  show t.file ++ [.page 0 (headerV1 t.num_rows ((t.placedColumns ws).map Prod.fst)).length
      (headerV1 t.num_rows ((t.placedColumns ws).map Prod.fst))] ++
      bodyWrites mem 0 (t.placedColumns ws) =
    t.file ++ .page 0 t.headerSizeV1 (headerV1 t.num_rows ((t.placedColumns ws).map Prod.fst)) ::
      bodyWrites mem 0 (t.placedColumns ws)
  rw [hsize, ← List.append_cons]

/-- A commit succeeds when its writes can be done: the header in one call, and each
body in one call. -/
theorem commitV1_ok (mem : Uninit) {t : CSTableWriter} {ws : List v1.ColumnWriter}
    (hws : t.WritersV1 ws) (hlen : t.columns.length = ws.length)
    (hheader : PageManager.FitsPwrite 0 t.headerSizeV1)
    (hbodies : ∀ p ∈ t.placedColumns ws,
      PageManager.FitsPwrite p.1.body_offset p.1.body_size) :
    ∃ t', t.commitV1 mem = .ok t' := by
  have hfits : PageManager.FitsPwrite 0
      (headerV1 t.num_rows ((t.placedColumns ws).map Prod.fst)).length := by
    rw [length_headerV1 (placedColumns_names hlen)]
    exact hheader
  unfold commitV1
  rw [commitColumns_eq hws, Result.ok_bind]
  refine ⟨_, Result.bind_eq_ok.mpr ⟨_, PageManager.writePage_eq_ok.mpr ⟨hfits, rfl⟩,
    Result.bind_eq_ok.mpr ⟨_, (writeBodies_eq_ok placedColumns_fit).mpr ⟨hbodies, rfl⟩, rfl⟩⟩⟩

/-! ### The content of the file -/

/-- The writes of the bodies cover the announced regions exactly. A body that is shorter than
its size is written with the rest of its buffer. -/
theorem extent_bodyWrites (mem : Uninit) (i : Nat) (cols : List (ColumnConfig × v1.ColumnWriter)) :
    ((bodyWrites mem i cols).map FileWrite.toWrite).map Write.extent =
      cols.map fun p => p.1.bodyExtent := by
  induction cols generalizing i with
  | nil => rfl
  | cons p cols ih =>
    have hextent :
        (FileWrite.page p.1.body_offset p.1.body_size (bodyBuffer mem i p)).toWrite.extent =
        p.1.bodyExtent := by
      rw [FileWrite.toWrite, Write.extent, FileWrite.length_pageData]
      rfl
    rw [bodyWrites, List.map_cons, List.map_cons, List.map_cons, hextent, ih]

/-- A body is where its region begins. By induction on the columns, with what is in front of the
bodies that are left. -/
theorem holdsAt_bodyWrites (mem : Uninit) (i : Nat) (post : Bytes)
    {cols : List (ColumnConfig × v1.ColumnWriter)}
    (hfit : ∀ p ∈ cols, p.2.body.length ≤ p.1.body_size) {base : Nat}
    (hadj : Adjacent base (cols.map fun p => p.1.bodyExtent)) {pre : Bytes}
    (hpre : pre.length = base) :
    ∀ p ∈ cols, HoldsAt (pre ++ (((bodyWrites mem i cols).map FileWrite.toWrite).flatMap
      Write.data ++ post)) p.1.body_offset p.2.body := by
  induction cols generalizing i base pre with
  | nil => exact fun p hp => absurd hp List.not_mem_nil
  | cons q cols ih =>
    obtain ⟨hstart, htail⟩ := hadj
    have hq : q.2.body.length ≤ q.1.body_size := hfit q List.mem_cons_self
    have hbuf := length_bodyBuffer mem i hq
    have hdata : ((bodyWrites mem i (q :: cols)).map FileWrite.toWrite).flatMap Write.data =
        bodyBuffer mem i q ++
          ((bodyWrites mem (i + 1) cols).map FileWrite.toWrite).flatMap Write.data := by
      rw [bodyWrites, List.map_cons, List.flatMap_cons, FileWrite.toWrite,
        FileWrite.pageData_of_length_eq hbuf]
    rw [hdata]
    intro p hp
    -- the first body starts where the header stops, and each other one behind the body before it
    rcases List.mem_cons.mp hp with rfl | hmem
    · rw [bodyBuffer, List.append_assoc, List.append_assoc]
      exact ⟨pre, _, rfl, hpre.trans hstart.symm⟩
    · have hpre' : (pre ++ bodyBuffer mem i q).length = q.1.bodyExtent.stop := by
        rw [List.length_append, hbuf, hpre, ← hstart]
        rfl
      have h := ih (i + 1) (fun p hp => hfit p (List.mem_cons_of_mem _ hp)) htail hpre' p hmem
      rwa [List.append_assoc, ← List.append_assoc (bodyBuffer mem i q)] at h

/-- The file is the header and the bodies, one after the other: they are adjacent, so each write
appends. -/
theorem CommittedV1.contents {mem : Uninit} {t t' : CSTableWriter} {ws : List v1.ColumnWriter}
    (h : CommittedV1 mem t t' ws) (hlen : t.columns.length = ws.length) (hnew : t.file = []) :
    contents t'.file = headerV1 t.num_rows t'.columns ++
      ((bodyWrites mem 0 (t.placedColumns ws)).map FileWrite.toWrite).flatMap Write.data := by
  have hadj := assignOffsets_adjacent t.headerSizeV1 (sizedColumns t.columns ws)
  have hall : Adjacent ([] : Bytes).length
      ((⟨0, headerV1 t.num_rows t'.columns⟩ ::
        (bodyWrites mem 0 (t.placedColumns ws)).map FileWrite.toWrite).map Write.extent) := by
    rw [List.map_cons, extent_bodyWrites]
    refine ⟨rfl, ?_⟩
    have hstop : (Write.extent ⟨0, headerV1 t.num_rows t'.columns⟩).stop = t.headerSizeV1 := by
      rw [← h.length_header hlen]
      exact Nat.zero_add _
    rw [hstop]
    exact hadj
  rw [h.file, hnew, List.nil_append, CStable.contents, List.map_cons, h.toWrite_header hlen,
    applyWrites_adjacent 0 [] _ hall, List.nil_append, List.flatMap_cons]

end CSTableWriter

end CStable
