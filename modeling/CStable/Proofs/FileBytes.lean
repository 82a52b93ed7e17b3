import CStable.Proofs.BodyBytes

/-!
# `CStable.Proofs.FileBytes`: what the bytes of a file depend on

A commit of a v0.1.0 table writes the header and the bodies over what the file held before,
and the buffers of the bodies are not initialised. What decides on the bytes that come out:

* `contents_overwrite`: nothing of the file before the commit is left, when that was not
  longer.
* `SameCommit`: two tables with the same columns and rows whose writers have the same blocks
  once these are padded. The ids of the columns, which the format does not store, and the
  places of earlier bodies may differ.
* `SameCommit.contents`: their files are the same bytes whatever the two commits find in
  memory, when no column is of the classes that count more bytes than they write.
-/

set_option autoImplicit false

namespace CStable

open Support

/-- A column without its id, which v0.1.0 does not store, and without the place of the body,
which every commit assigns anew. -/
def ColumnConfig.unplaced (c : ColumnConfig) : ColumnConfig :=
  { c with column_id := 0, body_offset := 0, body_size := 0 }

namespace CSTableWriter

/-! ### A commit over a file that is there already -/

/-- The sizes of the bodies of the columns. -/
def bodySizes (ws : List v1.ColumnWriter) : Nat := (ws.map v1.ColumnWriter.bodySize).sum

/-- Each body fills the page that the commit gave it, padded or not. -/
theorem length_bodyBytes {mem : Uninit} {cols : List (ColumnConfig × v1.ColumnWriter)} {i : Nat} :
    (bodyBytes mem i cols).length = (cols.map fun p => p.1.body_size).sum := by
  unfold bodyBytes
  induction cols generalizing i with
  | nil => rfl
  | cons p cols ih =>
    rw [bodyWrites, List.map_cons, List.flatMap_cons, List.length_append, ih, List.map_cons,
      List.sum_cons, FileWrite.toWrite, FileWrite.length_pageData]

/-- The regions of the placed columns are those of the padded bodies. -/
theorem sum_placedColumns {t : CSTableWriter} {ws : List v1.ColumnWriter}
    (hlen : t.columns.length = ws.length) :
    ((t.placedColumns ws).map fun p => p.1.body_size).sum =
      bodySizes (ws.map v1.ColumnWriter.commit) := by
  have hzip : (t.columns.zip ws).map Prod.snd = ws := List.map_snd_zip (Nat.le_of_eq hlen.symm)
  unfold bodySizes
  calc ((t.placedColumns ws).map fun p => p.1.body_size).sum
      = ((t.columns.zip ws).map fun c => c.2.commit.bodySize).sum :=
        congrArg List.sum (map_eq_map (placedColumns_spec t ws) fun c p hcp => by rw [hcp.1]).symm
    _ = (((t.columns.zip ws).map Prod.snd).map fun w => w.commit.bodySize).sum := by
        rw [List.map_map]
        rfl
    _ = ((ws.map v1.ColumnWriter.commit).map v1.ColumnWriter.bodySize).sum := by
        rw [hzip, List.map_map]
        rfl

/-- A commit leaves nothing of what the file held before, when that was not longer. Bodies never
shrink, so an earlier commit was not longer. -/
theorem contents_overwrite {mem : Uninit} {t t' : CSTableWriter}
    {ws : List v1.ColumnWriter} (h : CommittedV1 mem t t' ws)
    (hlen : t.columns.length = ws.length)
    (hold : (contents t.file).length ≤
      t.headerSizeV1 + bodySizes (ws.map v1.ColumnWriter.commit)) :
    contents t'.file = headerV1 t.num_rows ((t.placedColumns ws).map Prod.fst) ++
      bodyBytes mem 0 (t.placedColumns ws) := by
  have hsize := h.length_header hlen
  have hwrite := h.toWrite_header hlen
  have hall : Adjacent ([] : Bytes).length
      ((⟨0, headerV1 t.num_rows t'.columns⟩ ::
        (bodyWrites mem 0 (t.placedColumns ws)).map FileWrite.toWrite).map Write.extent) := by
    have hstop : (Write.extent ⟨0, headerV1 t.num_rows t'.columns⟩).stop = t.headerSizeV1 := by
      rw [← hsize]
      exact Nat.zero_add _
    rw [List.map_cons, extent_bodyWrites]
    refine ⟨rfl, ?_⟩
    rw [hstop]
    exact assignOffsets_adjacent t.headerSizeV1 (sizedColumns t.columns ws)
  have hwrites := applyWrites_overwrite 0 [] (contents t.file) _ hall
  -- nothing of the older file is left behind the last body
  have hrest : (contents t.file).drop (headerV1 t.num_rows t'.columns ++
      bodyBytes mem 0 (t.placedColumns ws)).length = [] := by
    refine List.drop_eq_nil_of_le ?_
    rw [List.length_append, hsize, length_bodyBytes, sum_placedColumns hlen]
    exact hold
  unfold bodyBytes at hrest ⊢
  rw [List.nil_append, List.nil_append, List.flatMap_cons, hrest, List.append_nil] at hwrites
  rw [h.file, contents_append, List.map_cons, hwrite, hwrites, h.columns]

/-- The length of the file after such a commit. -/
theorem length_contents_overwrite {mem : Uninit} {t t' : CSTableWriter}
    {ws : List v1.ColumnWriter} (h : CommittedV1 mem t t' ws)
    (hlen : t.columns.length = ws.length)
    (hold : (contents t.file).length ≤
      t.headerSizeV1 + bodySizes (ws.map v1.ColumnWriter.commit)) :
    (contents t'.file).length =
      t.headerSizeV1 + bodySizes (ws.map v1.ColumnWriter.commit) := by
  rw [contents_overwrite h hlen hold, List.length_append,
    length_headerV1 (placedColumns_names hlen), length_bodyBytes, sum_placedColumns hlen]

/-! ### What the placed columns are made of -/

/-- A placed column without its id. -/
def withoutId (p : ColumnConfig × v1.ColumnWriter) : ColumnConfig × v1.ColumnWriter :=
  ({ p.1 with column_id := 0 }, p.2)

/-- A column and its padded writer, with the size of the body and no place for it yet. -/
def sized (p : ColumnConfig × v1.ColumnWriter) : ColumnConfig × v1.ColumnWriter :=
  ({ p.1 with body_size := p.2.bodySize }, p.2)

/-- Names of columns that differ in ids and places only. -/
theorem map_column_name_unplaced (columns : List ColumnConfig) :
    columns.map ColumnConfig.column_name =
      (columns.map ColumnConfig.unplaced).map ColumnConfig.column_name := by
  rw [List.map_map]
  rfl

/-- The length of the header depends on the names only. -/
theorem headerSizeV1_congr {t u : CSTableWriter}
    (h : t.columns.map ColumnConfig.column_name = u.columns.map ColumnConfig.column_name) :
    t.headerSizeV1 = u.headerSizeV1 := by
  have hnames := congrArg (List.map fun name : Bytes => 32 + name.length) h
  rw [List.map_map, List.map_map] at hnames
  unfold headerSizeV1
  rw [length_headerPreludeV1, length_headerPreludeV1]
  exact congrArg (fun xs : List Nat => 26 + xs.sum) hnames

/-- The offsets are assigned whatever the ids of the columns are and wherever the bodies
were before. -/
theorem map_assignOffsets (base : Nat) (cols : List (ColumnConfig × v1.ColumnWriter)) :
    (assignOffsets base cols).map withoutId =
      assignOffsets base
        (cols.map fun p => ({ p.1 with column_id := 0, body_offset := 0 }, p.2)) := by
  induction cols generalizing base with
  | nil => rfl
  | cons p cols ih =>
    obtain ⟨col, w⟩ := p
    rw [List.map_cons, assignOffsets, assignOffsets, List.map_cons, ih]
    rfl

/-- The placed columns, but for their ids, are those of the columns without ids and places,
with the padded writers. -/
theorem placedColumns_eq (t : CSTableWriter) (ws : List v1.ColumnWriter) :
    (t.placedColumns ws).map withoutId = assignOffsets t.headerSizeV1
      (((t.columns.map ColumnConfig.unplaced).zip (ws.map v1.ColumnWriter.commit)).map sized) := by
  unfold placedColumns sizedColumns
  rw [map_assignOffsets, List.map_map, List.zip_map, List.map_map]
  rfl

/-- Tables with the same columns, apart from ids and places, and the same padded writers
place them in the same way. -/
theorem placedColumns_congr {t u : CSTableWriter} {ws vs : List v1.ColumnWriter}
    (hcolumns : t.columns.map ColumnConfig.unplaced = u.columns.map ColumnConfig.unplaced)
    (hwriters : ws.map v1.ColumnWriter.commit = vs.map v1.ColumnWriter.commit) :
    (t.placedColumns ws).map withoutId = (u.placedColumns vs).map withoutId := by
  have hheader : t.headerSizeV1 = u.headerSizeV1 := headerSizeV1_congr <| by
    rw [map_column_name_unplaced, hcolumns, ← map_column_name_unplaced]
  rw [placedColumns_eq, placedColumns_eq, hheader, hcolumns, hwriters]

/-- The header does not store the ids: a record has the name, the maxima and the place of the
body. -/
theorem headerV1_withoutId (num_rows : UInt64) (cols : List (ColumnConfig × v1.ColumnWriter)) :
    headerV1 num_rows (cols.map Prod.fst) =
      headerV1 num_rows ((cols.map withoutId).map Prod.fst) := by
  unfold headerV1
  rw [List.length_map, List.length_map, List.length_map, List.map_map, List.flatMap_map,
    List.flatMap_map]
  rfl

/-- Neither do the bodies. -/
theorem bodyBytes_withoutId (mem : Uninit) (i : Nat)
    (cols : List (ColumnConfig × v1.ColumnWriter)) :
    bodyBytes mem i cols = bodyBytes mem i (cols.map withoutId) := by
  have hwrites : bodyWrites mem i cols = bodyWrites mem i (cols.map withoutId) := by
    induction cols generalizing i with
    | nil => rfl
    | cons p cols ih =>
      rw [List.map_cons, bodyWrites, bodyWrites, ih]
      rfl
  unfold bodyBytes
  rw [hwrites]

/-! ### Two tables with the same file -/

/-- The tables have the same columns, apart from their ids and the places of their bodies, and
the same rows, and their writers have the same blocks once these are padded. -/
structure SameCommit (t u : CSTableWriter) (ws vs : List v1.ColumnWriter) : Prop where
  version : t.version = .v0_1_0
  version' : u.version = .v0_1_0
  columns : t.columns.map ColumnConfig.unplaced = u.columns.map ColumnConfig.unplaced
  num_rows : t.num_rows = u.num_rows
  writers : t.WritersV1 ws
  writers' : u.WritersV1 vs
  length : t.columns.length = ws.length
  committed : ws.map v1.ColumnWriter.commit = vs.map v1.ColumnWriter.commit

namespace SameCommit

variable {t u : CSTableWriter} {ws vs : List v1.ColumnWriter}

/-- Both tables have as many columns, since the shapes agree one by one. -/
theorem length' (h : SameCommit t u ws vs) : u.columns.length = vs.length := by
  have hcolumns := congrArg List.length h.columns
  have hwriters := congrArg List.length h.committed
  rw [List.length_map, List.length_map] at hcolumns hwriters
  rw [← hcolumns, h.length, hwriters]

/-- The relation does not tell which of the two tables comes first. -/
theorem symm (h : SameCommit t u ws vs) : SameCommit u t vs ws :=
  ⟨h.version', h.version, h.columns.symm, h.num_rows.symm, h.writers', h.writers, h.length',
    h.committed.symm⟩

/-- The header has the same size for both, so the first body starts at the same place. -/
theorem headerSizeV1_eq (h : SameCommit t u ws vs) : t.headerSizeV1 = u.headerSizeV1 :=
  headerSizeV1_congr <| by
    rw [map_column_name_unplaced, h.columns, ← map_column_name_unplaced]

/-- What holds of the placed columns of the one table, whatever their ids are, holds of those
of the other one. -/
theorem forall_placed (h : SameCommit t u ws vs) {P : ColumnConfig × v1.ColumnWriter → Prop}
    (hP : ∀ p, P (withoutId p) ↔ P p) (hu : ∀ p ∈ u.placedColumns vs, P p) :
    ∀ p ∈ t.placedColumns ws, P p := by
  intro p hp
  have hmem : withoutId p ∈ (u.placedColumns vs).map withoutId :=
    placedColumns_congr h.columns h.committed ▸ List.mem_map_of_mem hp
  obtain ⟨q, hq, heq⟩ := List.mem_map.mp hmem
  exact (hP p).mp (heq ▸ (hP q).mpr (hu q hq))

/-- A commit of the one table returns when one of the other does: the writes are of the same
lengths at the same places. -/
theorem exists_commit (h : SameCommit t u ws vs) {mem : Uninit} (mem' : Uninit)
    {u' : CSTableWriter} (hcommit : u.commit mem = .ok u') : ∃ t', t.commit mem' = .ok t' := by
  rw [CSTableWriter.commit, h.version'] at hcommit
  have hspec := commitV1_spec h.writers' h.length' hcommit
  obtain ⟨t', ht'⟩ := commitV1_ok mem' h.writers h.length (h.headerSizeV1_eq.symm ▸ hspec.header)
    (h.forall_placed (fun p => Iff.rfl) hspec.bodies)
  exact ⟨t', by rw [CSTableWriter.commit, h.version]; exact ht'⟩

/-- The two files are the same bytes whatever the commits find in memory, when the bodies fill
their buffers. -/
theorem contents (h : SameCommit t u ws vs) {mem mem' : Uninit} {t' u' : CSTableWriter}
    (hfull : ∀ p ∈ u.placedColumns vs, p.2.body.length = p.1.body_size)
    (hold : (CStable.contents t.file).length ≤
      t.headerSizeV1 + bodySizes (ws.map v1.ColumnWriter.commit))
    (hold' : (CStable.contents u.file).length ≤
      u.headerSizeV1 + bodySizes (vs.map v1.ColumnWriter.commit))
    (hcommit : t.commit mem = .ok t') (hcommit' : u.commit mem' = .ok u') :
    CStable.contents t'.file = CStable.contents u'.file := by
  rw [CSTableWriter.commit, h.version] at hcommit
  rw [CSTableWriter.commit, h.version'] at hcommit'
  rw [contents_overwrite (commitV1_spec h.writers h.length hcommit) h.length hold,
    contents_overwrite (commitV1_spec h.writers' h.length' hcommit') h.length' hold',
    headerV1_withoutId, headerV1_withoutId _ (u.placedColumns vs), bodyBytes_withoutId,
    placedColumns_congr h.columns h.committed, h.num_rows, ← bodyBytes_withoutId,
    (bodyBytes_same_iff placedColumns_fit 0).mpr hfull mem mem']

end SameCommit

end CSTableWriter

end CStable
