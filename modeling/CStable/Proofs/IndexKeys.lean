import CStable.Proofs.TableV2
import Mathlib.Data.List.Nodup

/-!
# `CStable.Proofs.IndexKeys`: the keys of the page index

`KeysAgree` is what the writer and the reader of a v0.2.0 table have to agree on:
every stream of a column has one entry in the index, and the reader registers
for these entries.

* `keysAgree_iff`: they agree exactly for tables without level streams whose
  columns have distinct ids. A level stream is registered twice by the writer,
  and the reader never looks for definition levels.
* `not_keysAgree_optional`: a table with one optional column.
-/

set_option autoImplicit false

namespace CStable

open Support v0_2_0

/-- The keys of an index fit the columns and the reader that opened the file. -/
structure KeysAgree (columns : List ColumnConfig) (keys : List PageIndexKey)
    (opened : Result CSTableReader) : Prop where
  data : ∀ c ∈ columns, keys.count ⟨c.column_id, .DATA⟩ = 1
  rlevel : ∀ c ∈ columns,
    keys.count ⟨c.column_id, .RLEVEL⟩ = if c.rlevel_max > 0 then 1 else 0
  dlevel : ∀ c ∈ columns,
    keys.count ⟨c.column_id, .DLEVEL⟩ = if c.dlevel_max > 0 then 1 else 0
  nodup : keys.Nodup
  opened : ∃ reader, opened = .ok reader ∧ ∀ key, key ∈ reader.page_idx ↔ key ∈ keys

/-- The entries of the index a table was committed with: what the loop over the
page writers yields, and what the index page was written with. -/
structure CommittedIndex (t t' : CSTableWriter) (entries : List (PageIndexKey × Bytes)) :
    Prop where
  written_by_loop : ∃ page_mgr, PageIndex.writeEntries t.pages.page_writers t.pages.page_mgr
    t.pages.page_idx = .ok (entries, page_mgr)
  in_file : ∃ page, PageIndex.indexWrite page entries ∈ t'.file

/-- There are no level streams and the columns can be told apart by their ids. -/
def PlainColumns (columns : List ColumnConfig) : Prop :=
  (∀ c ∈ columns, c.rlevel_max = 0 ∧ c.dlevel_max = 0) ∧ (columns.map fun c => c.column_id).Nodup

/-! ### The registered keys -/

/-- A column without levels registers its data stream only. -/
theorem ColumnConfig.registeredKeys_of_plain {c : ColumnConfig}
    (h : c.rlevel_max = 0 ∧ c.dlevel_max = 0) : c.registeredKeys = [⟨c.column_id, .DATA⟩] := by
  unfold registeredKeys
  rw [h.1, h.2]
  rfl

/-- Without repetition levels the reader asks for the data stream and for no other. -/
theorem CSTableReader.openedKeys_of_plain {c : ColumnConfig} (h : c.rlevel_max = 0) :
    openedKeys c = [⟨c.column_id, .DATA⟩] := by
  unfold openedKeys
  rw [h]
  rfl

/-- A level stream is registered twice. -/
theorem ColumnConfig.plain_of_nodup {c : ColumnConfig} (h : c.registeredKeys.Nodup) :
    c.rlevel_max = 0 ∧ c.dlevel_max = 0 := by
  unfold registeredKeys at h
  obtain ⟨hlevels, -, -⟩ := List.nodup_append.mp h
  obtain ⟨hr, hd, -⟩ := List.nodup_append.mp hlevels
  constructor
  · by_contra hne
    rw [if_pos (Nat.pos_of_ne_zero hne)] at hr
    exact absurd hr (List.not_nodup_pair _)
  · by_contra hne
    rw [if_pos (Nat.pos_of_ne_zero hne)] at hd
    exact absurd hd (List.not_nodup_pair _)

/-- The keys of a table without levels, one for each column. The keys of writer and reader
come down to this list. -/
theorem flatMap_of_plain {columns : List ColumnConfig} {f : ColumnConfig → List PageIndexKey}
    (h : ∀ c ∈ columns, f c = [⟨c.column_id, .DATA⟩]) :
    columns.flatMap f = columns.map fun c => ⟨c.column_id, .DATA⟩ := by
  rw [List.flatMap_congr h, List.map_eq_flatMap]

/-- The keys of a table without level streams are as distinct as the ids. -/
theorem nodup_dataKeys_iff (columns : List ColumnConfig) :
    (columns.map fun c => (⟨c.column_id, .DATA⟩ : PageIndexKey)).Nodup ↔
      (columns.map fun c => c.column_id).Nodup := by
  have hcomp : (columns.map fun c => (⟨c.column_id, .DATA⟩ : PageIndexKey)) =
      (columns.map fun c => c.column_id).map fun id => ⟨id, .DATA⟩ := by
    rw [List.map_map]
    rfl
  rw [hcomp]
  refine List.nodup_map_iff fun a b hab => ?_
  cases hab
  rfl

/-- Registered keys without duplicates leave no room for levels. -/
theorem plainColumns_of_nodup {columns : List ColumnConfig}
    (h : (columns.flatMap ColumnConfig.registeredKeys).Nodup) : PlainColumns columns := by
  have hplain : ∀ c ∈ columns, c.rlevel_max = 0 ∧ c.dlevel_max = 0 := fun c hc =>
    ColumnConfig.plain_of_nodup ((List.nodup_flatMap.mp h).1 c hc)
  refine ⟨hplain, ?_⟩
  rw [flatMap_of_plain fun c hc => ColumnConfig.registeredKeys_of_plain (hplain c hc)] at h
  exact (nodup_dataKeys_iff columns).mp h

/-- The keys the writer registers, against a reader of its file. -/
theorem keysAgree_registeredKeys_iff {columns : List ColumnConfig} {opened : Result CSTableReader}
    (hopened : ∃ reader, opened = .ok reader ∧
      reader.page_idx = columns.flatMap CSTableReader.openedKeys) :
    KeysAgree columns (columns.flatMap ColumnConfig.registeredKeys) opened ↔
      PlainColumns columns := by
  constructor
  · intro h
    exact plainColumns_of_nodup h.nodup
  · rintro ⟨hplain, hids⟩
    have hkeys := flatMap_of_plain fun c hc =>
      ColumnConfig.registeredKeys_of_plain (hplain c hc)
    have hreader := flatMap_of_plain fun c hc =>
      CSTableReader.openedKeys_of_plain (hplain c hc).1
    have hnodup := (nodup_dataKeys_iff columns).mpr hids
    -- required columns that do not repeat register their data and nothing else
    have hno : ∀ (id : UInt32) (type : PageIndexEntryType), type ≠ .DATA →
        (columns.map fun c => (⟨c.column_id, .DATA⟩ : PageIndexKey)).count ⟨id, type⟩ = 0 := by
      intro id type htype
      refine List.count_eq_zero.mpr fun hmem => ?_
      obtain ⟨c, -, heq⟩ := List.mem_map.mp hmem
      cases heq
      exact htype rfl
    rw [hkeys]
    refine ⟨fun c hc => ?_, fun c hc => ?_, fun c hc => ?_, hnodup, ?_⟩
    · exact List.count_eq_one_of_mem hnodup (List.mem_map_of_mem hc)
    · rw [(hplain c hc).1, hno _ _ (by decide)]
      rfl
    · rw [(hplain c hc).2, hno _ _ (by decide)]
      rfl
    · obtain ⟨reader, hok, hidx⟩ := hopened
      refine ⟨reader, hok, fun key => ?_⟩
      rw [hidx, hreader]

/-! ### The whole run -/

/-- The index a table is committed with has the keys its columns registered, and
a reader of the file registers for the keys it knows of. -/
theorem committedIndex_spec (mem' : Uninit) {mem : Uninit} {order : HashOrder}
    {schema : TableSchema} {t t' : CSTableWriter} {ops : List CSTableWriter.TableOp}
    (hcreate : CSTableWriter.createFile mem order .v0_2_0 schema = .ok t)
    (hcols : Representable t.columns) (hcommit : (t.after ops).commit mem = .ok t') :
    ∃ entries, CommittedIndex (t.after ops) t' entries ∧
      entries.map Prod.fst = t.columns.flatMap ColumnConfig.registeredKeys ∧
      ∃ reader, CSTableReader.openFile mem' (contents t'.file) = .ok reader ∧
        reader.page_idx = t.columns.flatMap CSTableReader.openedKeys := by
  obtain ⟨header, hcreated⟩ := CSTableWriter.createFile_v2_spec hcreate
  obtain ⟨hsame, hinv, hidx⟩ := hcreated.after ops
  obtain ⟨entries, page, pages, hcommitted⟩ := CSTableWriter.commit_v2_spec
    (hsame.version.trans hcreated.version) hinv (hsame.current_txid.trans hcreated.current_txid)
    (hsame.free_idx_ptr.trans hcreated.free_idx_ptr) hcommit
  obtain ⟨page_mgr, hentries, hspec, -⟩ := hcommitted.index
  refine ⟨entries, ⟨⟨page_mgr, hentries⟩, page, ?_⟩, ?_, ?_⟩
  · obtain ⟨file_size, hfile⟩ := hcommitted.file
    rw [hfile]
    exact List.mem_append_left _ (List.mem_cons_of_mem _
      (List.mem_append_right _ List.mem_cons_self))
  · rw [hspec.keys, hidx, hcreated.keys]
  · obtain ⟨reader, hok, -, -, -, hreader⟩ := CSTableWriter.openFile_committed mem'
      hcommitted (hsame.columns ▸ hcreated.writeHeader) (hsame.columns ▸ hcols)
      (hsame.columns ▸ hcreated.types)
    rw [hsame.columns] at hreader
    exact ⟨reader, hok, hreader⟩

/-- A table that is created, written to and committed has a correct index, and
its reader registers for it, exactly when it has no level streams and its column
ids are distinct. -/
theorem keysAgree_iff (mem mem' : Uninit) (order : HashOrder) (schema : TableSchema)
    (t t' : CSTableWriter) (ops : List CSTableWriter.TableOp)
    (hcreate : CSTableWriter.createFile mem order .v0_2_0 schema = .ok t)
    (hcols : Representable t.columns) (hcommit : (t.after ops).commit mem = .ok t') :
    ∃ entries, CommittedIndex (t.after ops) t' entries ∧
      (KeysAgree t.columns (entries.map Prod.fst)
          (CSTableReader.openFile mem' (contents t'.file)) ↔ PlainColumns t.columns) := by
  obtain ⟨entries, hindex, hkeys, hopened⟩ := committedIndex_spec mem' hcreate hcols hcommit
  refine ⟨entries, hindex, ?_⟩
  rw [hkeys]
  exact keysAgree_registeredKeys_iff hopened

/-- One row in a table of two required columns with the ids 1 and 2. -/
theorem keysAgree_two_columns :
    let mem : Uninit := ⟨fun _ _ => 0, fun i => UInt32.ofNat (i + 1), ⟨0, [], 0, 0, 0, 0, 0, 0⟩, 0⟩
    let schema : TableSchema :=
      [.leaf [0x61] ⟨.UNSIGNED_INT, by decide⟩ .UINT64_PLAIN false false,
        .leaf [0x62] ⟨.UNSIGNED_INT, by decide⟩ .UINT64_PLAIN false false]
    let ops : List CSTableWriter.TableOp := [.write [0x61] ⟨0, 0, .unsignedInt 7⟩, .addRow]
    ∃ t t' entries, CSTableWriter.createFile mem ⟨id, fun _ => .refl _⟩ .v0_2_0 schema = .ok t ∧
      (t.after ops).commit mem = .ok t' ∧ CommittedIndex (t.after ops) t' entries ∧
      KeysAgree t.columns (entries.map Prod.fst)
        (CSTableReader.openFile mem (contents t'.file)) := by
  intro mem schema ops
  have hrun : ∃ r, CSTableWriter.createAndCommit mem ⟨id, fun _ => .refl _⟩ .v0_2_0
      schema ops = .ok r :=
    Result.exists_eq_ok (by decide +kernel)
  obtain ⟨r, hr⟩ := hrun
  obtain ⟨t, hcreate, hr⟩ := Result.bind_eq_ok.mp hr
  obtain ⟨t', hcommit, -⟩ := Result.bind_eq_ok.mp hr
  have hcolumns := CSTableWriter.createFile_columns hcreate
  have hcols : Representable t.columns := by
    rw [hcolumns]
    constructor <;> decide
  have hplain : PlainColumns t.columns := by
    rw [hcolumns]
    exact ⟨by decide, by decide⟩
  obtain ⟨entries, hindex, hiff⟩ :=
    keysAgree_iff mem mem _ schema t t' ops hcreate hcols hcommit
  exact ⟨t, t', entries, hcreate, hcommit, hindex, hiff.mpr hplain⟩

/-- One row in a table of one optional column: its definition levels are
registered twice. -/
theorem not_keysAgree_optional :
    let mem : Uninit := ⟨fun _ _ => 0, fun i => UInt32.ofNat (i + 1), ⟨0, [], 0, 0, 0, 0, 0, 0⟩, 0⟩
    let schema : TableSchema :=
      [.leaf [0x61] ⟨.UNSIGNED_INT, by decide⟩ .UINT64_PLAIN false true]
    let ops : List CSTableWriter.TableOp := [.write [0x61] ⟨0, 1, .unsignedInt 7⟩, .addRow]
    ∃ t t' entries, CSTableWriter.createFile mem ⟨id, fun _ => .refl _⟩ .v0_2_0 schema = .ok t ∧
      (t.after ops).commit mem = .ok t' ∧ CommittedIndex (t.after ops) t' entries ∧
      entries.map Prod.fst = [⟨1, .DLEVEL⟩, ⟨1, .DLEVEL⟩, ⟨1, .DATA⟩] ∧
      ¬ KeysAgree t.columns (entries.map Prod.fst)
        (CSTableReader.openFile mem (contents t'.file)) := by
  intro mem schema ops
  have hrun : ∃ r, CSTableWriter.createAndCommit mem ⟨id, fun _ => .refl _⟩ .v0_2_0
      schema ops = .ok r :=
    Result.exists_eq_ok (by decide +kernel)
  obtain ⟨r, hr⟩ := hrun
  obtain ⟨t, hcreate, hr⟩ := Result.bind_eq_ok.mp hr
  obtain ⟨t', hcommit, -⟩ := Result.bind_eq_ok.mp hr
  have hcolumns := CSTableWriter.createFile_columns hcreate
  have hcols : Representable t.columns := by
    rw [hcolumns]
    constructor <;> decide
  obtain ⟨entries, hindex, hkeys, -⟩ := committedIndex_spec mem hcreate hcols hcommit
  have hconcrete : entries.map Prod.fst = [⟨1, .DLEVEL⟩, ⟨1, .DLEVEL⟩, ⟨1, .DATA⟩] := by
    rw [hkeys, hcolumns]
    decide
  refine ⟨t, t', entries, hcreate, hcommit, hindex, hconcrete, fun h => ?_⟩
  have hnodup := h.nodup
  rw [hconcrete] at hnodup
  exact absurd hnodup (by decide)

end CStable
