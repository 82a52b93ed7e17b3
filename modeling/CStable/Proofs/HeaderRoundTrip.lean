import CStable.CSTableWriter
import CStable.Proofs.MetaBlock

/-!
# `CStable.Proofs.HeaderRoundTrip`: the v0.2.0 header does not depend on its slots

The transactions of a table overwrite the two metablock slots of its header again
and again. `header_roundTrip`: whatever 112 bytes they leave there, and whatever
follows the header, the column list is read as it was written.
-/

set_option autoImplicit false

namespace CStable

open Support Support.Parser

/-- The fields of a column that a v0.2.0 header has. -/
structure ColumnInfo where
  logical_type : UInt8
  storage_type : UInt8
  column_id : UInt32
  column_name : Bytes
  rlevel_max : Nat
  dlevel_max : Nat
  deriving DecidableEq, Repr

/-- The fields of a column that a v0.2.0 header has. -/
def ColumnConfig.info (c : ColumnConfig) : ColumnInfo :=
  ⟨c.logical_type, c.storage_type, c.column_id, c.column_name, c.rlevel_max, c.dlevel_max⟩

namespace v0_2_0

/-- The prelude of a file passes the check of `readHeader` and is that of v0.2.0,
and the reader of v0.2.0 finds the columns behind it. -/
def ReadsColumns (mem : Uninit) (file : Bytes) (columns : List ColumnConfig) : Prop :=
  ∃ prelude is hdr metablocks rest, readInto (mem.buffer 0 6) file = .ok (prelude, is) ∧
    prelude.take 4 = kMagicBytes ∧ prelude.getD 4 0 = 0x2 ∧
    readHeader mem is = .ok ((hdr, metablocks), rest) ∧
    hdr.columns.map ColumnConfig.info = columns.map ColumnConfig.info

/-- Any layout is read as its columns. -/
theorem readsColumns_layout (mem : Uninit) {a b : Bytes} {columns : List ColumnConfig}
    (ha : a.length = kMetaBlockSize) (hb : b.length = kMetaBlockSize)
    (hcols : Representable columns) (rest : Bytes) :
    ReadsColumns mem (layout a b columns ++ rest) columns := by
  have hprelude := parses_readInto (mem.buffer 0 6) (kMagicBytes ++ appendUInt16 2)
    (Uninit.length_buffer mem 0 6).symm
  have hsplit : layout a b columns ++ rest = (kMagicBytes ++ appendUInt16 2) ++
      ((appendUInt64 0 ++ (a ++ (b ++ columnList columns))) ++ rest) := by
    simp only [layout, prelude, List.append_assoc]
  have hinfo : (columns.map (stored mem)).map ColumnConfig.info =
      columns.map ColumnConfig.info := by
    -- the fields `stored` changes are those of a v0.1.0 body
    rw [List.map_map]
    rfl
  rw [hsplit]
  exact ⟨_, _, _, _, _, hprelude _, rfl, rfl, parses_readHeader mem ha hb hcols rest, hinfo⟩

/-- The two slots overwritten with any bytes. -/
def overwriteSlots (header a b : Bytes) : Bytes :=
  writeAt 0 (writeAt 0 header (slotOffset 0) a) (slotOffset 1) b

/-- Overwriting the slots of a layout. -/
theorem overwriteSlots_layout {a b a' b' : Bytes} {columns : List ColumnConfig} {rest : Bytes}
    (ha : a.length = kMetaBlockSize) (hb : b.length = kMetaBlockSize)
    (ha' : a'.length = kMetaBlockSize) (hb' : b'.length = kMetaBlockSize) :
    overwriteSlots (layout a' b' columns ++ rest) a b = layout a b columns ++ rest := by
  have hfirst : writeAt 0 (layout a' b' columns ++ rest) (slotOffset 0) a =
      layout a b' columns ++ rest := by
    have hpos : slotOffset 0 = prelude.length := rfl
    simp only [layout, List.append_assoc]
    rw [hpos, writeAt_append_right 0 prelude _ a (Nat.le_refl _), Nat.sub_self,
      writeAt_append_left 0 a' _ (ha.trans ha'.symm)]
  have hsecond : writeAt 0 (layout a b' columns ++ rest) (slotOffset 1) b =
      layout a b columns ++ rest := by
    have hpos : slotOffset 1 = prelude.length + a.length := by
      rw [ha]
      rfl
    simp only [layout, List.append_assoc]
    rw [hpos, writeAt_append_right 0 prelude _ b (Nat.le_add_right _ _), Nat.add_sub_cancel_left,
      writeAt_append_right 0 a _ b (Nat.le_refl _), Nat.sub_self,
      writeAt_append_left 0 b' _ (hb.trans hb'.symm)]
  rw [overwriteSlots, hfirst, hsecond]

/-- What `writeHeader` writes: whole sectors, with the two slots before the column
list, which is read back whatever the slots are overwritten with. -/
structure HeaderRoundTrip (mem : Uninit) (columns : List ColumnConfig) (header : Bytes) :
    Prop where
  sectors : kSectorSize ∣ header.length
  slots : slotOffset 0 = 14 ∧ slotOffset 0 + kMetaBlockSize = 70 ∧ slotOffset 1 = 70 ∧
    slotOffset 1 + kMetaBlockSize = 126 ∧ 126 ≤ header.length
  behind : ∃ padding, header.drop 126 = columnList columns ++ List.replicate padding 0
  reads : ∀ a b rest : Bytes, a.length = kMetaBlockSize → b.length = kMetaBlockSize →
    ReadsColumns mem (overwriteSlots header a b ++ rest) columns

/-- `writeHeader` succeeds for every column list, the size that goes with the bytes
is their number, and the header round-trips. -/
theorem header_roundTrip (mem : Uninit) (columns : List ColumnConfig)
    (hcols : Representable columns) :
    ∃ header, writeHeader columns = .ok header ∧
      (∀ file header_size, CSTableWriter.initialHeader .v0_2_0 columns = .ok (file, header_size) →
        contents file = header ∧ header_size = (contents file).length) ∧
      HeaderRoundTrip mem columns header := by
  obtain ⟨padding, hheader, hsectors⟩ := writeHeader_eq columns
  refine ⟨_, hheader, fun file header_size hinit => ?_, ?_⟩
  · obtain ⟨header, hheader', -, rfl, rfl⟩ := CSTableWriter.initialHeader_eq_ok hinit
    rw [hheader] at hheader'
    cases hheader'
    exact ⟨contents_stream _, congrArg List.length (contents_stream _).symm⟩
  · have hsplit : layout emptySlot emptySlot columns ++ List.replicate padding 0 =
        (prelude ++ (emptySlot ++ emptySlot)) ++
          (columnList columns ++ List.replicate padding 0) := by
      simp only [layout, List.append_assoc]
    have hlen : (prelude ++ (emptySlot ++ emptySlot)).length = 126 := rfl
    refine ⟨hsectors, ⟨rfl, rfl, rfl, rfl, ?_⟩, ⟨padding, ?_⟩, fun a b rest ha hb => ?_⟩
    · rw [hsplit, List.length_append, hlen]
      exact Nat.le_add_right _ _
    · rw [hsplit, ← hlen, List.drop_left]
    · rw [overwriteSlots_layout ha hb length_emptySlot length_emptySlot, List.append_assoc]
      exact readsColumns_layout mem ha hb hcols _

/-- Two columns, one without a name and with the largest codes and levels. -/
theorem header_roundTrip_two_columns :
    let mem : Uninit := zeroUninit
    let columns : List ColumnConfig := [⟨0xffffffff, [], 255, 255, 2 ^ 64 - 1, 2 ^ 64 - 1, 0, 0⟩,
      ⟨0, [0x61], 12, 2, 0, 0, 0, 0⟩]
    ∃ header, writeHeader columns = .ok header ∧
      (∀ file header_size, CSTableWriter.initialHeader .v0_2_0 columns = .ok (file, header_size) →
        contents file = header ∧ header_size = (contents file).length) ∧
      HeaderRoundTrip mem columns header := by
  intro mem columns
  exact header_roundTrip mem columns (by constructor <;> simp [columns])

end v0_2_0

end CStable
