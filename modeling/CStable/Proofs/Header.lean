import CStable.Io.PageManager

/-!
# `CStable.Proofs.Header`: reading the header of v0.2.0

`layout a b columns` are the bytes of a header with the metablock slots `a` and
`b`; `writeHeader` writes it with two slots of zeros (`writeHeader_eq`), and the
slots can be replaced without touching the rest.

* `readHeader_layout`: whatever the slots hold and whatever follows, the columns
  are read back and the metablock is chosen among the slots that pass the check.
* `Representable`: the sizes fit the `size_t` they have in the source.
-/

set_option autoImplicit false

namespace CStable

open Support Support.Parser

namespace v0_2_0

/-- The sizes of a column list fit in 64 bits: lengths and levels are `size_t`s
in the source. -/
structure Representable (columns : List ColumnConfig) : Prop where
  count : columns.length < 2 ^ 64
  name : ∀ c ∈ columns, c.column_name.length < 2 ^ 64
  rlevel_max : ∀ c ∈ columns, c.rlevel_max < 2 ^ 64
  dlevel_max : ∀ c ∈ columns, c.dlevel_max < 2 ^ 64

/-- A column as it is read back: the fields of a v0.1.0 body stay unset. -/
def stored (mem : Uninit) (c : ColumnConfig) : ColumnConfig :=
  { c with
    body_offset := mem.column_config.body_offset
    body_size := mem.column_config.body_size }

/-- The header up to the metablock slots. -/
def prelude : Bytes := kMagicBytes ++ appendUInt16 2 ++ appendUInt64 0

/-- The column list of the header with its reserved bytes. -/
def columnList (columns : List ColumnConfig) : Bytes :=
  List.replicate 128 0 ++ appendVarUInt columns.length ++ columns.flatMap columnRecord

/-- The header up to the padding, with the given metablock slots. -/
def layout (a b : Bytes) (columns : List ColumnConfig) : Bytes :=
  prelude ++ (a ++ (b ++ columnList columns))

/-- An empty metablock slot. -/
def emptySlot : Bytes := List.replicate kMetaBlockSize 0

/-- The metablock of a slot, if its hash matches. -/
def slotBlock (slot : Bytes) : Option MetaBlock :=
  if hashMatches slot then some (readFields slot) else none

/-- The magic bytes, the version and the flags end where the first slot starts. -/
@[simp] theorem length_prelude : prelude.length = kMetaBlockPosition := rfl

/-- A header is written with two empty slots, each of the size of a metablock. -/
@[simp] theorem length_emptySlot : emptySlot.length = kMetaBlockSize :=
  List.length_replicate

/-- Zeros fail the check of a slot. -/
theorem hashMatches_emptySlot : hashMatches emptySlot = false := by
  show (SHA1.compute (List.replicate 36 0) == List.replicate 20 0) = false
  exact beq_eq_false_iff_ne.mpr SHA1.compute_zeros

/-- A slot that was never written has no metablock. -/
@[simp] theorem slotBlock_emptySlot : slotBlock emptySlot = none := by
  rw [slotBlock, hashMatches_emptySlot, if_neg Bool.false_ne_true]

/-- `writeHeader` succeeds: the layout with empty slots, padded to a sector. -/
theorem writeHeader_eq (columns : List ColumnConfig) :
    ∃ padding, writeHeader columns =
        .ok (layout emptySlot emptySlot columns ++ List.replicate padding 0) ∧
      512 ∣ (layout emptySlot emptySlot columns ++ List.replicate padding (0 : UInt8)).length := by
  have hbuf : prelude ++ headerFields columns = layout emptySlot emptySlot columns := by
    have hslots : List.replicate (kMetaBlockSize * 2) (0 : UInt8) = emptySlot ++ emptySlot := by
      rw [emptySlot, List.replicate_append_replicate]
      rfl
    simp only [headerFields, layout, columnList, hslots, List.append_assoc]
  refine ⟨padToNextSector (layout emptySlot emptySlot columns).length -
    (layout emptySlot emptySlot columns).length, ?_, ?_⟩
  · rw [← hbuf]
    rfl
  · rw [List.length_append, List.length_replicate]
    have hle := le_padToNextSector (layout emptySlot emptySlot columns).length
    rw [Nat.add_sub_cancel' hle]
    exact padToNextSector_dvd _

/-! ### Reading it back -/

/-- Reading into a buffer takes as many bytes as the buffer has, whatever it held before. -/
theorem parses_readInto (buf bs : Bytes) (h : bs.length = buf.length) :
    Parses (readInto buf) bs bs := by
  have hread := parses_readNextBytes bs
  rw [h] at hread
  refine hread.bind_pure ?_
  rw [h, List.drop_length, List.append_nil]

/-- A slot is read as a whole. Whether it holds a metablock is decided afterwards, from its
hash. -/
theorem parses_readMetaBlock {buf slot : Bytes} (hbuf : buf.length = kMetaBlockSize)
    (hslot : slot.length = kMetaBlockSize) :
    Parses (readMetaBlock buf) slot (slotBlock slot) :=
  (parses_readInto _ _ (hslot.trans hbuf.symm)).bind_pure rfl

/-- The record of a column is read back field by field. What the record does not hold keeps the
value of the memory the config was built in. -/
theorem parses_readColumn (mem : Uninit) {c : ColumnConfig}
    (hname : c.column_name.length < 2 ^ 64) (hr : c.rlevel_max < 2 ^ 64)
    (hd : c.dlevel_max < 2 ^ 64) :
    Parses (readColumn mem.column_config) (columnRecord c) (stored mem c) := by
  have hlog : c.logical_type.toNat < 2 ^ 64 :=
    lt_trans c.logical_type.toNat_lt (by norm_num)
  have hsto : c.storage_type.toNat < 2 ^ 64 :=
    lt_trans c.storage_type.toNat_lt (by norm_num)
  have hid : c.column_id.toNat < 2 ^ 64 := lt_trans c.column_id.toNat_lt (by norm_num)
  simp only [columnRecord, List.append_assoc]
  refine (parses_readVarUInt hlog).bind ?_
  refine (parses_readVarUInt hsto).bind ?_
  refine (parses_readVarUInt hid).bind ?_
  refine (parses_readLenencString hname).bind ?_
  refine (parses_readVarUInt hr).bind ?_
  refine (parses_readVarUInt hd).bind_pure ?_
  rw [stored, UInt8.ofNat_toNat, UInt8.ofNat_toNat, UInt32.ofNat_toNat]

/-- The part of the header after the prelude: the columns and the metablocks of
the slots that pass the check. -/
theorem parses_readHeader (mem : Uninit) {a b : Bytes} {columns : List ColumnConfig}
    (ha : a.length = kMetaBlockSize) (hb : b.length = kMetaBlockSize)
    (hcols : Representable columns) :
    Parses (readHeader mem) (appendUInt64 0 ++ (a ++ (b ++ columnList columns)))
      ({ columns := columns.map (stored mem), num_rows := mem.num_rows },
        (slotBlock a).toList ++ (slotBlock b).toList) := by
  have hskip : Parses (skipNextBytes 128) (List.replicate 128 0) () := by
    have h := parses_skipNextBytes (List.replicate 128 0)
    rwa [List.length_replicate] at h
  have hrecords := Parses.repeatN (stored mem) columns fun c hc =>
    parses_readColumn mem (hcols.name c hc) (hcols.rlevel_max c hc) (hcols.dlevel_max c hc)
  simp only [columnList, List.append_assoc]
  refine (parses_readUInt64 (by norm_num)).bind ?_
  refine (parses_readMetaBlock (Uninit.length_buffer mem 1 _) ha).bind ?_
  refine (parses_readMetaBlock (Uninit.length_buffer mem 2 _) hb).bind ?_
  refine hskip.bind ?_
  refine (parses_readVarUInt hcols.count).bind ?_
  exact hrecords.bind_pure rfl

end v0_2_0

/-- `readHeader` on a v0.2.0 header: the columns are those written, whatever the
slots hold, and the metablock is the choice among the valid ones. -/
theorem readHeader_layout (mem : Uninit) {a b : Bytes} {columns : List ColumnConfig}
    (ha : a.length = v0_2_0.kMetaBlockSize) (hb : b.length = v0_2_0.kMetaBlockSize)
    (hcols : v0_2_0.Representable columns) (rest : Bytes) :
    readHeader mem (v0_2_0.layout a b columns ++ rest) =
      match selectMetaBlock ((v0_2_0.slotBlock a).toList ++ (v0_2_0.slotBlock b).toList) with
      | .ok (metablock, free_index) =>
        .ok (⟨.v0_2_0, ⟨columns.map (v0_2_0.stored mem), mem.num_rows⟩, some metablock,
          free_index⟩, rest)
      | .error e => .error e := by
  have hprelude := v0_2_0.parses_readInto (mem.buffer 0 6) (kMagicBytes ++ appendUInt16 2)
    (Uninit.length_buffer mem 0 6).symm
  have hheader := v0_2_0.parses_readHeader mem ha hb hcols rest
  have hsplit : v0_2_0.layout a b columns ++ rest =
      (kMagicBytes ++ appendUInt16 2) ++
        ((appendUInt64 0 ++ (a ++ (b ++ v0_2_0.columnList columns))) ++ rest) := by
    simp only [v0_2_0.layout, v0_2_0.prelude, List.append_assoc]
  rw [hsplit]
  unfold readHeader
  rw [run_bind, hprelude]
  show ((do
      let header ← v0_2_0.readHeader mem
      let metablock ← liftM (selectMetaBlock header.2)
      pure (HeaderData.mk .v0_2_0 header.1 (some metablock.1) metablock.2)) :
        Read HeaderData) _ = _
  rw [run_bind, hheader]
  show ((do
      let metablock ← liftM (selectMetaBlock _)
      pure (HeaderData.mk .v0_2_0 _ (some metablock.1) metablock.2)) : Read HeaderData) _ = _
  rw [run_bind]
  cases selectMetaBlock ((v0_2_0.slotBlock a).toList ++ (v0_2_0.slotBlock b).toList) <;> rfl

end CStable
