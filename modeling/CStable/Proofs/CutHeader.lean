import CStable.Proofs.Grammar
import CStable.Proofs.HeaderRoundTrip

/-!
# `CStable.Proofs.CutHeader`: headers that were cut off

A header has no length of its own, and half of its reads take what there is: the prelude,
the metablocks and the seek over the reserved bytes. The other half raises at the end of
the stream. A header that was cut off is rejected since a read of the second kind comes
after every read of the first.

* `cutHeader_raises`: on a proper prefix of a header `readHeader` raises, whatever the
  buffers hold before they are read into.
* `not_cutHeader_raises`: the count of the columns and the length of a name wrap in the
  32-bit fields of v0.1.0, and such a header can be cut off unnoticed.
-/

set_option autoImplicit false

namespace CStable

open Support Support.Parser

/-! ### Version 0.1.0 -/

namespace v0_1_0

/-- A column record of version 0.1.0 that is cut anywhere raises: each of its fields checks the
bytes it asks for. -/
theorem strict_readColumn (col : ColumnConfig) {c : ColumnConfig}
    (hname : c.column_name.length < 2 ^ 32) :
    Strict Abort.IsRaised (readColumn col) (CSTableWriter.columnHeaderV1 c)
      { col with
        storage_type := UInt8.ofNat (c.storage_type.toNat % 2 ^ 32)
        column_name := c.column_name
        rlevel_max := c.rlevel_max % 2 ^ 32
        dlevel_max := c.dlevel_max % 2 ^ 32
        body_offset := c.body_offset % 2 ^ 64
        body_size := c.body_size % 2 ^ 64
        column_id := 0 } := by
  have hlen := strict_readUInt32 c.column_name.length
  rw [Nat.mod_eq_of_lt hname] at hlen
  simp only [CSTableWriter.columnHeaderV1, List.append_assoc]
  rw [← List.append_assoc (appendUInt32 c.column_name.length)]
  refine (strict_readUInt32 _).bind ?_
  refine (hlen.bind (strict_readString c.column_name)).bind ?_
  refine (strict_readUInt32 _).bind ?_
  refine (strict_readUInt32 _).bind ?_
  refine (strict_readUInt64 _).bind ?_
  exact (strict_readUInt64 _).bind_pure

/-- Every read of this version raises at the end of the stream. -/
theorem short_readHeader (mem : Uninit) (num_rows : UInt64) {columns : List ColumnConfig}
    (hcount : columns.length < 2 ^ 32)
    (hname : ∀ c ∈ columns, c.column_name.length < 2 ^ 32) :
    FailsShort Abort.IsRaised (readHeader mem)
      (appendUInt64 0 ++ (appendUInt64 num_rows.toNat ++ (appendUInt32 columns.length ++
        columns.flatMap CSTableWriter.columnHeaderV1))) := by
  have hncols := strict_readUInt32 columns.length
  rw [Nat.mod_eq_of_lt hcount] at hncols
  refine (strict_readUInt64 _).bind_short ?_
  refine (strict_readUInt64 _).bind_short ?_
  refine hncols.bind_short ?_
  exact (Strict.repeatN _ columns fun c hc =>
    strict_readColumn mem.column_config (hname c hc)).short.bind_left

end v0_1_0

/-! ### Version 0.2.0 -/

/-- A read into a buffer takes the bytes that are there. It is the one read that does not raise
at a cut. -/
theorem lenient_readInto {buf bs : Bytes} (h : bs.length = buf.length) :
    Lenient (readInto buf) bs bs := by
  refine ⟨v0_2_0.parses_readInto buf bs h, fun us hus _ => ⟨us ++ buf.drop us.length, ?_⟩⟩
  have hle : us.length ≤ buf.length := h ▸ hus.length_le
  rw [readInto, run_bind, readNextBytes, List.take_of_length_le hle, List.drop_of_length_le hle]
  rfl

namespace v0_2_0

/-- So a slot that is cut is read too, over the bytes of the buffer, and the rest of the header
is where the cut shows. -/
theorem lenient_readMetaBlock {buf slot : Bytes} (hbuf : buf.length = kMetaBlockSize)
    (hslot : slot.length = kMetaBlockSize) :
    Lenient (readMetaBlock buf) slot (slotBlock slot) :=
  (lenient_readInto (hslot.trans hbuf.symm)).bind_pure

/-- A column record of version 0.2.0 that is cut anywhere raises. -/
theorem strict_readColumn (col : ColumnConfig) {c : ColumnConfig}
    (hname : c.column_name.length < 2 ^ 64) :
    Strict Abort.IsRaised (readColumn col) (columnRecord c)
      { col with
        logical_type := UInt8.ofNat (c.logical_type.toNat % 2 ^ 64)
        storage_type := UInt8.ofNat (c.storage_type.toNat % 2 ^ 64)
        column_id := UInt32.ofNat (c.column_id.toNat % 2 ^ 64)
        column_name := c.column_name
        rlevel_max := c.rlevel_max % 2 ^ 64
        dlevel_max := c.dlevel_max % 2 ^ 64 } := by
  simp only [columnRecord, List.append_assoc]
  refine (strict_readVarUInt _).bind ?_
  refine (strict_readVarUInt _).bind ?_
  refine (strict_readVarUInt _).bind ?_
  refine (strict_readLenencString hname).bind ?_
  refine (strict_readVarUInt _).bind ?_
  exact (strict_readVarUInt _).bind_pure

/-- The slots and the reserved bytes may be missing unnoticed; the number of columns
that follows them may not. -/
theorem short_readHeader (mem : Uninit) {a b : Bytes} {columns : List ColumnConfig}
    (ha : a.length = kMetaBlockSize) (hb : b.length = kMetaBlockSize)
    (hcount : columns.length < 2 ^ 64)
    (hname : ∀ c ∈ columns, c.column_name.length < 2 ^ 64) :
    FailsShort Abort.IsRaised (readHeader mem)
      (appendUInt64 0 ++ (a ++ (b ++ columnList columns))) := by
  have hskip := lenient_skipNextBytes (List.replicate 128 0)
  rw [List.length_replicate] at hskip
  have hncols := strict_readVarUInt columns.length
  rw [Nat.mod_eq_of_lt hcount] at hncols
  have hne : appendVarUInt columns.length ++ columns.flatMap columnRecord ≠ [] := by
    intro hnil
    have hread := hncols.parses []
    rw [(List.append_eq_nil_iff.mp hnil).1] at hread
    cases hread
  simp only [columnList, List.append_assoc]
  refine (strict_readUInt64 _).bind_short ?_
  refine (lenient_readMetaBlock (Uninit.length_buffer mem 1 _) ha).bind_short (fun _ => ?_)
    (by simp)
  refine (lenient_readMetaBlock (Uninit.length_buffer mem 2 _) hb).bind_short (fun _ => ?_)
    (by simp)
  refine hskip.bind_short (fun _ => ?_) hne
  refine hncols.bind_short ?_
  exact (Strict.repeatN _ columns fun c hc =>
    strict_readColumn mem.column_config (hname c hc)).short.bind_left

end v0_2_0

/-! ### Either version -/

/-- The bits of a field that holds a count or a length: those of v0.2.0 hold every
`size_t`. -/
def BinaryFormatVersion.lengthBits : BinaryFormatVersion → Nat
  | .v0_1_0 => 32
  | .v0_2_0 => 64

/-- The number of columns and the lengths of their names fit the fields of the header. -/
structure LengthsFit (version : BinaryFormatVersion) (columns : List ColumnConfig) : Prop where
  count : columns.length < 2 ^ version.lengthBits
  name : ∀ c ∈ columns, c.column_name.length < 2 ^ version.lengthBits

/-- The header bytes of a list of columns: what the commit of a v0.1.0 table writes, or
what `writeHeader` writes up to the last byte of the last column record, with any
contents of the two metablock slots. -/
inductive HeaderBytes (columns : List ColumnConfig) : BinaryFormatVersion → Bytes → Prop where
  | v0_1_0 (num_rows : UInt64) :
    HeaderBytes columns .v0_1_0 (CSTableWriter.headerV1 num_rows columns)
  | v0_2_0 {header a b : Bytes} (hwrite : v0_2_0.writeHeader columns = .ok header)
    (ha : a.length = v0_2_0.kMetaBlockSize) (hb : b.length = v0_2_0.kMetaBlockSize) :
    HeaderBytes columns .v0_2_0 ((v0_2_0.overwriteSlots header a b).take
      (v0_2_0.slotOffset 1 + v0_2_0.kMetaBlockSize + (v0_2_0.columnList columns).length))

/-- The header up to the padding is the layout. -/
theorem v0_2_0.take_overwriteSlots {header a b : Bytes} {columns : List ColumnConfig}
    (hwrite : writeHeader columns = .ok header) (ha : a.length = kMetaBlockSize)
    (hb : b.length = kMetaBlockSize) :
    (overwriteSlots header a b).take (slotOffset 1 + kMetaBlockSize + (columnList columns).length) =
      layout a b columns := by
  obtain ⟨padding, hheader, -⟩ := writeHeader_eq columns
  obtain rfl := Except.ok.inj (hwrite.symm.trans hheader)
  have hlen : slotOffset 1 + kMetaBlockSize + (columnList columns).length =
      (layout a b columns).length := by
    simp only [layout, List.length_append, length_prelude, ha, hb]
    change 126 + _ = 14 + (56 + (56 + _))
    omega
  rw [overwriteSlots_layout ha hb length_emptySlot length_emptySlot, hlen, List.take_left]

/-- At the end of the stream no version is read. -/
theorem readVersion_nil (mem : Uninit) (vnum : UInt8) : Raises (readVersion mem vnum []) := by
  unfold readVersion
  split
  · exact ⟨_, rfl⟩
  · exact ⟨_, rfl⟩
  · exact ⟨_, rfl⟩

/-- A header behind its prelude: a version whose reader fails short is rejected when the
stream is cut off anywhere. -/
theorem readHeader_short (mem : Uninit) {low high : UInt8} {ts file : Bytes}
    (hshort : FailsShort Abort.IsRaised (readVersion mem low) ts)
    (hfile : file <+: kMagicBytes ++ [low, high] ++ ts)
    (hcut : file ≠ kMagicBytes ++ [low, high] ++ ts) : Raises (readHeader mem file) := by
  rw [readHeader_eq]
  split_ifs with hmagic
  · exact ⟨_, rfl⟩
  · rcases proper_prefix_append hfile hcut with ⟨hprelude, hne⟩ | ⟨ws, rfl, hws, hne⟩
    · -- nothing is left behind the prelude; its missing bytes are those of the buffer
      have hlen : file.length ≤ 6 := hprelude.length_le
      rw [List.drop_of_length_le hlen]
      exact readVersion_nil mem _
    · obtain ⟨e, ⟨x, rfl⟩, hraise⟩ := hshort ws hws hne
      have hbuf : (mem.buffer 0 6).drop 6 = [] :=
        List.drop_of_length_le (Nat.le_of_eq (Uninit.length_buffer mem 0 6))
      refine ⟨x, ?_⟩
      rw [← hraise]
      change readVersion mem ((kMagicBytes ++ [low, high] ++
        (mem.buffer 0 6).drop 6).getD 4 0) ws = _
      rw [hbuf]
      rfl

/-- A header that was cut off is rejected, in either version and wherever it was cut,
for any contents of the slots and of the buffers that are read into. -/
theorem cutHeader_raises (mem : Uninit) {version : BinaryFormatVersion}
    {columns : List ColumnConfig} {header file : Bytes} (hfit : LengthsFit version columns)
    (hheader : HeaderBytes columns version header) (hfile : file <+: header)
    (hcut : file ≠ header) : Raises (readHeader mem file) := by
  cases hheader with
  | v0_1_0 num_rows =>
    have hread := v0_1_0.short_readHeader mem num_rows hfit.count hfit.name
    have hsplit : CSTableWriter.headerV1 num_rows columns = kMagicBytes ++ [1, 0] ++
        (appendUInt64 0 ++ (appendUInt64 num_rows.toNat ++ (appendUInt32 columns.length ++
          columns.flatMap CSTableWriter.columnHeaderV1))) := by
      simp only [CSTableWriter.headerV1, CSTableWriter.headerPreludeV1, List.append_assoc]
      rfl
    rw [hsplit] at hfile hcut
    exact readHeader_short mem hread.bind_left hfile hcut
  | v0_2_0 hwrite ha hb =>
    rename_i header a b
    have hread := v0_2_0.short_readHeader mem ha hb hfit.count hfit.name
    have hsplit : v0_2_0.layout a b columns = kMagicBytes ++ [2, 0] ++
        (appendUInt64 0 ++ (a ++ (b ++ v0_2_0.columnList columns))) := by
      simp only [v0_2_0.layout, v0_2_0.prelude, List.append_assoc]
      rfl
    rw [v0_2_0.take_overwriteSlots hwrite ha hb, hsplit] at hfile hcut
    exact readHeader_short mem hread.bind_left hfile hcut

/-- A header of v0.2.0 with one column, cut off behind its number of columns. -/
theorem cutHeader_raises_one_column :
    let mem : Uninit := zeroUninit
    Raises (readHeader mem (v0_2_0.prelude ++ List.replicate 240 0 ++ [1])) := by
  intro mem
  obtain ⟨padding, hwrite, -⟩ := v0_2_0.writeHeader_eq [⟨0, [0x61], 12, 2, 0, 0, 0, 0⟩]
  refine cutHeader_raises mem ⟨by decide, by decide⟩
    (.v0_2_0 hwrite v0_2_0.length_emptySlot v0_2_0.length_emptySlot) ?_ ?_
  · rw [v0_2_0.take_overwriteSlots hwrite v0_2_0.length_emptySlot v0_2_0.length_emptySlot]
    decide +kernel
  · rw [v0_2_0.take_overwriteSlots hwrite v0_2_0.length_emptySlot v0_2_0.length_emptySlot]
    decide +kernel

/-- The length of a name of `2 ^ 32` bytes is stored as 0: cut off after the first 24
bytes of the name, the header is that of a column without a name. -/
theorem readHeader_longName {tail : Bytes}
    (hlen : (List.replicate 24 (0 : UInt8) ++ tail).length = 2 ^ 32) :
    ∃ file rest, rest ≠ [] ∧
      CSTableWriter.headerV1 0 [⟨0, List.replicate 24 0 ++ tail, 12, 2, 0, 0, 0, 0⟩] =
        file ++ rest ∧
      ¬ Raises (readHeader zeroUninit file) := by
  refine ⟨CSTableWriter.headerPreludeV1 0 1 ++
      (appendUInt32 12 ++ (appendUInt32 (2 ^ 32) ++ List.replicate 24 0)),
    tail ++ (appendUInt32 0 ++ (appendUInt32 0 ++ (appendUInt64 0 ++ appendUInt64 0))),
    ?_, ?_, ?_⟩
  · intro hnil
    have htail := (List.append_eq_nil_iff.mp hnil).1
    subst htail
    exact absurd hlen (by decide)
  · rw [CSTableWriter.headerV1, List.flatMap_cons, List.flatMap_nil, CSTableWriter.columnHeaderV1]
    dsimp only
    rw [hlen]
    simp only [List.append_assoc, List.append_nil]
    rfl
  · rintro ⟨e, herror⟩
    have hread : (readHeader zeroUninit
        (CSTableWriter.headerPreludeV1 0 1 ++ (appendUInt32 12 ++ (appendUInt32 (2 ^ 32) ++
          List.replicate 24 0)))).toOption.isSome = true := by
      decide +kernel
    rw [herror] at hread
    cases hread

/-- A name of `2 ^ 32` zeros. -/
theorem not_cutHeader_raises : ¬ ∀ (mem : Uninit) (version : BinaryFormatVersion)
    (columns : List ColumnConfig) (header file : Bytes), HeaderBytes columns version header →
      file <+: header → file ≠ header → Raises (readHeader mem file) := by
  intro h
  have hlen : (List.replicate 24 (0 : UInt8) ++ List.replicate (2 ^ 32 - 24) 0).length =
      2 ^ 32 := by
    rw [List.length_append, List.length_replicate, List.length_replicate]
    norm_num
  obtain ⟨file, rest, hrest, hheader, hreturns⟩ := readHeader_longName hlen
  refine hreturns (h _ .v0_1_0 _ _ file (.v0_1_0 0) (hheader ▸ List.prefix_append file rest) ?_)
  intro heq
  rw [hheader] at heq
  exact hrest (List.append_cancel_left ((List.append_nil file).trans heq)).symm

end CStable
