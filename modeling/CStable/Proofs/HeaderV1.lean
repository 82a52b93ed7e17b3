import CStable.Proofs.CommitV1
import CStable.Proofs.Header

/-!
# `CStable.Proofs.HeaderV1`: reading the header of v0.1.0

Counts, lengths and levels are 32-bit fields of the header.

* `readHeader_headerV1`: when they fit, the columns are read back, in the order
  of their names.
* `readHeader_fits`: whatever a header holds, what is read from it fits.
-/

set_option autoImplicit false

namespace CStable

open Support Support.Parser

namespace v0_1_0

/-- A column whose fields fit the header. -/
structure FitsColumn (c : ColumnConfig) : Prop where
  name : c.column_name.length < 2 ^ 32
  rlevel_max : c.rlevel_max < 2 ^ 32
  dlevel_max : c.dlevel_max < 2 ^ 32
  body_offset : c.body_offset < 2 ^ 64
  body_size : c.body_size < 2 ^ 64

/-- A column as it is read back: the header has no logical type and no id. -/
def stored (mem : Uninit) (c : ColumnConfig) : ColumnConfig :=
  { c with
    logical_type := mem.column_config.logical_type
    column_id := 0 }

/-- A column record that fits is read as the column it was written for, without what the record
does not store. -/
theorem parses_readColumn (mem : Uninit) {c : ColumnConfig} (h : FitsColumn c) :
    Parses (readColumn mem.column_config) (CSTableWriter.columnHeaderV1 c) (stored mem c) := by
  have hsto : c.storage_type.toNat < 2 ^ 32 :=
    lt_trans c.storage_type.toNat_lt (by norm_num)
  have hname := (parses_readUInt32 h.name).bind (parses_readString c.column_name)
  simp only [CSTableWriter.columnHeaderV1, List.append_assoc]
  rw [← List.append_assoc (appendUInt32 c.column_name.length)]
  refine (parses_readUInt32 hsto).bind ?_
  refine hname.bind ?_
  refine (parses_readUInt32 h.rlevel_max).bind ?_
  refine (parses_readUInt32 h.dlevel_max).bind ?_
  refine (parses_readUInt64 h.body_offset).bind ?_
  refine (parses_readUInt64 h.body_size).bind_pure ?_
  rw [stored, UInt8.ofNat_toNat]

/-- A header that fits is read as its columns, sorted, and its number of rows. -/
theorem parses_readHeader (mem : Uninit) (num_rows : UInt64) {columns : List ColumnConfig}
    (hcount : columns.length < 2 ^ 32) (hcols : ∀ c ∈ columns, FitsColumn c) :
    Parses (readHeader mem)
      (appendUInt64 0 ++ (appendUInt64 num_rows.toNat ++ (appendUInt32 columns.length ++
        columns.flatMap CSTableWriter.columnHeaderV1)))
      ⟨(columns.map (stored mem)).mergeSort nameLE, num_rows⟩ := by
  have hrecords := Parses.repeatN (stored mem) columns fun c hc =>
    parses_readColumn mem (hcols c hc)
  refine (parses_readUInt64 (by norm_num)).bind ?_
  refine (parses_readUInt64 num_rows.toNat_lt).bind ?_
  refine (parses_readUInt32 hcount).bind ?_
  refine hrecords.bind_pure ?_
  rw [UInt64.ofNat_toNat]

end v0_1_0

/-! ### What can be read -/

/-- A string that was read has the length that was asked for. -/
theorem readString_length {size : Nat} {ts rest s : Bytes}
    (h : readString size ts = .ok (s, rest)) : s.length = size := by
  obtain ⟨val, ts', -, h⟩ := run_bind_eq_ok.mp h
  split_ifs at h with hlen
  · cases h
  · cases h
    exact not_not.mp hlen

/-- A number that was read has 32 bits. -/
theorem readUInt32_lt {ts rest : Bytes} {n : Nat} (h : readUInt32 ts = .ok (n, rest)) :
    n < 2 ^ 32 := by
  change (readString 4 >>= fun s => pure (leNat s)) ts = .ok (n, rest) at h
  obtain ⟨s, ts', hs, hret⟩ := run_bind_eq_ok.mp h
  cases hret
  have hlt := leNat_lt s
  rw [readString_length hs] at hlt
  exact hlt

/-- A number that was read has 64 bits. -/
theorem readUInt64_lt {ts rest : Bytes} {n : Nat} (h : readUInt64 ts = .ok (n, rest)) :
    n < 2 ^ 64 := by
  change (readString 8 >>= fun s => pure (leNat s)) ts = .ok (n, rest) at h
  obtain ⟨s, ts', hs, hret⟩ := run_bind_eq_ok.mp h
  cases hret
  have hlt := leNat_lt s
  rw [readString_length hs] at hlt
  exact hlt

namespace v0_1_0

/-- Whatever the bytes are, a column that is read fits its fields. -/
theorem readColumn_fits {col c : ColumnConfig} {ts rest : Bytes}
    (h : readColumn col ts = .ok (c, rest)) : FitsColumn c := by
  obtain ⟨storage_type, ts₁, -, h⟩ := run_bind_eq_ok.mp h
  obtain ⟨name, ts₂, hname, h⟩ := run_bind_eq_ok.mp h
  obtain ⟨rlevel_max, ts₃, hr, h⟩ := run_bind_eq_ok.mp h
  obtain ⟨dlevel_max, ts₄, hd, h⟩ := run_bind_eq_ok.mp h
  obtain ⟨body_offset, ts₅, ho, h⟩ := run_bind_eq_ok.mp h
  obtain ⟨body_size, ts₆, hs, hret⟩ := run_bind_eq_ok.mp h
  cases hret
  obtain ⟨len, ts₇, hlen, hstring⟩ := run_bind_eq_ok.mp hname
  have hlt := readUInt32_lt hlen
  exact ⟨(readString_length hstring).symm ▸ hlt, readUInt32_lt hr, readUInt32_lt hd,
    readUInt64_lt ho, readUInt64_lt hs⟩

/-- So does a header, since every number of it was read from a field. -/
theorem readHeader_fits {mem : Uninit} {ts rest : Bytes} {hdr : FileHeader}
    (h : readHeader mem ts = .ok (hdr, rest)) :
    hdr.columns.length < 2 ^ 32 ∧ ∀ c ∈ hdr.columns, FitsColumn c := by
  obtain ⟨flags, ts₁, -, h⟩ := run_bind_eq_ok.mp h
  obtain ⟨num_rows, ts₂, -, h⟩ := run_bind_eq_ok.mp h
  obtain ⟨ncols, ts₃, hncols, h⟩ := run_bind_eq_ok.mp h
  obtain ⟨columns, ts₄, hcolumns, hret⟩ := run_bind_eq_ok.mp h
  cases hret
  obtain ⟨hlen, hall⟩ := repeatN_spec (fun _ _ _ => readColumn_fits) hcolumns
  refine ⟨?_, fun c hc => hall c (List.mem_mergeSort.mp hc)⟩
  rw [List.length_mergeSort, hlen]
  exact readUInt32_lt hncols

end v0_1_0

/-- A file with a v0.1.0 header is read by the code for v0.1.0. -/
theorem readHeader_eq_v1 (mem : Uninit) (num_rows : UInt64) (columns : List ColumnConfig)
    (rest : Bytes) :
    readHeader mem (CSTableWriter.headerV1 num_rows columns ++ rest) =
      match v0_1_0.readHeader mem ((appendUInt64 0 ++ (appendUInt64 num_rows.toNat ++
        (appendUInt32 columns.length ++ columns.flatMap CSTableWriter.columnHeaderV1))) ++
          rest) with
      | .ok (header, rest) => .ok (⟨.v0_1_0, header, none, none⟩, rest)
      | .error e => .error e := by
  have hprelude := v0_2_0.parses_readInto (mem.buffer 0 6)
    (appendUInt32 v0_1_0.kMagicBytesUInt32 ++ appendUInt16 v0_1_0.kVersion)
    (Uninit.length_buffer mem 0 6).symm
  have hsplit : CSTableWriter.headerV1 num_rows columns ++ rest =
      (appendUInt32 v0_1_0.kMagicBytesUInt32 ++ appendUInt16 v0_1_0.kVersion) ++
        ((appendUInt64 0 ++ (appendUInt64 num_rows.toNat ++ (appendUInt32 columns.length ++
          columns.flatMap CSTableWriter.columnHeaderV1))) ++ rest) := by
    simp only [CSTableWriter.headerV1, CSTableWriter.headerPreludeV1, List.append_assoc]
  rw [hsplit]
  unfold readHeader
  rw [run_bind, hprelude]
  show ((do
      let header ← v0_1_0.readHeader mem
      pure (HeaderData.mk .v0_1_0 header none none)) : Read HeaderData) _ = _
  rw [run_bind]
  cases v0_1_0.readHeader mem _ <;> rfl

/-- The header of a commit, read back: the columns in the order of their names, and the number
of rows. -/
theorem readHeader_headerV1 (mem : Uninit) (num_rows : UInt64) {columns : List ColumnConfig}
    (hcount : columns.length < 2 ^ 32) (hcols : ∀ c ∈ columns, v0_1_0.FitsColumn c)
    (rest : Bytes) :
    readHeader mem (CSTableWriter.headerV1 num_rows columns ++ rest) =
      .ok (⟨.v0_1_0, ⟨(columns.map (v0_1_0.stored mem)).mergeSort v0_1_0.nameLE, num_rows⟩,
        none, none⟩, rest) := by
  rw [readHeader_eq_v1, v0_1_0.parses_readHeader mem num_rows hcount hcols rest]

/-- Whatever was written to a v0.1.0 header, what is read from it fits. A table with columns
that do not fit is therefore never read back. -/
theorem readHeader_fits {mem : Uninit} {num_rows : UInt64} {columns : List ColumnConfig}
    {rest rest' : Bytes} {hdr : HeaderData}
    (h : readHeader mem (CSTableWriter.headerV1 num_rows columns ++ rest) = .ok (hdr, rest')) :
    hdr.version = .v0_1_0 ∧ hdr.header.columns.length < 2 ^ 32 ∧
      ∀ c ∈ hdr.header.columns, v0_1_0.FitsColumn c := by
  rw [readHeader_eq_v1] at h
  split at h
  · next header rest₁ hread =>
    cases h
    exact ⟨rfl, v0_1_0.readHeader_fits hread⟩
  · cases h

end CStable
