import CStable.CSTableReader
import CStable.Proofs.HeaderV1

/-!
# `CStable.Proofs.Grammar`: the streams that are opened

`cstable.h` gives the grammar of the format. A header starts with the magic bytes and
a version of 16 bits, and the column records of v0.1.x have type fields of 32 bits.
`readHeader` looks at the low byte of the version only, and the type fields become an
enumeration of 8 bits before they are looked at.

* `readHeader_v1`, `readHeader_v2`: the bytes of a stream on which `readHeader`
  returns.
* `opened_inGrammar_iff`: an opened stream is in the grammar exactly when the high bytes of
  its version and its type fields are zero.
-/

set_option autoImplicit false

namespace CStable

open Support Support.Parser

/-! ### The fields a successful read has seen -/

/-- A string that was read is the first bytes of the stream, as many as were asked for. -/
theorem readString_eq_ok {size : Nat} {ts rest s : Bytes}
    (h : readString size ts = .ok (s, rest)) : ts = s ++ rest ∧ s.length = size := by
  refine ⟨?_, readString_length h⟩
  obtain ⟨val, ts', hval, h⟩ := run_bind_eq_ok.mp h
  cases hval
  split_ifs at h with hlen
  · cases h
  · cases h
    exact (List.take_append_drop size ts).symm

/-- A number that was read is that of the first four bytes. So the stream can be rebuilt from
what was read. -/
theorem readUInt32_eq_ok {ts rest : Bytes} {n : Nat} (h : readUInt32 ts = .ok (n, rest)) :
    ∃ v : UInt32, v.toNat = n ∧ ts = appendUInt32 v.toNat ++ rest := by
  have hlt := readUInt32_lt h
  change (readString 4 >>= fun s => pure (leNat s)) ts = .ok (n, rest) at h
  obtain ⟨s, ts', hs, hret⟩ := run_bind_eq_ok.mp h
  cases hret
  obtain ⟨rfl, hlen⟩ := readString_eq_ok hs
  refine ⟨UInt32.ofNat (leNat s), UInt32.toNat_ofNat_of_lt' hlt, ?_⟩
  rw [UInt32.toNat_ofNat_of_lt' hlt, appendUInt32, ← hlen, leBytes_leNat]

/-- A number that was read is that of the first eight bytes. -/
theorem readUInt64_eq_ok {ts rest : Bytes} {n : Nat} (h : readUInt64 ts = .ok (n, rest)) :
    ∃ v : UInt64, v.toNat = n ∧ ts = appendUInt64 v.toNat ++ rest := by
  have hlt := readUInt64_lt h
  change (readString 8 >>= fun s => pure (leNat s)) ts = .ok (n, rest) at h
  obtain ⟨s, ts', hs, hret⟩ := run_bind_eq_ok.mp h
  cases hret
  obtain ⟨rfl, hlen⟩ := readString_eq_ok hs
  refine ⟨UInt64.ofNat (leNat s), UInt64.toNat_ofNat_of_lt' hlt, ?_⟩
  rw [UInt64.toNat_ofNat_of_lt' hlt, appendUInt64, ← hlen, leBytes_leNat]

/-! ### The grammar of v0.1.x -/

/-- `<column_header>` of the grammar, with every field at its width. -/
structure ColumnHeader where
  column_type : UInt32
  column_name : { name : Bytes // name.length < 2 ^ 32 }
  rlevel_max : UInt32
  dlevel_max : UInt32
  body_offset : UInt64
  body_size : UInt64

namespace ColumnHeader

/-- The bytes of the record. -/
def bytes (c : ColumnHeader) : Bytes :=
  appendUInt32 c.column_type.toNat ++ (appendUInt32 c.column_name.val.length ++
    (c.column_name.val ++ (appendUInt32 c.rlevel_max.toNat ++ (appendUInt32 c.dlevel_max.toNat ++
      (appendUInt64 c.body_offset.toNat ++ appendUInt64 c.body_size.toNat)))))

/-- The column `readHeader` makes of the record. -/
def config (col : ColumnConfig) (c : ColumnHeader) : ColumnConfig :=
  { col with
    storage_type := UInt8.ofNat c.column_type.toNat
    column_name := c.column_name.val
    rlevel_max := c.rlevel_max.toNat
    dlevel_max := c.dlevel_max.toNat
    body_offset := c.body_offset.toNat
    body_size := c.body_size.toNat
    column_id := 0 }

end ColumnHeader

/-- `<header>` of the grammar for v0.1.x, with a version field. -/
structure HeaderFields where
  version : UInt16
  flags : UInt64
  num_rows : UInt64
  columns : { columns : List ColumnHeader // columns.length < 2 ^ 32 }

namespace HeaderFields

/-- The bytes after the version field. -/
def fields (h : HeaderFields) : Bytes :=
  appendUInt64 h.flags.toNat ++ (appendUInt64 h.num_rows.toNat ++
    (appendUInt32 h.columns.val.length ++ h.columns.val.flatMap ColumnHeader.bytes))

/-- The bytes of the header. -/
def bytes (h : HeaderFields) : Bytes :=
  kMagicBytes ++ (appendUInt16 h.version.toNat ++ h.fields)

end HeaderFields

/-- The streams of the grammar of `cstable.h`, as far as they are about versions and type
fields: a v0.1.x header with known types, or the start of a v0.2.0 header. -/
def InGrammar (file : Bytes) : Prop :=
  (∃ (h : HeaderFields) (body : Bytes), file = h.bytes ++ body ∧ h.version = 1 ∧
    ∀ c ∈ h.columns.val, ∃ e : ColumnEncoding, c.column_type.toNat = e.code.toNat) ∨
  ∃ body, file = kMagicBytes ++ appendUInt16 2 ++ body

/-- Encoding version and column records again, as `commitV1` does, gives the bytes of the
stream; the columns were sorted when they were read. -/
def ReEncodes (hdr : HeaderData) (file : Bytes) : Prop :=
  match hdr.version with
  | .v0_1_0 => ∃ (flags : UInt64) (columns : List ColumnConfig) (body : Bytes),
    columns.Perm hdr.header.columns ∧
    file = kMagicBytes ++ appendUInt16 1 ++ appendUInt64 flags.toNat ++
      appendUInt64 hdr.header.num_rows.toNat ++ appendUInt32 columns.length ++
      columns.flatMap CSTableWriter.columnHeaderV1 ++ body
  | .v0_2_0 => ∃ body, file = kMagicBytes ++ appendUInt16 2 ++ body

/-- `readHeader` returns, and the columns of v0.1.x are opened. -/
def Opened (mem : Uninit) (file : Bytes) (hdr : HeaderData) : Prop :=
  (∃ rest, readHeader mem file = .ok (hdr, rest)) ∧
    (hdr.version = .v0_1_0 → ∃ mmap, CSTableReader.mapFile file = .ok mmap ∧
      ∀ c ∈ hdr.header.columns, ∃ r, CSTableReader.openColumnV1 mmap c = .ok r)

/-! ### The condition -/

/-- The type field of a column record; the other fields are passed over. -/
def readTypeField : Read Nat := do
  let column_type ← readUInt32
  let _ ← readUInt32 >>= readString
  let _ ← readString 24
  pure column_type

/-- The type fields of a v0.1.x header. -/
def readTypeFields : Read (List Nat) := do
  let _ ← readString 22
  let ncols ← readUInt32
  repeatN readTypeField ncols

/-- The high byte of the version and the high bytes of the type fields of a v0.1.x header
are zero. -/
def HighBytesZero (file : Bytes) : Prop :=
  file[5]? = some 0 ∧ (file[4]? = some 1 → ∀ types rest,
    readTypeFields file = .ok (types, rest) → ∀ t ∈ types, t < 256)

/-! ### Streams and their fields -/

/-- A column record is read from exactly the bytes of some record: all of its fields are kept,
the type in 32 bits. -/
theorem readColumn_eq_ok {col a : ColumnConfig} {ts rest : Bytes}
    (h : v0_1_0.readColumn col ts = .ok (a, rest)) :
    ∃ c : ColumnHeader, ts = c.bytes ++ rest ∧ c.config col = a := by
  obtain ⟨type, ts₁, htype, h⟩ := run_bind_eq_ok.mp h
  obtain ⟨name, ts₂, hname, h⟩ := run_bind_eq_ok.mp h
  obtain ⟨rlevel_max, ts₃, hr, h⟩ := run_bind_eq_ok.mp h
  obtain ⟨dlevel_max, ts₄, hd, h⟩ := run_bind_eq_ok.mp h
  obtain ⟨body_offset, ts₅, ho, h⟩ := run_bind_eq_ok.mp h
  obtain ⟨body_size, ts₆, hs, hret⟩ := run_bind_eq_ok.mp h
  cases hret
  obtain ⟨len, ts₇, hlen, hstring⟩ := run_bind_eq_ok.mp hname
  obtain ⟨type, rfl, rfl⟩ := readUInt32_eq_ok htype
  obtain ⟨len, rfl, rfl⟩ := readUInt32_eq_ok hlen
  obtain ⟨rfl, hlength⟩ := readString_eq_ok hstring
  obtain ⟨rlevel_max, rfl, rfl⟩ := readUInt32_eq_ok hr
  obtain ⟨dlevel_max, rfl, rfl⟩ := readUInt32_eq_ok hd
  obtain ⟨body_offset, rfl, rfl⟩ := readUInt64_eq_ok ho
  obtain ⟨body_size, rfl, rfl⟩ := readUInt64_eq_ok hs
  refine ⟨⟨type, ⟨name, hlength ▸ len.toNat_lt⟩, rlevel_max, dlevel_max, body_offset, body_size⟩,
    ?_, rfl⟩
  simp only [ColumnHeader.bytes, hlength, List.append_assoc]

/-- What follows the version in a v0.1.x stream on which `readHeader` returns: the fields of
some header, from which the columns are made and sorted. -/
theorem readHeader_v1_eq_ok {mem : Uninit} {ts rest : Bytes} {hdr : FileHeader}
    (h : v0_1_0.readHeader mem ts = .ok (hdr, rest)) (version : UInt16) :
    ∃ f : HeaderFields, f.version = version ∧ ts = f.fields ++ rest ∧
      hdr = ⟨(f.columns.val.map (ColumnHeader.config mem.column_config)).mergeSort v0_1_0.nameLE,
        f.num_rows⟩ := by
  obtain ⟨flags, ts₁, hflags, h⟩ := run_bind_eq_ok.mp h
  obtain ⟨num_rows, ts₂, hnum_rows, h⟩ := run_bind_eq_ok.mp h
  obtain ⟨ncols, ts₃, hncols, h⟩ := run_bind_eq_ok.mp h
  obtain ⟨columns, ts₄, hcolumns, hret⟩ := run_bind_eq_ok.mp h
  cases hret
  obtain ⟨flags, rfl, rfl⟩ := readUInt64_eq_ok hflags
  obtain ⟨num_rows, rfl, rfl⟩ := readUInt64_eq_ok hnum_rows
  obtain ⟨ncols, rfl, rfl⟩ := readUInt32_eq_ok hncols
  obtain ⟨records, hlen, rfl, rfl⟩ := repeatN_reads (fun _ _ _ => readColumn_eq_ok) hcolumns
  refine ⟨⟨version, flags, num_rows, ⟨records, hlen ▸ ncols.toNat_lt⟩⟩, rfl, ?_, ?_⟩
  · simp only [HeaderFields.fields, hlen, List.append_assoc]
  · simp only [UInt64.ofNat_toNat]

/-- What `readHeader` reads after the prelude, by the low byte of the version. -/
def readVersion (mem : Uninit) (vnum : UInt8) : Read HeaderData :=
  match vnum with
  | 0x1 => do
    let header ← v0_1_0.readHeader mem
    pure { version := .v0_1_0, header, metablock := none, free_index := none }
  | 0x2 => do
    let (header, metablocks) ← v0_2_0.readHeader mem
    let (metablock, free_index) ← liftM (selectMetaBlock metablocks)
    pure { version := .v0_2_0, header, metablock := some metablock, free_index }
  | vnum =>
    liftM (RAISEF .kRuntimeError "unsupported cstable version: $0" [[vnum]] : Result HeaderData)

/-- `readHeader` on a stream: the prelude may keep bytes of the buffer, when the stream has
fewer than six. -/
theorem readHeader_eq (mem : Uninit) (file : Bytes) :
    readHeader mem file =
      if (file.take 6 ++ (mem.buffer 0 6).drop (file.take 6).length).take 4 ≠ kMagicBytes then
        RAISE .kRuntimeError "not a valid cstable file"
      else
        readVersion mem ((file.take 6 ++ (mem.buffer 0 6).drop (file.take 6).length).getD 4 0)
          (file.drop 6) := by
  have hinto : readInto (mem.buffer 0 6) file =
      .ok (file.take 6 ++ (mem.buffer 0 6).drop (file.take 6).length, file.drop 6) := by
    unfold readInto
    rw [Uninit.length_buffer]
    rfl
  unfold readHeader
  rw [run_bind, hinto]
  dsimp only
  split_ifs with hmagic
  · rfl
  · rfl

/-- The versions that are read on, and what is read first. Only the low byte of the version is
looked at. -/
theorem readVersion_eq_ok {mem : Uninit} {vnum : UInt8} {is rest : Bytes} {hdr : HeaderData}
    (h : readVersion mem vnum is = .ok (hdr, rest)) :
    (∃ flags, readUInt64 is = .ok flags) ∧
      (vnum = 1 ∧ hdr.version = .v0_1_0 ∧ v0_1_0.readHeader mem is = .ok (hdr.header, rest) ∨
        vnum = 2 ∧ hdr.version = .v0_2_0) := by
  unfold readVersion at h
  split at h
  · obtain ⟨header, ts, hheader, hret⟩ := run_bind_eq_ok.mp h
    cases hret
    obtain ⟨flags, ts, hflags, -⟩ := run_bind_eq_ok.mp hheader
    exact ⟨⟨_, hflags⟩, Or.inl ⟨rfl, rfl, hheader⟩⟩
  · obtain ⟨header, ts, hheader, h⟩ := run_bind_eq_ok.mp h
    obtain ⟨metablock, ts', -, hret⟩ := run_bind_eq_ok.mp h
    cases hret
    obtain ⟨flags, ts, hflags, -⟩ := run_bind_eq_ok.mp hheader
    exact ⟨⟨_, hflags⟩, Or.inr ⟨rfl, rfl⟩⟩
  · cases h

/-- The prelude of a stream on which `readHeader` returns: its six bytes are all there,
because both versions go on to read more. -/
theorem readHeader_prelude {mem : Uninit} {file rest : Bytes} {hdr : HeaderData}
    (h : readHeader mem file = .ok (hdr, rest)) :
    ∃ (high : UInt8) (is : Bytes),
      (file = kMagicBytes ++ ([1, high] ++ is) ∧ hdr.version = .v0_1_0 ∧
        v0_1_0.readHeader mem is = .ok (hdr.header, rest)) ∨
      (file = kMagicBytes ++ ([2, high] ++ is) ∧ hdr.version = .v0_2_0) := by
  rw [readHeader_eq] at h
  split_ifs at h with hmagic
  · cases h
  · obtain ⟨⟨flags, hflags⟩, hversion⟩ := readVersion_eq_ok h
    -- the version is read, so the file has the six bytes in front of the flags
    have hlen : 6 ≤ file.length := by
      by_contra hshort
      rw [List.drop_of_length_le (by omega)] at hflags
      cases hflags
    have hfull : (file.take 6).length = 6 := List.length_take_of_le hlen
    rw [hfull, List.drop_of_length_le (Nat.le_of_eq (Uninit.length_buffer mem 0 6)),
      List.append_nil, not_not] at hmagic
    rw [hfull, List.drop_of_length_le (Nat.le_of_eq (Uninit.length_buffer mem 0 6)),
      List.append_nil] at hversion
    have hsplit : file = file.take 6 ++ file.drop 6 := (List.take_append_drop 6 file).symm
    obtain ⟨low, high, hlow⟩ : ∃ low high, (file.take 6).drop 4 = [low, high] := by
      refine List.length_eq_two.mp ?_
      rw [List.length_drop, hfull]
    have htake : file.take 6 = kMagicBytes ++ [low, high] := by
      rw [← List.take_append_drop 4 (file.take 6), hmagic, hlow]
    rw [htake] at hversion hsplit
    refine ⟨high, file.drop 6, ?_⟩
    rcases hversion with ⟨hvnum, hv, hread⟩ | ⟨hvnum, hv⟩
    · obtain rfl : low = 1 := hvnum
      exact Or.inl ⟨by rwa [List.append_assoc] at hsplit, hv, hread⟩
    · obtain rfl : low = 2 := hvnum
      exact Or.inr ⟨by rwa [List.append_assoc] at hsplit, hv⟩

/-! ### The type fields of a stream -/

/-- The type field of a record, whatever stands in its last 24 bytes. -/
theorem parses_readTypeField {column_type : Nat} {column_name tail : Bytes}
    (htype : column_type < 2 ^ 32) (hname : column_name.length < 2 ^ 32)
    (htail : tail.length = 24) :
    Parses readTypeField (appendUInt32 column_type ++ (appendUInt32 column_name.length ++
      column_name ++ tail)) column_type := by
  have hstring := (parses_readUInt32 hname).bind (parses_readString column_name)
  have hrest := parses_readString tail
  rw [htail] at hrest
  exact (parses_readUInt32 htype).bind (hstring.bind (hrest.bind_pure rfl))

/-- The type field of a record whose type has 32 bits. -/
theorem ColumnHeader.parses_readTypeField (c : ColumnHeader) :
    Parses readTypeField c.bytes c.column_type.toNat := by
  have htail : (appendUInt32 c.rlevel_max.toNat ++ (appendUInt32 c.dlevel_max.toNat ++
      (appendUInt64 c.body_offset.toNat ++ appendUInt64 c.body_size.toNat))).length = 24 := rfl
  have h := CStable.parses_readTypeField c.column_type.toNat_lt c.column_name.property htail
  rwa [List.append_assoc] at h

/-- The type field of a record that a table writes: the storage type, which has eight bits. -/
theorem parses_readTypeField_columnHeaderV1 {c : ColumnConfig} (h : v0_1_0.FitsColumn c) :
    Parses readTypeField (CSTableWriter.columnHeaderV1 c) c.storage_type.toNat := by
  have htail : (appendUInt32 c.rlevel_max ++ (appendUInt32 c.dlevel_max ++
      (appendUInt64 c.body_offset ++ appendUInt64 c.body_size))).length = 24 := rfl
  have hparse := parses_readTypeField (lt_trans c.storage_type.toNat_lt (by norm_num)) h.name htail
  simp only [List.append_assoc] at hparse
  simpa only [CSTableWriter.columnHeaderV1, List.append_assoc] using hparse

/-- The type fields of records behind 22 bytes and their number. It only skips what `readHeader`
reads in between. -/
theorem parses_readTypeFields {β : Type} {records : List β} {enc : β → Bytes} {type : β → Nat}
    {start : Bytes} (hstart : start.length = 22) (hcount : records.length < 2 ^ 32)
    (h : ∀ c ∈ records, Parses readTypeField (enc c) (type c)) :
    Parses readTypeFields (start ++ (appendUInt32 records.length ++ records.flatMap enc))
      (records.map type) := by
  have hskip := parses_readString start
  rw [hstart] at hskip
  exact hskip.bind ((parses_readUInt32 hcount).bind (Parses.repeatN type records h))

/-- The type fields of the header that was parsed. -/
theorem HeaderFields.parses_readTypeFields (f : HeaderFields) :
    Parses readTypeFields f.bytes (f.columns.val.map fun c => c.column_type.toNat) := by
  have hstart : (kMagicBytes ++ (appendUInt16 f.version.toNat ++
      (appendUInt64 f.flags.toNat ++ appendUInt64 f.num_rows.toNat))).length = 22 := rfl
  have h := CStable.parses_readTypeFields hstart f.columns.property
    fun c _ => c.parses_readTypeField
  simp only [List.append_assoc] at h
  exact h

/-! ### Opened streams -/

/-- A version field, by its two bytes. -/
def versionOf (low high : UInt8) : UInt16 := UInt16.ofNat (leNat [low, high])

/-- The version field is its low byte and then its high byte. -/
theorem appendUInt16_versionOf (low high : UInt8) :
    appendUInt16 (versionOf low high).toNat = [low, high] := by
  have hlt : leNat [low, high] < 2 ^ 16 := by
    have hlen := leNat_lt [low, high]
    rw [show [low, high].length = 2 from rfl] at hlen
    omega
  rw [versionOf, UInt16.toNat_ofNat_of_lt' hlt]
  exact leBytes_leNat [low, high]

/-- The parts of an opened v0.1.x stream: a header, the low byte of its version is one, and
the low byte of every type field is a code. -/
structure OpenedV1 (mem : Uninit) (file : Bytes) (hdr : HeaderData) (high : UInt8)
    (f : HeaderFields) (rest : Bytes) : Prop where
  file : file = f.bytes ++ rest
  version : f.version = versionOf 1 high
  hdr_version : hdr.version = .v0_1_0
  columns : hdr.header.columns =
    (f.columns.val.map (ColumnHeader.config mem.column_config)).mergeSort v0_1_0.nameLE
  num_rows : hdr.header.num_rows = f.num_rows
  types : ∀ c ∈ f.columns.val, ∃ e : ColumnEncoding, UInt8.ofNat c.column_type.toNat = e.code
  fits : ∀ c ∈ hdr.header.columns, v0_1_0.FitsColumn c

/-- An opened stream is of one of the two versions, whatever the high byte of its version is.
The source switches on the low byte. -/
theorem Opened.cases {mem : Uninit} {file : Bytes} {hdr : HeaderData} (h : Opened mem file hdr) :
    (∃ high f rest, OpenedV1 mem file hdr high f rest) ∨
      ∃ (high : UInt8) (is : Bytes), file = kMagicBytes ++ ([2, high] ++ is) ∧
        hdr.version = .v0_2_0 := by
  obtain ⟨⟨rest, hread⟩, hopen⟩ := h
  obtain ⟨high, is, ⟨rfl, hversion, hv1⟩ | ⟨rfl, hversion⟩⟩ := readHeader_prelude hread
  · obtain ⟨f, hf, rfl, hheader⟩ := readHeader_v1_eq_ok hv1 (versionOf 1 high)
    have hcolumns := congrArg FileHeader.columns hheader
    refine Or.inl ⟨high, f, rest, ?_, hf, hversion, hcolumns, congrArg FileHeader.num_rows hheader,
      fun c hc => ?_, (v0_1_0.readHeader_fits hv1).2⟩
    · rw [HeaderFields.bytes, hf, appendUInt16_versionOf]
      simp only [List.append_assoc]
    · obtain ⟨mmap, -, hall⟩ := hopen hversion
      have hmem : c.config mem.column_config ∈ hdr.header.columns := by
        rw [hcolumns]
        exact List.mem_mergeSort.mpr (List.mem_map_of_mem hc)
      obtain ⟨r, hr⟩ := hall _ hmem
      unfold CSTableReader.openColumnV1 at hr
      split at hr
      · next e he => exact ⟨e, ColumnEncoding.ofCode?_eq_some.mp he⟩
      · cases hr
  · exact Or.inr ⟨high, is, rfl, hversion⟩

/-- The high byte of the version of a stream in the grammar is zero, for either version. -/
theorem InGrammar.high {file : Bytes} (h : InGrammar file) : file[5]? = some 0 := by
  rcases h with ⟨f, body, rfl, hversion, -⟩ | ⟨body, rfl⟩
  · rw [HeaderFields.bytes, hversion]
    rfl
  · rfl

/-- So is that of a stream that its header is encoded to, because a table writes it as zero. A
stream with another high byte is therefore not one of these. -/
theorem ReEncodes.high {hdr : HeaderData} {file : Bytes} (h : ReEncodes hdr file) :
    file[5]? = some 0 := by
  unfold ReEncodes at h
  split at h
  · obtain ⟨flags, columns, body, -, rfl⟩ := h
    rfl
  · obtain ⟨body, rfl⟩ := h
    rfl

namespace OpenedV1

variable {mem : Uninit} {file : Bytes} {hdr : HeaderData} {high : UInt8} {f : HeaderFields}
  {rest : Bytes}

/-- For a parsed header the condition is about the version field and the types of the
records. -/
theorem highBytesZero_iff (h : OpenedV1 mem file hdr high f rest) :
    HighBytesZero file ↔ high = 0 ∧ ∀ c ∈ f.columns.val, c.column_type.toNat < 256 := by
  have htypes := f.parses_readTypeFields rest
  have hbytes : file = kMagicBytes ++ ([1, high] ++ (f.fields ++ rest)) := by
    rw [h.file, HeaderFields.bytes, h.version, appendUInt16_versionOf]
    simp only [List.append_assoc]
  rw [← h.file] at htypes
  constructor
  · rintro ⟨hhigh, hlow⟩
    rw [hbytes] at hhigh
    have hone : file[4]? = some 1 := by
      rw [hbytes]
      rfl
    exact ⟨Option.some.inj hhigh,
      fun c hc => hlow hone _ _ htypes _ (List.mem_map.mpr ⟨c, hc, rfl⟩)⟩
  · rintro ⟨rfl, hlow⟩
    refine ⟨by rw [hbytes]; rfl, fun _ types rest' hread t ht => ?_⟩
    rw [htypes] at hread
    cases hread
    obtain ⟨c, hc, rfl⟩ := List.mem_map.mp ht
    exact hlow c hc

/-- The type fields of the header are those of any other reading of the stream. A stream has one
parse only, so that a reading with small types shows that all are small. -/
theorem types_lt {β : Type} {records : List β} {enc : β → Bytes} {type : β → Nat}
    {start body : Bytes} (h : OpenedV1 mem file hdr high f rest) (hstart : start.length = 22)
    (hcount : records.length < 2 ^ 32)
    (hrecords : ∀ c ∈ records, Parses readTypeField (enc c) (type c))
    (hlow : ∀ c ∈ records, type c < 256)
    (hfile : file = start ++ (appendUInt32 records.length ++ records.flatMap enc) ++ body) :
    ∀ c ∈ f.columns.val, c.column_type.toNat < 256 := by
  have htypes := f.parses_readTypeFields rest
  rw [← h.file, hfile, parses_readTypeFields hstart hcount hrecords body] at htypes
  have heq := congrArg Prod.fst (Except.ok.inj htypes)
  intro c hc
  have hmem : c.column_type.toNat ∈ records.map type := by
    rw [show records.map type = _ from heq]
    exact List.mem_map_of_mem hc
  obtain ⟨r, hr, hrt⟩ := List.mem_map.mp hmem
  rw [← hrt]
  exact hlow r hr

/-- An opened stream of v0.1.x is in the grammar exactly when the high bytes are zero: nothing
else of the grammar is left open by `readHeader` and `openColumnV1`. -/
theorem inGrammar_iff (h : OpenedV1 mem file hdr high f rest) :
    InGrammar file ↔ HighBytesZero file := by
  rw [h.highBytesZero_iff]
  have hbytes : file = kMagicBytes ++ ([1, high] ++ (f.fields ++ rest)) := by
    rw [h.file, HeaderFields.bytes, h.version, appendUInt16_versionOf]
    simp only [List.append_assoc]
  -- the grammar has the encoding as four bytes, of which three are zero for every code there is
  constructor
  · intro hin
    have hhigh := hin.high
    rw [hbytes] at hhigh
    refine ⟨Option.some.inj hhigh, ?_⟩
    rcases hin with ⟨g, body, hfile, -, hcodes⟩ | ⟨body, hfile⟩
    · have hstart : (kMagicBytes ++ (appendUInt16 g.version.toNat ++
          (appendUInt64 g.flags.toNat ++ appendUInt64 g.num_rows.toNat))).length = 22 := rfl
      have hsplit : file = kMagicBytes ++ (appendUInt16 g.version.toNat ++
          (appendUInt64 g.flags.toNat ++ appendUInt64 g.num_rows.toNat)) ++
          (appendUInt32 g.columns.val.length ++ g.columns.val.flatMap ColumnHeader.bytes) ++
            body := by
        rw [hfile]
        simp only [HeaderFields.bytes, HeaderFields.fields, List.append_assoc]
      refine h.types_lt hstart g.columns.property (fun c _ => c.parses_readTypeField)
        (fun c hc => ?_) hsplit
      obtain ⟨e, he⟩ := hcodes c hc
      rw [he]
      exact e.code.toNat_lt
    · rw [hbytes] at hfile
      cases hfile
  · rintro ⟨rfl, hlow⟩
    refine Or.inl ⟨f, rest, h.file, h.version, fun c hc => ?_⟩
    obtain ⟨e, he⟩ := h.types c hc
    refine ⟨e, ?_⟩
    rw [← he]
    exact (UInt8.toNat_ofNat_of_lt' (hlow c hc)).symm

/-- Encoding the parsed header gives the stream back under the same condition. The columns are
written in the order they were read in, which is compared up to the sort of the reader. -/
theorem reEncodes_iff (h : OpenedV1 mem file hdr high f rest) :
    ReEncodes hdr file ↔ HighBytesZero file := by
  rw [h.highBytesZero_iff]
  have hbytes : file = kMagicBytes ++ ([1, high] ++ (f.fields ++ rest)) := by
    rw [h.file, HeaderFields.bytes, h.version, appendUInt16_versionOf]
    simp only [List.append_assoc]
  have hperm : (f.columns.val.map (ColumnHeader.config mem.column_config)).Perm
      hdr.header.columns := by
    rw [h.columns]
    exact (List.mergeSort_perm _ _).symm
  -- only the type field can differ: the reader keeps one byte of the four
  constructor
  · intro hre
    have hhigh := hre.high
    rw [hbytes] at hhigh
    refine ⟨Option.some.inj hhigh, ?_⟩
    unfold ReEncodes at hre
    rw [h.hdr_version] at hre
    obtain ⟨flags, columns, body, hcols, hfile⟩ := hre
    have hstart : (kMagicBytes ++ (appendUInt16 1 ++ (appendUInt64 flags.toNat ++
        appendUInt64 hdr.header.num_rows.toNat))).length = 22 := rfl
    have hcount : columns.length < 2 ^ 32 := by
      rw [hcols.length_eq, ← hperm.length_eq, List.length_map]
      exact f.columns.property
    have hsplit : file = kMagicBytes ++ (appendUInt16 1 ++ (appendUInt64 flags.toNat ++
        appendUInt64 hdr.header.num_rows.toNat)) ++ (appendUInt32 columns.length ++
          columns.flatMap CSTableWriter.columnHeaderV1) ++ body := by
      rw [hfile]
      simp only [List.append_assoc]
    exact h.types_lt hstart hcount
      (fun c hc => parses_readTypeField_columnHeaderV1 (h.fits c (hcols.mem_iff.mp hc)))
      (fun c _ => c.storage_type.toNat_lt) hsplit
  · rintro ⟨rfl, hlow⟩
    unfold ReEncodes
    rw [h.hdr_version]
    refine ⟨f.flags, _, rest, hperm, ?_⟩
    have hrecords : (f.columns.val.map (ColumnHeader.config mem.column_config)).flatMap
        CSTableWriter.columnHeaderV1 = f.columns.val.flatMap ColumnHeader.bytes := by
      rw [List.flatMap_map]
      refine List.flatMap_congr fun c hc => ?_
      have htype : (UInt8.ofNat c.column_type.toNat).toNat = c.column_type.toNat :=
        UInt8.toNat_ofNat_of_lt' (hlow c hc)
      simp only [CSTableWriter.columnHeaderV1, ColumnHeader.config, ColumnHeader.bytes, htype,
        List.append_assoc]
    rw [hrecords, hbytes, h.num_rows, List.length_map]
    simp only [HeaderFields.fields, List.append_assoc]
    rfl

end OpenedV1

/-- A stream that is opened is in the grammar of `cstable.h`, and encoding its header
again gives its bytes, exactly when the high byte of the version and those of the type
fields are zero. -/
theorem opened_inGrammar_iff {mem : Uninit} {file : Bytes} {hdr : HeaderData}
    (h : Opened mem file hdr) :
    (InGrammar file ↔ HighBytesZero file) ∧ (ReEncodes hdr file ↔ HighBytesZero file) := by
  rcases h.cases with ⟨high, f, rest, hv1⟩ | ⟨high, is, rfl, hversion⟩
  · exact ⟨hv1.inGrammar_iff, hv1.reEncodes_iff⟩
  · have hzero : HighBytesZero (kMagicBytes ++ ([2, high] ++ is)) ↔ high = 0 := by
      refine ⟨fun hz => Option.some.inj hz.1, ?_⟩
      rintro rfl
      exact ⟨rfl, fun hlow => absurd (Option.some.inj hlow) (by decide)⟩
    rw [hzero]
    refine ⟨⟨fun hin => Option.some.inj hin.high, ?_⟩, ⟨fun hre => Option.some.inj hre.high, ?_⟩⟩
    · rintro rfl
      exact Or.inr ⟨is, rfl⟩
    · rintro rfl
      unfold ReEncodes
      rw [hversion]
      exact ⟨is, rfl⟩

/-- A v0.1.x header without columns, with the given version field. -/
def headerWithVersion (version : Bytes) : Bytes := kMagicBytes ++ version ++ List.replicate 20 0

/-- The header without columns is opened whatever the high byte of its version is. -/
theorem opened_headerWithVersion (high : UInt8) :
    Opened zeroUninit (headerWithVersion [1, high]) ⟨.v0_1_0, ⟨[].mergeSort v0_1_0.nameLE, 0⟩,
      none, none⟩ := by
  refine ⟨⟨[], rfl⟩, fun _ => ⟨_, if_neg (Nat.succ_ne_zero 25), fun c hc => ?_⟩⟩
  exact absurd (List.mem_mergeSort.mp hc) List.not_mem_nil

/-- A v0.1.x header with one column, which has a body of zeros in the last page of the
mapping, and the given type field. -/
def headerWithType (column_type : Bytes) : Bytes :=
  kMagicBytes ++ [1, 0] ++ List.replicate 16 0 ++ [1, 0, 0, 0] ++ column_type ++
    List.replicate 12 0 ++ appendUInt64 512 ++ appendUInt64 32

/-- The column of `headerWithType`. -/
def columnWithType (storage_type : UInt8) : ColumnConfig := ⟨0, [], storage_type, 0, 0, 0, 512, 32⟩

/-- The header is opened as that of a `UINT64_PLAIN` column whether the second byte of its type
field is zero or one, because `readHeader` casts the field to one byte. -/
theorem opened_headerWithType {second : UInt8} (h : second = 0 ∨ second = 1) :
    Opened zeroUninit (headerWithType [12, second, 0, 0])
      ⟨.v0_1_0, ⟨[columnWithType 12].mergeSort v0_1_0.nameLE, 0⟩, none, none⟩ := by
  have hread : ∃ rest, readHeader zeroUninit (headerWithType [12, second, 0, 0]) =
      .ok (⟨.v0_1_0, ⟨[columnWithType 12].mergeSort v0_1_0.nameLE, 0⟩, none, none⟩, rest) := by
    rcases h with rfl | rfl
    · exact ⟨[], rfl⟩
    · exact ⟨[], rfl⟩
  have hmap : CSTableReader.mapFile (headerWithType [12, second, 0, 0]) =
      .ok (headerWithType [12, second, 0, 0] ++ List.replicate 4038 0) := by
    rcases h with rfl | rfl
    · exact if_neg (Nat.succ_ne_zero 57)
    · exact if_neg (Nat.succ_ne_zero 57)
  have hopen : (CSTableReader.openColumnV1 (headerWithType [12, second, 0, 0] ++
      List.replicate 4038 0) (columnWithType 12)).toOption.isSome = true := by
    rcases h with rfl | rfl
    · decide +kernel
    · decide +kernel
  refine ⟨hread, fun _ => ⟨_, hmap, fun c hc => ?_⟩⟩
  obtain rfl := List.mem_singleton.mp (List.mem_mergeSort.mp hc)
  exact Result.exists_eq_ok hopen

/-- With the type field 12 the header is in the grammar and comes back byte for byte; with 268,
which is opened as the same column, it is not in the grammar. -/
theorem opened_inGrammar_iff_version_one :
    let hdr : HeaderData :=
      ⟨.v0_1_0, ⟨[columnWithType 12].mergeSort v0_1_0.nameLE, 0⟩, none, none⟩
    (InGrammar (headerWithType [12, 0, 0, 0]) ∧ ReEncodes hdr (headerWithType [12, 0, 0, 0])) ∧
      ¬InGrammar (headerWithType [12, 1, 0, 0]) ∧
      ¬ReEncodes hdr (headerWithType [12, 1, 0, 0]) := by
  intro hdr
  obtain ⟨hin, hre⟩ := opened_inGrammar_iff (opened_headerWithType (Or.inl rfl))
  obtain ⟨hin', hre'⟩ := opened_inGrammar_iff (opened_headerWithType (Or.inr rfl))
  have htypes : readTypeFields (headerWithType [12, 0, 0, 0]) = .ok ([12], []) := rfl
  have htypes' : readTypeFields (headerWithType [12, 1, 0, 0]) = .ok ([268], []) := rfl
  have hzero : HighBytesZero (headerWithType [12, 0, 0, 0]) := by
    refine ⟨rfl, fun _ types rest hread type htype => ?_⟩
    rw [htypes] at hread
    cases hread
    obtain rfl := List.mem_singleton.mp htype
    decide
  have hnot : ¬HighBytesZero (headerWithType [12, 1, 0, 0]) := by
    rintro ⟨-, hall⟩
    exact absurd (hall rfl _ _ htypes' 268 List.mem_cons_self) (by decide)
  exact ⟨⟨hin.mpr hzero, hre.mpr hzero⟩, fun h => hnot (hin'.mp h), fun h => hnot (hre'.mp h)⟩

/-- The version 257 is opened as the version 1, and the type 268 as `UINT64_PLAIN`. Neither
stream is in the grammar, and the first does not come back from its header. -/
theorem opened_not_inGrammar :
    (Opened zeroUninit (headerWithVersion [1, 1])
        ⟨.v0_1_0, ⟨[].mergeSort v0_1_0.nameLE, 0⟩, none, none⟩ ∧
      ¬InGrammar (headerWithVersion [1, 1]) ∧
      ¬ReEncodes ⟨.v0_1_0, ⟨[].mergeSort v0_1_0.nameLE, 0⟩, none, none⟩
        (headerWithVersion [1, 1])) ∧
    Opened zeroUninit (headerWithType [12, 1, 0, 0])
        ⟨.v0_1_0, ⟨[columnWithType 12].mergeSort v0_1_0.nameLE, 0⟩, none, none⟩ ∧
      ¬InGrammar (headerWithType [12, 1, 0, 0]) := by
  refine ⟨⟨opened_headerWithVersion 1, fun hin => ?_, fun hre => ?_⟩,
    opened_headerWithType (Or.inr rfl), fun hin => ?_⟩
  · exact absurd (Option.some.inj hin.high) (by decide)
  · exact absurd (Option.some.inj hre.high) (by decide)
  · rcases hin with ⟨f, body, hfile, -, hcodes⟩ | ⟨body, hfile⟩
    · have htypes := f.parses_readTypeFields body
      rw [← hfile] at htypes
      have heq : [268] = f.columns.val.map fun c => c.column_type.toNat :=
        congrArg Prod.fst (Except.ok.inj htypes)
      obtain ⟨c, hc, htype⟩ := List.mem_map.mp (heq ▸ List.mem_singleton.mpr rfl)
      obtain ⟨e, he⟩ := hcodes c hc
      have hlt := e.code.toNat_lt
      omega
    · cases hfile

end CStable
