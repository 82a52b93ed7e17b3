import CStable.Proofs.Header
import CStable.Support.TwoSlot

/-!
# `CStable.Proofs.MetaBlock`: the metablock slots over many transactions

The two metablock slots of a v0.2.0 file are an instance of `Support.Slots`: a
slot holds a record when its hash matches. `HasSlots` is the abstraction from
the bytes of a file; `writeTransaction` is `Slots.put` on it, a page write behind
the header changes nothing, and `readHeader` picks `Slots.newest`.

A run is a list of `TxOp`s on the page manager of a new file.
`readHeader_after_transactions` is what a reader finds after it, also when the
next slot write is torn.
-/

set_option autoImplicit false

namespace CStable

open Support

namespace v0_2_0

/-- The id of a metablock, by which the slots are numbered. -/
def txid (mb : MetaBlock) : Nat := mb.transaction_id.toNat

/-! ### One metablock -/

/-- A metablock has the size of its slot: transaction, rows, the index page's place and the hash
over them. -/
theorem length_writeMetaBlock (mb : MetaBlock) :
    (writeMetaBlock mb).length = kMetaBlockSize := rfl

/-- A part of a byte list, read back. -/
theorem readAt_append (p d q : Bytes) : readAt (p ++ (d ++ q)) p.length d.length = d := by
  rw [readAt, List.drop_left, List.take_left]

/-- The hash of a metablock that was written is the hash of what stands in front of it. -/
theorem hashMatches_writeMetaBlock (mb : MetaBlock) : hashMatches (writeMetaBlock mb) = true := by
  have hlen : (metaBlockFields mb).length = kMetaBlockSize - SHA1.kSize := rfl
  have hhash : (SHA1.compute (metaBlockFields mb)).length = SHA1.kSize := rfl
  rw [hashMatches, writeMetaBlock, ← hlen, List.take_left, List.drop_left, ← hhash,
    List.take_length]
  exact beq_self_eq_true _

/-- The fields of a metablock survive the round trip. -/
theorem readFields_writeMetaBlock (mb : MetaBlock) : readFields (writeMetaBlock mb) = mb := by
  have h64 : ∀ v : UInt64, UInt64.ofNat (leNat (appendUInt64 v.toNat)) = v := fun v => by
    rw [appendUInt64, leNat_leBytes_of_lt v.toNat_lt, UInt64.ofNat_toNat]
  have h32 : ∀ v : UInt32, UInt32.ofNat (leNat (appendUInt32 v.toNat)) = v := fun v => by
    rw [appendUInt32, leNat_leBytes_of_lt v.toNat_lt, UInt32.ofNat_toNat]
  have t := readAt_append [] (appendUInt64 mb.transaction_id.toNat)
  have n := readAt_append (appendUInt64 mb.transaction_id.toNat)
    (appendUInt64 mb.num_rows.toNat)
  have o := readAt_append (appendUInt64 mb.transaction_id.toNat ++ appendUInt64 mb.num_rows.toNat)
    (appendUInt64 mb.head_index_page_offset.toNat)
  have s := readAt_append (appendUInt64 mb.transaction_id.toNat ++
    appendUInt64 mb.num_rows.toNat ++ appendUInt64 mb.head_index_page_offset.toNat)
    (appendUInt32 mb.head_index_page_size.toNat)
  have z := readAt_append (appendUInt64 mb.transaction_id.toNat ++
    appendUInt64 mb.num_rows.toNat ++ appendUInt64 mb.head_index_page_offset.toNat ++
    appendUInt32 mb.head_index_page_size.toNat) (appendUInt64 mb.file_size.toNat)
  simp only [List.nil_append, List.length_nil, List.length_append, length_appendUInt64,
    length_appendUInt32, List.append_assoc, Nat.reduceAdd] at t n o s z
  simp only [readFields, writeMetaBlock, metaBlockFields, List.append_assoc, t, n, o, s, z, h64,
    h32]

/-- A slot that holds a whole metablock is read back as that metablock. A torn slot is the other
case, see `slotBlock`. -/
theorem slotBlock_writeMetaBlock (mb : MetaBlock) : slotBlock (writeMetaBlock mb) = some mb := by
  rw [slotBlock, hashMatches_writeMetaBlock, if_pos rfl, readFields_writeMetaBlock]

/-! ### The slots of a file -/

/-- The file starts with the header of the columns, and its slots hold the given
metablocks. -/
def HasSlots (columns : List ColumnConfig) (s : Slots MetaBlock) (file : Bytes) : Prop :=
  ∃ a b rest, a.length = kMetaBlockSize ∧ b.length = kMetaBlockSize ∧
    file = layout a b columns ++ rest ∧ slotBlock a = s.even ∧ slotBlock b = s.odd

/-- The number of header bytes a page write must stay behind. -/
def headerSize (columns : List ColumnConfig) : Nat :=
  (layout emptySlot emptySlot columns).length

/-- The slots do not move the end of the header, whatever they hold, as long as each has the
size of a metablock. -/
theorem length_layout {a b : Bytes} (columns : List ColumnConfig)
    (ha : a.length = kMetaBlockSize) (hb : b.length = kMetaBlockSize) :
    (layout a b columns).length = headerSize columns := by
  simp only [headerSize, layout, List.length_append, ha, hb, length_emptySlot]

/-- The position of the slot for an id. -/
def slotOffset (n : Nat) : Nat := kMetaBlockPosition + kMetaBlockSize * (n % 2)

/-- A new file has two empty slots. -/
theorem hasSlots_header {columns : List ColumnConfig} {header : Bytes}
    (h : writeHeader columns = .ok header) :
    HasSlots columns Slots.empty (contents [.stream header]) := by
  obtain ⟨padding, hheader, _⟩ := writeHeader_eq columns
  rw [hheader] at h
  cases h
  refine ⟨emptySlot, emptySlot, List.replicate padding 0, length_emptySlot, length_emptySlot, ?_,
    slotBlock_emptySlot, slotBlock_emptySlot⟩
  exact contents_stream _

/-- The first page starts behind the header. `headerSize` leaves the padding to the next sector
out, so it is at most the length of what `writeHeader` returns. -/
theorem headerSize_le {columns : List ColumnConfig} {header : Bytes}
    (h : writeHeader columns = .ok header) : headerSize columns ≤ header.length := by
  obtain ⟨padding, hheader, -⟩ := writeHeader_eq columns
  rw [hheader] at h
  cases h
  rw [List.length_append]
  exact Nat.le_add_right _ _

/-- A page behind the header does not touch the slots. So the pages of a commit may be written
in any order before its metablock. -/
theorem HasSlots.page {columns : List ColumnConfig} {s : Slots MetaBlock} {file : Bytes}
    (h : HasSlots columns s file) {pos : Nat} (data : Bytes) (hpos : headerSize columns ≤ pos) :
    HasSlots columns s (writeAt 0 file pos data) := by
  obtain ⟨a, b, rest, ha, hb, rfl, hsa, hsb⟩ := h
  have hlen := length_layout columns ha hb
  exact ⟨a, b, _, ha, hb, writeAt_append_right 0 _ rest data (by omega), hsa, hsb⟩

/-- A slot write replaces one slot by what the bytes hold. A write that is cut leaves bytes
whose hash does not match. -/
theorem HasSlots.slot {columns : List ColumnConfig} {s : Slots MetaBlock} {file : Bytes}
    (h : HasSlots columns s file) (n : Nat) {slot : Bytes}
    (hslot : slot.length = kMetaBlockSize) :
    HasSlots columns (s.set n (slotBlock slot)) (writeAt 0 file (slotOffset n) slot) := by
  obtain ⟨a, b, rest, ha, hb, rfl, hsa, hsb⟩ := h
  have hpre : prelude.length = kMetaBlockPosition := rfl
  unfold slotOffset Slots.set layout
  simp only [List.append_assoc]
  by_cases hpar : n % 2 = 0
  · rw [if_pos hpar, hpar, Nat.mul_zero, Nat.add_zero, ← hpre,
      writeAt_append_right 0 prelude _ slot (Nat.le_refl _), Nat.sub_self,
      writeAt_append_left 0 a _ (hslot.trans ha.symm)]
    refine ⟨slot, b, rest, hslot, hb, ?_, rfl, hsb⟩
    simp only [layout, List.append_assoc]
  · have hone : n % 2 = 1 := by omega
    rw [if_neg hpar, hone, Nat.mul_one, ← hpre,
      writeAt_append_right 0 prelude _ slot (Nat.le_add_right _ _), Nat.add_sub_cancel_left, ← ha,
      writeAt_append_right 0 a _ slot (Nat.le_refl _), Nat.sub_self,
      writeAt_append_left 0 b _ (hslot.trans hb.symm)]
    refine ⟨a, slot, rest, ha, hslot, ?_, hsa, rfl⟩
    simp only [layout, List.append_assoc]

/-- `readHeader` picks the newest metablock of the slots. A slot whose hash does not match is
passed over. -/
theorem HasSlots.readHeader {columns : List ColumnConfig} {s : Slots MetaBlock} {file : Bytes}
    (h : HasSlots columns s file) (mem : Uninit) (hcols : Representable columns) :
    match s.newest txid with
    | some (metablock, other) => ∃ rest, CStable.readHeader mem file =
        .ok (⟨.v0_2_0, ⟨columns.map (stored mem), mem.num_rows⟩, some metablock,
          other.map MetaBlock.headIndexPage⟩, rest)
    | none => Raises (CStable.readHeader mem file) := by
  obtain ⟨a, b, rest, ha, hb, rfl, hsa, hsb⟩ := h
  have hread := readHeader_layout mem ha hb hcols rest
  rw [hsa, hsb] at hread
  obtain ⟨even, odd⟩ := s
  cases even with
  | none =>
    cases odd with
    | none => exact ⟨_, hread⟩
    | some y => exact ⟨_, hread⟩
  | some x =>
    cases odd with
    | none => exact ⟨_, hread⟩
    | some y =>
      have hgt : x.transaction_id > y.transaction_id ↔ txid y < txid x := UInt64.lt_iff_toNat_lt
      simp only [Slots.newest]
      simp only [Option.toList_some, List.singleton_append, selectMetaBlock, hgt] at hread
      -- both slots are valid, and the reader takes the one with the higher transaction id
      by_cases hlt : txid y < txid x
      · rw [if_pos hlt] at hread ⊢
        exact ⟨_, hread⟩
      · rw [if_neg hlt] at hread ⊢
        exact ⟨_, hread⟩

/-! ### Runs -/

/-- What is done to the page manager of a file that has its header. -/
inductive TxOp where
  /-- `writePage`. -/
  | page (page_offset page_size : Nat) (data : Bytes)
  /-- `writeTransaction`. -/
  | transaction (mb : MetaBlock)

/-- One operation. -/
def TxOp.apply (page_mgr : PageManager) : TxOp → Result PageManager
  | page page_offset page_size data => page_mgr.writePage page_offset page_size data
  | transaction mb => page_mgr.writeTransaction mb

/-- Operations one after the other. -/
def runTx (page_mgr : PageManager) : List TxOp → Result PageManager
  | [] => .ok page_mgr
  | op :: ops => do
    let page_mgr ← op.apply page_mgr
    runTx page_mgr ops

/-- The metablocks of the transactions of a run. -/
def transactions : List TxOp → List MetaBlock
  | [] => []
  | .page _ _ _ :: ops => transactions ops
  | .transaction mb :: ops => mb :: transactions ops

/-- The page writes of a run stay behind the header. -/
def PagesBehind (size : Nat) (ops : List TxOp) : Prop :=
  ∀ page_offset page_size data, .page page_offset page_size data ∈ ops → size ≤ page_offset

/-- `writeTransaction` for v0.2.0 never fails and issues one slot write. -/
theorem writeTransaction_eq {pm : PageManager} (hv : pm.version = .v0_2_0)
    (hpos : pm.meta_block_position = kMetaBlockPosition)
    (hsize : pm.meta_block_size = kMetaBlockSize) (mb : MetaBlock) :
    pm.writeTransaction mb = .ok { pm with
      file := pm.file ++ [.metablock (slotOffset (txid mb)) (writeMetaBlock mb)] } := by
  have hfits : PageManager.FitsPwrite (slotOffset (txid mb)) (writeMetaBlock mb).length := by
    rw [length_writeMetaBlock, slotOffset, kMetaBlockPosition, kMetaBlockSize]
    exact ⟨by omega, by norm_num⟩
  have hbuf : ((writeMetaBlock mb).length == kMetaBlockSize) = true := by
    rw [length_writeMetaBlock, beq_self_eq_true]
  have hversion : (BinaryFormatVersion.v0_2_0 != .v0_1_0) = true := rfl
  have hcall : pm.writeTransaction mb =
      pm.pwrite (slotOffset (txid mb)) (writeMetaBlock mb).length
        (.metablock (slotOffset (txid mb)) (writeMetaBlock mb)) := by
    simp only [PageManager.writeTransaction, RCHECK, hv, hpos, hsize, hversion, hbuf, if_true,
      Result.ok_bind, slotOffset, txid]
  rw [hcall, PageManager.pwrite_eq, if_pos hfits]

/-- Transactions alone never fail. -/
theorem runTx_transactions (pm : PageManager) (hv : pm.version = .v0_2_0)
    (hpos : pm.meta_block_position = kMetaBlockPosition)
    (hsize : pm.meta_block_size = kMetaBlockSize) (mbs : List MetaBlock) :
    ∃ pm', runTx pm (mbs.map .transaction) = .ok pm' := by
  induction mbs generalizing pm with
  | nil => exact ⟨pm, rfl⟩
  | cons mb mbs ih =>
    obtain ⟨pm', hrest⟩ := ih { pm with
      file := pm.file ++ [.metablock (slotOffset (txid mb)) (writeMetaBlock mb)] } hv hpos hsize
    exact ⟨pm', Result.bind_eq_ok.mpr ⟨_, writeTransaction_eq hv hpos hsize mb, hrest⟩⟩

/-- A run keeps the header and writes its transactions to the slots in turn. By induction on the
operations. -/
theorem HasSlots.runTx {columns : List ColumnConfig} {s : Slots MetaBlock}
    {pm pm' : PageManager} {ops : List TxOp} (h : HasSlots columns s (contents pm.file))
    (hv : pm.version = .v0_2_0) (hpos : pm.meta_block_position = kMetaBlockPosition)
    (hsize : pm.meta_block_size = kMetaBlockSize)
    (hpages : PagesBehind (headerSize columns) ops) (hrun : v0_2_0.runTx pm ops = .ok pm') :
    HasSlots columns ((transactions ops).foldl (Slots.put txid) s) (contents pm'.file) := by
  induction ops generalizing pm s with
  | nil =>
    cases hrun
    exact h
  | cons op ops ih =>
    obtain ⟨pm₁, hstep, hrest⟩ := Result.bind_eq_ok.mp hrun
    have htail : PagesBehind (headerSize columns) ops := fun o n d hmem =>
      hpages o n d (List.mem_cons_of_mem op hmem)
    cases op with
    | page page_offset page_size data =>
      obtain ⟨_, rfl⟩ := PageManager.writePage_eq_ok.mp hstep
      -- a page behind the header leaves both slots as they are
      have hbehind := hpages page_offset page_size data List.mem_cons_self
      have hnext := h.page (FileWrite.pageData page_size data) hbehind
      refine ih ?_ ?_ ?_ ?_ htail hrest
      · rw [contents_append]
        exact hnext
      · exact hv
      · exact hpos
      · exact hsize
    | transaction mb =>
      -- a transaction replaces the slot of its parity
      have hstep' : pm.writeTransaction mb = .ok pm₁ := hstep
      rw [writeTransaction_eq hv hpos hsize] at hstep'
      cases hstep'
      have hnext := h.slot (txid mb) (length_writeMetaBlock mb)
      rw [slotBlock_writeMetaBlock] at hnext
      refine ih ?_ ?_ ?_ ?_ htail hrest
      · rw [contents_append]
        exact hnext
      · exact hv
      · exact hpos
      · exact hsize

/-- After transactions 1, 2, .., n the header names the last one, with the index
page of the one before it as free; the columns are the ones written. If the next
slot write is torn, the last transaction is still found, with no free index, and
without a transaction before it there is nothing to open. -/
theorem readHeader_after_transactions (mem : Uninit) (columns : List ColumnConfig)
    (header : Bytes) (ops : List TxOp) (pm : PageManager) (hcols : Representable columns)
    (hheader : writeHeader columns = .ok header)
    (hpages : PagesBehind header.length ops)
    (hrun : runTx (PageManager.new .v0_2_0 [.stream header] (UInt64.ofNat header.length)) ops =
      .ok pm)
    (hids : Slots.Numbered txid (transactions ops)) :
    (∀ mb, (transactions ops).getLast? = some mb →
      ∃ rest, CStable.readHeader mem (contents pm.file) =
        .ok (⟨.v0_2_0, ⟨columns.map (stored mem), mem.num_rows⟩, some mb,
          (transactions ops).dropLast.getLast?.map MetaBlock.headIndexPage⟩, rest)) ∧
    ∀ torn : Bytes, torn.length = kMetaBlockSize → hashMatches torn = false →
      match (transactions ops).getLast? with
      | some mb => ∃ rest, CStable.readHeader mem (contents (pm.file ++
          [.metablock (slotOffset ((transactions ops).length + 1)) torn])) =
            .ok (⟨.v0_2_0, ⟨columns.map (stored mem), mem.num_rows⟩, some mb, none⟩, rest)
      | none => Raises (CStable.readHeader mem (contents (pm.file ++
          [.metablock (slotOffset ((transactions ops).length + 1)) torn]))) := by
  have hsize := headerSize_le hheader
  have hslots := (hasSlots_header hheader).runTx rfl rfl rfl
    (fun o n d hmem => Nat.le_trans hsize (hpages o n d hmem)) hrun
  change HasSlots columns (Slots.putAll txid (transactions ops)) (contents pm.file) at hslots
  constructor
  · intro mb hmb
    have hread := hslots.readHeader mem hcols
    rw [Slots.newest_putAll hids hmb] at hread
    exact hread
  · -- the torn block loses the slot that the next transaction would have taken
    intro torn hlen hbad
    have htorn := hslots.slot ((transactions ops).length + 1) hlen
    rw [slotBlock, hbad, if_neg Bool.false_ne_true] at htorn
    have hread := htorn.readHeader mem hcols
    rw [Slots.newest_lose hids] at hread
    have hfile : contents (pm.file ++
        [.metablock (slotOffset ((transactions ops).length + 1)) torn]) =
          writeAt 0 (contents pm.file) (slotOffset ((transactions ops).length + 1)) torn :=
      contents_append pm.file _
    rw [hfile]
    cases hlast : (transactions ops).getLast? with
    | none =>
      rw [hlast] at hread
      exact hread
    | some mb =>
      rw [hlast] at hread
      exact hread

/-- Two transactions on a table with one column: the second is found with the
index page of the first, and the first alone when the second write is torn. -/
theorem readHeader_after_two_transactions :
    let columns : List ColumnConfig := [⟨7, [0x61], 12, 2, 1, 2, 0, 0⟩]
    let first : MetaBlock := ⟨1, 10, 1024, 512, 1536⟩
    let second : MetaBlock := ⟨2, 20, 2048, 1024, 3072⟩
    let mem : Uninit := zeroUninit
    ∃ header pm₁ pm₂, writeHeader columns = .ok header ∧
      runTx (PageManager.new .v0_2_0 [.stream header] (UInt64.ofNat header.length))
        [.transaction first] = .ok pm₁ ∧
      runTx (PageManager.new .v0_2_0 [.stream header] (UInt64.ofNat header.length))
        [.transaction first, .transaction second] = .ok pm₂ ∧
      (∃ rest, CStable.readHeader mem (contents pm₂.file) =
        .ok (⟨.v0_2_0, ⟨columns, 0⟩, some second, some ⟨1024, 512⟩⟩, rest)) ∧
      ∃ rest,
        CStable.readHeader mem (contents (pm₁.file ++ [.metablock (slotOffset 2) emptySlot])) =
        .ok (⟨.v0_2_0, ⟨columns, 0⟩, some first, none⟩, rest) := by
  intro columns first second mem
  obtain ⟨padding, hheader, -⟩ := writeHeader_eq columns
  have hcols : Representable columns := by
    constructor <;> simp [columns]
  obtain ⟨pm₁, hrun₁⟩ := runTx_transactions (PageManager.new .v0_2_0 [.stream
    (layout emptySlot emptySlot columns ++ List.replicate padding 0)] (UInt64.ofNat
      (layout emptySlot emptySlot columns ++ List.replicate padding 0).length)) rfl rfl rfl [first]
  obtain ⟨pm₂, hrun₂⟩ := runTx_transactions (PageManager.new .v0_2_0 [.stream
    (layout emptySlot emptySlot columns ++ List.replicate padding 0)] (UInt64.ofNat
      (layout emptySlot emptySlot columns ++ List.replicate padding 0).length)) rfl rfl rfl
    [first, second]
  have hnone : ∀ (mbs : List MetaBlock), PagesBehind
      (layout emptySlot emptySlot columns ++ List.replicate padding 0).length
      (mbs.map .transaction) := by
    intro mbs o n d hmem
    obtain ⟨mb, -, hmb⟩ := List.mem_map.mp hmem
    cases hmb
  refine ⟨_, _, _, hheader, hrun₁, hrun₂, ?_, ?_⟩
  · exact (readHeader_after_transactions mem columns _ _ _ hcols hheader
      (hnone [first, second]) hrun₂ rfl).1 second rfl
  · have htorn := (readHeader_after_transactions mem columns _ _ _ hcols hheader
      (hnone [first]) hrun₁ rfl).2 emptySlot length_emptySlot hashMatches_emptySlot
    have hids : transactions ([first].map .transaction) = [first] := rfl
    rw [hids] at htorn
    exact htorn

end v0_2_0

end CStable
