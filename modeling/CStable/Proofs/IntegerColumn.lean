import CStable.Proofs.V1Column

/-!
# `CStable.Proofs.IntegerColumn`: what an integer column does to a value

The four integer classes take a 64-bit value and store it in a width of their
own: the bits of `max_value` for `BitPackedIntColumnWriter`, 32 bits for
`UInt32ColumnWriter`, all 64 for the other two. No class compares the value with
that width, and none of the calls raises.

`DataWriter.limit` is the first value that does not fit. Below it a column reads
back what was written (`ColumnWriter.Records.callAll`), by the round trip of
`Proofs.V1Column`. From it on it can not: whatever bytes the data stream holds,
the reader of the class only delivers values below the limit
(`DataReader.Below.next`).
-/

set_option autoImplicit false

namespace CStable

open Support

namespace v1

/-! ### The writers and their calls -/

/-- The integer column writers, by the argument of their constructor. -/
inductive IntegerClass where
  /-- `BitPackedIntColumnWriter`. -/
  | bitPackedInt (max_value : UInt32)
  /-- `UInt32ColumnWriter`. -/
  | uint32 (type : UInt8)
  /-- `UInt64ColumnWriter`. -/
  | uint64 (type : UInt8)
  /-- `LEB128ColumnWriter`. -/
  | leb128 (type : UInt8)
  deriving DecidableEq, Repr

/-- The data stream the constructor starts with. -/
def IntegerClass.dataWriter : IntegerClass → DataWriter
  | bitPackedInt max_value =>
    .bitPackedInt max_value.toNat (BitPackEncoder.new max_value.toNat)
  | uint32 type => .uint32 type []
  | uint64 type => .uint64 type []
  | leb128 type => .leb128 type []

/-- `writeUnsignedInt` at the maximal definition level or `writeNull` below it. -/
def UnsignedCall (r_max d_max : Nat) (c : WriteCall) : Prop :=
  c.rlvl ≤ r_max ∧
    ((c.arg = .null ∧ c.dlvl < d_max) ∨ ((∃ v, c.arg = .unsignedInt v) ∧ c.dlvl = d_max))

/-- The entry such a call is to leave in the column. -/
def unsignedEntry (c : WriteCall) : Entry where
  rlvl := c.rlvl
  dlvl := c.dlvl
  value :=
    match c.arg with
    | .unsignedInt v => some (.unsignedInt v.toNat)
    | _ => none

/-- After the calls on a new column, whichever of them raise, the committed column
reads back the entries of the calls that did not. -/
def NeverCorrupts (cls : IntegerClass) (r_max d_max : Nat) (calls : List WriteCall) : Prop :=
  ∀ mem address,
    HoldsAt mem address
      ((ColumnWriter.new r_max d_max cls.dataWriter).callAll calls).1.commit.body →
    ∃ r, ColumnReader.new mem cls.dataWriter.encoding r_max d_max address
        ((ColumnWriter.new r_max d_max cls.dataWriter).callAll calls).1.commit.bodySize = .ok r ∧
      r.ReadsExactly mem
        (((ColumnWriter.new r_max d_max cls.dataWriter).callAll calls).2.map unsignedEntry)

/-! ### The width of a class -/

/-- The first value an integer class can not store. -/
def DataWriter.limit : DataWriter → Nat
  | bitPackedInt max_value _ => 2 ^ bits (max_value % 2 ^ 32)
  | uint32 _ _ => 2 ^ 32
  | uint64 _ _ => 2 ^ 64
  | leb128 _ _ => 2 ^ 64
  | _ => 0

/-- The first value a column of the class can not store. -/
def IntegerClass.limit (cls : IntegerClass) : Nat := cls.dataWriter.limit

/-- Zero fits every class. -/
theorem IntegerClass.limit_pos (cls : IntegerClass) : 0 < cls.limit := by
  cases cls <;> exact Nat.two_pow_pos _

/-- A fresh stream of the class stores no values. The invariant of a run starts here. -/
theorem IntegerClass.stores (cls : IntegerClass) : cls.dataWriter.Stores [] := by
  cases cls with
  | bitPackedInt max_value => exact DataWriter.stores_bitPackedInt max_value.toNat_lt
  | uint32 type => exact Coded.nil
  | uint64 type => exact Coded.nil
  | leb128 type => exact Coded.nil

/-- A value below the limit is one the class stores as it is. At or above it nothing is said: a
bit-packed value may spoil the others of its block. -/
theorem DataWriter.Stores.storedDatum_unsigned {dw : DataWriter} {data : List Datum}
    (h : dw.Stores data) {v : UInt64} (hv : v.toNat < dw.limit) :
    dw.storedDatum (leBytes 8 v.toNat) = some (.unsignedInt v.toNat) := by
  have hval : leNat (leBytes 8 v.toNat) = v.toNat := leNat_leBytes_of_lt v.toNat_lt
  cases dw with
  | bitPackedInt max_value e =>
    have hlt : v.toNat < 2 ^ bits max_value := by
      rwa [limit, Nat.mod_eq_of_lt h.1] at hv
    rw [storedDatum, leBytes_length, hval, if_pos ⟨rfl, hlt⟩]
  | uint32 type w => rw [storedDatum, leBytes_length, hval, if_pos ⟨rfl, hv⟩]
  | uint64 type w => rw [storedDatum, leBytes_length, hval, if_pos rfl]
  | leb128 type w => rw [storedDatum, leBytes_length, hval, if_pos rfl]
  | _ => exact absurd hv (Nat.not_lt_zero _)

/-- An integer class takes every value, fitting or not, and keeps its width. The source has no
check here. -/
theorem DataWriter.addDatum_unsigned {dw : DataWriter} (hpos : 0 < dw.limit) (v : UInt64) :
    ∃ dw', dw.addDatum (leBytes 8 v.toNat) = .ok dw' ∧ dw'.limit = dw.limit ∧
      dw'.encoding = dw.encoding := by
  have hlen : (leBytes 8 v.toNat).length = 8 := leBytes_length 8 _
  cases dw with
  | bitPackedInt max_value e =>
    refine ⟨.bitPackedInt max_value (e.encode (leNat (leBytes 8 v.toNat))), ?_, rfl, rfl⟩
    rw [addDatum, if_pos (Or.inr (Or.inr hlen))]
  | uint32 type w =>
    refine ⟨.uint32 type (w ++ appendUInt32 (leNat (leBytes 8 v.toNat))), ?_, rfl, rfl⟩
    rw [addDatum, if_pos (Or.inr (Or.inr hlen))]
  | uint64 type w =>
    refine ⟨.uint64 type (w ++ appendUInt64 (leNat (leBytes 8 v.toNat))), ?_, rfl, rfl⟩
    rw [addDatum, if_neg (not_not.mpr hlen)]
  | leb128 type w =>
    refine ⟨.leb128 type (w ++ appendVarUInt (leNat (leBytes 8 v.toNat))), ?_, rfl, rfl⟩
    rw [addDatum, if_neg (fun hne => hne.2 hlen)]
  | _ => exact absurd hpos (Nat.lt_irrefl _)

/-! ### Writing -/

/-- What no call changes, and the count it moves on. -/
structure ColumnWriter.Follows (w w' : ColumnWriter) (n : Nat) : Prop where
  r_max : w'.r_max = w.r_max
  d_max : w'.d_max = w.d_max
  num_vals : w'.num_vals = w.num_vals + n
  limit : w'.data_writer.limit = w.data_writer.limit
  encoding : w'.data_writer.encoding = w.data_writer.encoding

/-- No call raises. So a value that does not fit is not reported to the caller. -/
theorem ColumnWriter.call_unsigned {w : ColumnWriter} {c : WriteCall} {r_max d_max : Nat}
    (hpos : 0 < w.data_writer.limit) (hc : UnsignedCall r_max d_max c) :
    ∃ w', w.call c = .ok w' ∧ w.Follows w' 1 := by
  unfold ColumnWriter.call
  rcases hc.2 with ⟨hnull, -⟩ | ⟨⟨v, hv⟩, -⟩
  · rw [hnull]
    exact ⟨_, rfl, rfl, rfl, rfl, rfl, rfl⟩
  · obtain ⟨dw', hadd, hlimit, henc⟩ := DataWriter.addDatum_unsigned hpos v
    rw [hv]
    unfold ColumnWriter.addDatum datum
    dsimp only
    rw [hadd, Result.ok_bind]
    exact ⟨_, rfl, rfl, rfl, rfl, hlimit, henc⟩

/-- The whole run: all calls are accepted. By induction on the calls. -/
theorem ColumnWriter.callAll_unsigned {r_max d_max : Nat} {calls : List WriteCall} :
    ∀ {w : ColumnWriter}, 0 < w.data_writer.limit → (∀ c ∈ calls, UnsignedCall r_max d_max c) →
      (w.callAll calls).2 = calls ∧ w.Follows (w.callAll calls).1 calls.length := by
  induction calls with
  | nil =>
    intro w _ _
    exact ⟨rfl, rfl, rfl, rfl, rfl, rfl⟩
  | cons c cs ih =>
    intro w hpos hcalls
    obtain ⟨w', hcall, hstep⟩ := call_unsigned hpos (hcalls c List.mem_cons_self)
    have hpos' : 0 < w'.data_writer.limit := hstep.limit ▸ hpos
    obtain ⟨hacc, hrun⟩ := ih hpos' fun c' hc' => hcalls c' (List.mem_cons_of_mem c hc')
    have heq : w.callAll (c :: cs) = ((w'.callAll cs).1, c :: (w'.callAll cs).2) := by
      rw [callAll, hcall]
    rw [heq]
    refine ⟨congrArg (c :: ·) hacc, hrun.r_max.trans hstep.r_max, hrun.d_max.trans hstep.d_max, ?_,
      hrun.limit.trans hstep.limit, hrun.encoding.trans hstep.encoding⟩
    rw [hrun.num_vals, hstep.num_vals, List.length_cons]
    omega

/-- A call whose value fits leaves its entry. A null has no value to fit. -/
theorem ColumnWriter.Records.writes_unsigned {w : ColumnWriter} {entries : List Entry}
    {c : WriteCall} (h : w.Records entries) (hc : UnsignedCall w.r_max w.d_max c)
    (hfits : ∀ v, c.arg = .unsignedInt v → v.toNat < w.data_writer.limit) :
    w.Writes c (unsignedEntry c) := by
  rcases hc.2 with ⟨hnull, hd⟩ | ⟨⟨v, hv⟩, hd⟩
  · refine .null hnull hd ?_
    unfold unsignedEntry
    rw [hnull]
  · have hdatum : datum c.arg = some (leBytes 8 v.toNat) := by
      rw [hv]
      rfl
    refine .value hdatum hd (h.data.storedDatum_unsigned (hfits v hv)) ?_
    unfold unsignedEntry
    rw [hv]

/-- As long as all values fit, a run records the entries of its calls. By induction on the
calls. -/
theorem ColumnWriter.Records.callAll {calls : List WriteCall} :
    ∀ {w : ColumnWriter} {entries : List Entry}, w.Records entries → w.r_max < 2 ^ 32 →
      w.d_max < 2 ^ 32 → 0 < w.data_writer.limit →
      (∀ c ∈ calls, UnsignedCall w.r_max w.d_max c) →
      (∀ c ∈ calls, ∀ v, c.arg = .unsignedInt v → v.toNat < w.data_writer.limit) →
      (w.callAll calls).1.Records (entries ++ calls.map unsignedEntry) := by
  induction calls with
  | nil =>
    intro w entries h _ _ _ _ _
    rw [List.map_nil, List.append_nil]
    exact h
  | cons c cs ih =>
    intro w entries h hr hd hpos hcalls hfits
    have hc := hcalls c List.mem_cons_self
    obtain ⟨w', hcall, hrec, -⟩ := h.write hr hd hc.1
      (h.writes_unsigned hc (hfits c List.mem_cons_self))
    obtain ⟨w'', hcall'', hstep⟩ := call_unsigned hpos hc
    rw [hcall] at hcall''
    cases hcall''
    have heq : (w.callAll (c :: cs)).1 = (w'.callAll cs).1 := by
      rw [ColumnWriter.callAll, hcall]
    rw [heq, List.map_cons, List.append_cons]
    refine ih hrec (hstep.r_max ▸ hr) (hstep.d_max ▸ hd) (hstep.limit ▸ hpos) ?_ ?_
    · intro c' hc'
      rw [hstep.r_max, hstep.d_max]
      exact hcalls c' (List.mem_cons_of_mem c hc')
    · intro c' hc' v hv
      rw [hstep.limit]
      exact hfits c' (List.mem_cons_of_mem c hc') v hv

/-! ### Reading -/

/-- The reader only delivers integers below `n`. -/
def DataReader.Below (n : Nat) : DataReader → Prop
  | bitPackedInt _ d => d.Bounded ∧ 2 ^ d.maxbits = n
  | uint32 _ => 2 ^ 32 = n
  | _ => False

/-- A load from memory returns as many bytes as it was asked for, or faults. -/
theorem load_length {mem : Mapping} {address n : Nat} {bytes : Bytes}
    (h : load mem address n = .ok bytes) : bytes.length = n := by
  unfold load at h
  split_ifs at h with hle
  cases h
  rw [readAt, List.length_take, List.length_drop]
  omega

/-- Whatever is in memory, a value that is read is below the bound. So a value at or above it
cannot come back, and the condition is exact. -/
theorem DataReader.Below.next {mem : Mapping} {n : Nat} {r r' : DataReader} {v : Datum}
    (h : r.Below n) (hnext : r.next mem = .ok (v, r')) :
    (∃ x, v = .unsignedInt x ∧ x < n) ∧ r'.Below n := by
  cases r with
  | bitPackedInt max_value d =>
    obtain ⟨⟨x, d'⟩, hd, hret⟩ := Result.bind_eq_ok.mp hnext
    cases hret
    obtain ⟨hlt, hbounded, hbits⟩ := h.1.next hd
    exact ⟨⟨x, rfl, h.2 ▸ hlt⟩, hbounded, hbits ▸ h.2⟩
  | uint32 r =>
    obtain ⟨⟨x, r''⟩, hread, hret⟩ := Result.bind_eq_ok.mp hnext
    cases hret
    refine ⟨⟨x, rfl, ?_⟩, h⟩
    obtain ⟨⟨bytes, r₁⟩, hbytes, hx⟩ := Result.bind_eq_ok.mp hread
    cases hx
    unfold BinaryMessageReader.read at hbytes
    split at hbytes
    · cases hbytes
    obtain ⟨loaded, hload, hret⟩ := Result.bind_eq_ok.mp hbytes
    cases hret
    have hlt := leNat_lt bytes
    rw [load_length hload] at hlt
    exact h ▸ hlt
  | _ => exact absurd h id

/-- The integer of an entry is below the bound of the data reader it came from. -/
theorem DataReader.Below.readNext {mem : Mapping} {n : Nat} {r r' : ColumnReader} {e : Entry}
    (h : r.data_reader.Below n) (hread : r.readNext mem = .ok (e, r')) :
    r'.data_reader.Below n ∧ ∀ x, e.value = some (.unsignedInt x) → x < n := by
  unfold ColumnReader.readNext at hread
  obtain ⟨⟨rlvl, rr⟩, -, hread⟩ := Result.bind_eq_ok.mp hread
  obtain ⟨⟨dlvl, dr⟩, -, hread⟩ := Result.bind_eq_ok.mp hread
  dsimp only at hread
  -- a null leaves the data stream alone, a value takes one integer from it
  split_ifs at hread
  · obtain ⟨⟨v, data_reader⟩, hnext, hret⟩ := Result.bind_eq_ok.mp hread
    cases hret
    obtain ⟨⟨x, rfl, hlt⟩, hbelow⟩ := h.next hnext
    refine ⟨hbelow, fun y hy => ?_⟩
    cases hy
    exact hlt
  · cases hread
    exact ⟨h, fun y hy => by cases hy⟩

/-- Every integer of a column is below the bound of its data reader. By induction on the
entries. -/
theorem ColumnReader.ReadsExactly.below {mem : Mapping} {n : Nat} {entries : List Entry} :
    ∀ {r : ColumnReader}, r.ReadsExactly mem entries → r.data_reader.Below n →
      ∀ e ∈ entries, ∀ x, e.value = some (.unsignedInt x) → x < n := by
  induction entries with
  | nil =>
    intro r _ _ e he
    cases he
  | cons e entries ih =>
    intro r hreads hbelow e' he'
    obtain ⟨-, r', hread, hrest⟩ := hreads
    obtain ⟨hbelow', hlt⟩ := hbelow.readNext hread
    rcases List.mem_cons.mp he' with rfl | he'
    · exact hlt
    · exact ih hrest hbelow' e' he'

/-- The reader over the data stream of an integer class is bounded by its limit,
unless the class stores all 64 bits. -/
theorem DataWriter.below_reader {dw : DataWriter} (hpos : 0 < dw.limit) {mem : Mapping}
    {address : Nat} (hmem : HoldsAt mem address dw.commit.bytes) {dr : DataReader}
    (hdr : DataReader.new mem dw.encoding address dw.commit.size = .ok dr) :
    dw.limit = 2 ^ 64 ∨ dr.Below dw.limit := by
  cases dw with
  | bitPackedInt max_value e =>
    -- the maximum the decoder is given comes from the first four bytes of the stream
    have hstream : HoldsAt mem address (appendUInt32 max_value ++ e.flush.buf) := hmem
    have hload := hstream.left.load
    rw [length_appendUInt32] at hload
    obtain ⟨bytes, hbytes, hret⟩ := Result.bind_eq_ok.mp hdr
    rw [hload] at hbytes
    cases hbytes
    cases hret
    refine Or.inr ⟨BitPackDecoder.bounded_new, ?_⟩
    have hmax : leNat (appendUInt32 max_value) = max_value % 2 ^ 32 := leNat_leBytes 4 max_value
    show 2 ^ bits (leNat (appendUInt32 max_value) % 2 ^ 32) = 2 ^ bits (max_value % 2 ^ 32)
    rw [hmax, Nat.mod_mod]
  | uint32 type w =>
    cases hdr
    exact Or.inr rfl
  | uint64 type w => exact Or.inl rfl
  | leb128 type w => exact Or.inl rfl
  | _ => exact absurd hpos (Nat.lt_irrefl _)

/-- A new column of a class has recorded nothing. -/
theorem IntegerClass.records_new (cls : IntegerClass) {r_max d_max : Nat} (hr : r_max < 2 ^ 32)
    (hd : d_max < 2 ^ 32) : (ColumnWriter.new r_max d_max cls.dataWriter).Records [] where
  num_vals := rfl
  rlvl_bits := congrArg bits (Nat.mod_eq_of_lt hr)
  dlvl_bits := congrArg bits (Nat.mod_eq_of_lt hd)
  rlvl := BitPackEncoder.encodes_new r_max
  dlvl := BitPackEncoder.encodes_new d_max
  data := cls.stores
  defined := fun _ he => absurd he List.not_mem_nil

/-- A column of values that fit reads back its entries. The counts and sizes are bounded by what
the body stores them in. -/
theorem IntegerClass.reads_back (cls : IntegerClass) {r_max d_max : Nat} {calls : List WriteCall}
    (hr : r_max < 2 ^ 32) (hd : d_max < 2 ^ 32) (hcalls : ∀ c ∈ calls, UnsignedCall r_max d_max c)
    (hcount : calls.length < 2 ^ 64)
    (hsize : ((ColumnWriter.new r_max d_max cls.dataWriter).callAll calls).1.commit.bodySize <
      2 ^ 64)
    (hfits : ∀ c ∈ calls, ∀ v, c.arg = .unsignedInt v → v.toNat < cls.limit) {mem : Mapping}
    {address : Nat} (hmem : HoldsAt mem address
      ((ColumnWriter.new r_max d_max cls.dataWriter).callAll calls).1.commit.body) :
    ∃ r, ColumnReader.new mem cls.dataWriter.encoding r_max d_max address
        ((ColumnWriter.new r_max d_max cls.dataWriter).callAll calls).1.commit.bodySize = .ok r ∧
      r.ReadsExactly mem (calls.map unsignedEntry) ∧
      r.data_reader.encoding = cls.dataWriter.encoding := by
  obtain ⟨-, hrun⟩ := ColumnWriter.callAll_unsigned
    (w := ColumnWriter.new r_max d_max cls.dataWriter) cls.limit_pos hcalls
  have hrec := (cls.records_new hr hd).callAll hr hd cls.limit_pos hcalls hfits
  rw [List.nil_append] at hrec
  have hcount' : (calls.map unsignedEntry).length < 2 ^ 64 := by
    rwa [List.length_map]
  obtain ⟨r, hnew, hdelivers⟩ := hrec.delivers (hrun.r_max.symm ▸ hr) (hrun.d_max.symm ▸ hd)
    hcount' hmem hsize
  rw [hrun.r_max, hrun.d_max, hrun.encoding] at hnew
  exact ⟨r, hnew, hdelivers.readsExactly, (ColumnReader.new_spec hnew).1⟩

/-- The reader over a column, fitting or not, is bounded by the limit of the class,
unless the class stores all 64 bits. -/
theorem IntegerClass.below_reader (cls : IntegerClass) {r_max d_max : Nat}
    {calls : List WriteCall} (hcalls : ∀ c ∈ calls, UnsignedCall r_max d_max c)
    (hcount : calls.length < 2 ^ 64)
    (hsize : ((ColumnWriter.new r_max d_max cls.dataWriter).callAll calls).1.commit.bodySize <
      2 ^ 64) {mem : Mapping} {address : Nat} (hmem : HoldsAt mem address
      ((ColumnWriter.new r_max d_max cls.dataWriter).callAll calls).1.commit.body)
    {r : ColumnReader} (hnew : ColumnReader.new mem cls.dataWriter.encoding r_max d_max address
      ((ColumnWriter.new r_max d_max cls.dataWriter).callAll calls).1.commit.bodySize = .ok r) :
    cls.limit = 2 ^ 64 ∨ r.data_reader.Below cls.limit := by
  obtain ⟨-, hrun⟩ := ColumnWriter.callAll_unsigned
    (w := ColumnWriter.new r_max d_max cls.dataWriter) cls.limit_pos hcalls
  generalize ((ColumnWriter.new r_max d_max cls.dataWriter).callAll calls).1 = w
    at hrun hsize hmem hnew
  have hnum : w.commit.num_vals < 2 ^ 64 := by
    show w.num_vals < 2 ^ 64
    rw [hrun.num_vals]
    show 0 + calls.length < 2 ^ 64
    omega
  rw [ColumnReader.new_body _ _ _ hnum hsize hmem] at hnew
  obtain ⟨dr, hdr, hret⟩ := Result.bind_eq_ok.mp hnew
  cases hret
  have henc : cls.dataWriter.encoding = w.data_writer.encoding := hrun.encoding.symm
  have hlimit : w.data_writer.limit = cls.limit := hrun.limit
  rw [henc] at hdr
  rw [← hlimit]
  exact DataWriter.below_reader (hlimit ▸ cls.limit_pos) (ColumnWriter.holdsAt_body hmem).2.2 hdr

/-! ### Exactly the values that fit -/

/-- An integer column reads back what was written to it exactly when every value
is below the limit of its class. -/
theorem neverCorrupts_iff (cls : IntegerClass) (r_max d_max : Nat) (calls : List WriteCall)
    (hr : r_max < 2 ^ 32) (hd : d_max < 2 ^ 32)
    (hcalls : ∀ c ∈ calls, UnsignedCall r_max d_max c) (hcount : calls.length < 2 ^ 64)
    (hsize : ((ColumnWriter.new r_max d_max cls.dataWriter).callAll calls).1.commit.bodySize <
      2 ^ 64) :
    NeverCorrupts cls r_max d_max calls ↔
      ∀ c ∈ calls, ∀ v, c.arg = .unsignedInt v → v.toNat < cls.limit := by
  obtain ⟨hacc, -⟩ := ColumnWriter.callAll_unsigned
    (w := ColumnWriter.new r_max d_max cls.dataWriter) cls.limit_pos hcalls
  unfold NeverCorrupts
  rw [hacc]
  constructor
  · intro h c hc v hv
    -- the body alone, at address zero, is a memory to read from
    obtain ⟨r, hnew, hreads⟩ := h _ 0 ⟨[], [], (List.append_nil _).symm, rfl⟩
    rcases cls.below_reader hcalls hcount hsize ⟨[], [], (List.append_nil _).symm, rfl⟩ hnew with
      hall | hbelow
    · rw [hall]
      exact v.toNat_lt
    · refine hreads.below hbelow (unsignedEntry c) (List.mem_map_of_mem hc) v.toNat ?_
      unfold unsignedEntry
      rw [hv]
  · intro hfits mem address hmem
    obtain ⟨r, hnew, hreads, -⟩ := cls.reads_back hr hd hcalls hcount hsize hfits hmem
    exact ⟨r, hnew, hreads⟩

/-- Three values and a null in a column of three bits. -/
theorem neverCorrupts_three_bits :
    let calls : List WriteCall := [⟨0, 1, .unsignedInt 7⟩, ⟨0, 0, .null⟩, ⟨0, 1, .unsignedInt 0⟩,
      ⟨1, 1, .unsignedInt 5⟩]
    NeverCorrupts (.bitPackedInt 4) 1 1 calls := by
  intro calls
  refine (neverCorrupts_iff (.bitPackedInt 4) 1 1 calls (by decide) (by decide) ?_ (by decide)
    (by decide +kernel)).mpr ?_
  · simp [calls, UnsignedCall]
  · simp [calls]
    decide

/-- A value of 33 bits in a plain 32-bit column is read back as zero. -/
theorem not_neverCorrupts_33_bits :
    ¬ NeverCorrupts (.uint32 2) 0 0 [⟨0, 0, .unsignedInt 0x100000000⟩] := by
  intro h
  have hzero : let w := ((ColumnWriter.new 0 0 (IntegerClass.uint32 2).dataWriter).callAll
        [⟨0, 0, .unsignedInt 0x100000000⟩]).1.commit
      (ColumnReader.new w.body .UINT32_PLAIN 0 0 0 w.bodySize >>= fun r =>
        (r.readNext w.body).map Prod.fst) = .ok ⟨0, 0, some (.unsignedInt 0)⟩ := by
    decide +kernel
  obtain ⟨r, hnew, -, r', hread, -⟩ := h _ 0 ⟨[], [], (List.append_nil _).symm, rfl⟩
  dsimp only at hzero
  rw [show ColumnReader.new _ .UINT32_PLAIN 0 0 0 _ = _ from hnew, Result.ok_bind, hread] at hzero
  cases hzero

end v1

end CStable
