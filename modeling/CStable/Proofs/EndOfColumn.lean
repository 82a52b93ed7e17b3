import CStable.Proofs.CommitV1
import CStable.Proofs.Peeking
import CStable.RecordMaterializer

/-!
# `CStable.Proofs.EndOfColumn`: reading past the end of a column

A column reader counts the entries it has read and knows how many there are, but its
read functions do not compare the two: a read past the end raises only if one of the
streams notices. What is behind the last entry in each stream is the invariant here,
carried through all reads:

* in a level stream of some bits, the zeros of the last block, then its end (`Closes`);
* in a data stream, the same zeros, or the bytes that `size` counts and `write` does
  not write, or the end (`DataReader.Closes`).

`Detected` is when every read past the end runs into an end. Otherwise the first of
them returns a null or a value (`Closing.fabricates`).
-/

set_option autoImplicit false

namespace CStable

open Support
open CxxM (exec)

namespace v1

/-! ### The end of a level stream -/

/-- The stream of a maximum has the values in front of it, then `k` zeros, then its
end. -/
def Closes (mem : Mapping) (max k : Nat) (d : BitPackDecoder) (values : List Nat) : Prop :=
  if max = 0 then d.maxbits = 0 ∧ ∀ v ∈ values, v = 0
  else d.Remains mem (values ++ List.replicate k 0)

namespace Closes

variable {mem : Mapping} {max k : Nat} {d : BitPackDecoder}

/-- A stream of levels delivers the first one, and what is behind the others stays. The zeros of
the last block are part of the state from the start. -/
theorem next {v : Nat} {values : List Nat} (h : Closes mem max k d (v :: values)) :
    ∃ d', d.next mem = .ok (v, d') ∧ Closes mem max k d' values := by
  unfold Closes at h ⊢
  by_cases hmax : max = 0
  · simp only [if_pos hmax] at h ⊢
    refine ⟨d, ?_, h.1, fun x hx => h.2 x (List.mem_cons_of_mem v hx)⟩
    rw [h.2 v List.mem_cons_self]
    exact BitPackDecoder.fetch_none h.1 true
  · simp only [if_neg hmax] at h ⊢
    exact BitPackDecoder.Remains.next h

/-- A stream of no bits has no end: `next` returns zero without looking at the buffer. Columns
without levels are of this kind. -/
theorem next_zero {values : List Nat} (h : Closes mem max k d values) (hmax : max = 0) :
    d.next mem = .ok (0, d) := by
  unfold Closes at h
  rw [if_pos hmax] at h
  exact BitPackDecoder.fetch_none h.1 true

/-- Behind the zeros the size is checked, and the check fails. -/
theorem next_end (h : Closes mem max 0 d []) (hmax : max ≠ 0) :
    d.next mem = RAISE .kBufferOverflowError "read exceeds buffer boundary" := by
  unfold Closes at h
  rw [if_neg hmax] at h
  exact BitPackDecoder.Remains.next_nil h

/-- Behind the last value is a zero, as long as there are any to fill up the block. The encoder
padded it, and the reader cannot tell it from a level. -/
theorem next_fill (h : Closes mem max (k + 1) d []) :
    ∃ d', d.next mem = .ok (0, d') ∧ Closes mem max k d' [] := by
  unfold Closes at h ⊢
  by_cases hmax : max = 0
  · simp only [if_pos hmax] at h ⊢
    exact ⟨d, BitPackDecoder.fetch_none h.1 true, h⟩
  · simp only [if_neg hmax] at h ⊢
    rw [List.nil_append, List.replicate_succ] at h
    exact BitPackDecoder.Remains.next h

end Closes

/-! ### The end of a data stream -/

/-- The data stream has the values in front of it. Behind them a bit-packed one ends as
the levels of its maximum do, the others have bytes that nothing was written to, or
their end. -/
def DataReader.Closes (mem : Mapping) (k : Nat) : DataReader → List Datum → Prop
  | boolean d, data => ∃ vs : List Nat, data = vs.map .unsignedInt ∧ v1.Closes mem 1 k d vs
  | bitPackedInt max_value d, data =>
    ∃ vs : List Nat, data = vs.map .unsignedInt ∧ v1.Closes mem max_value k d vs
  | uint32 r, data => ∃ bytes ptr size, ptr + size ≤ mem.length ∧
    Coded .unsignedInt (· < 2 ^ 32) appendUInt32 data bytes ∧ r.Left mem ptr size 4 bytes
  | uint64 r, data => ∃ bytes ptr size, ptr + size ≤ mem.length ∧
    Coded .unsignedInt (· < 2 ^ 64) appendUInt64 data bytes ∧ r.Left mem ptr size 8 bytes
  | leb128 r, data => ∃ bytes ptr size,
    Coded .unsignedInt (· < 2 ^ 64) appendVarUInt data bytes ∧ r.Left mem ptr size 0 bytes
  | double r, data => ∃ bytes ptr size, ptr + size ≤ mem.length ∧
    Coded .float (· < 2 ^ 64) appendUInt64 data bytes ∧ r.Left mem ptr size 8 bytes
  | string r, data => ∃ bytes ptr size,
    Coded .string (·.length < 2 ^ 32) stringBytes data bytes ∧ r.Left mem ptr size 0 bytes

/-- No values take no bytes. -/
theorem Coded.eq_nil {α : Type} {toDatum : α → Datum} {Fits : α → Prop} {encode : α → Bytes}
    {bytes : Bytes} (h : Coded toDatum Fits encode [] bytes) : bytes = [] := by
  obtain ⟨vs, hvs, -, rfl⟩ := h
  rw [List.map_eq_nil_iff.mp hvs.symm, List.flatMap_nil]

/-- A bit-packed stream delivers its first value, and what is behind the others stays. -/
theorem closes_next {mem : Mapping} {max : Nat} {d : BitPackDecoder} {k : Nat} {v : Datum}
    {data : List Datum}
    (h : ∃ vs : List Nat, v :: data = vs.map .unsignedInt ∧ Closes mem max k d vs) :
    ∃ x d', v = .unsignedInt x ∧ d.next mem = .ok (x, d') ∧
      ∃ vs : List Nat, data = vs.map .unsignedInt ∧ Closes mem max k d' vs := by
  obtain ⟨vs, hdata, hcloses⟩ := h
  cases vs with
  | nil => cases hdata
  | cons x vs =>
    obtain ⟨hx, hrest⟩ := List.cons.inj hdata
    obtain ⟨d', hnext, hcloses'⟩ := hcloses.next
    exact ⟨x, d', hx, hnext, vs, hrest, hcloses'⟩

/-- A bit-packed stream of the values that were written, with the zeros of its last
block. -/
theorem closes_new {e : BitPackEncoder} {max : Nat} {values : List Nat} (h : e.Encodes values)
    (hbits : e.maxbits = bits max) (hmax : max < 2 ^ 32) {mem : Mapping} {data : Nat}
    (hmem : HoldsAt mem data e.flush.buf) :
    Closes mem max (fillOf values.length) (BitPackDecoder.new data e.flush.size max) values := by
  unfold Closes
  by_cases hzero : max = 0
  · rw [if_pos hzero]
    have hnone : e.maxbits = 0 := hbits.trans (bits_eq_zero.mpr hzero)
    unfold BitPackEncoder.Encodes at h
    rw [if_pos hnone] at h
    refine ⟨?_, h.2.2⟩
    rw [hzero]
    rfl
  · rw [if_neg hzero]
    exact h.remains hbits hmax hzero hmem

/-- The next value is the first of those that are left, in each of the classes. Only the
bit-packed ones may have zeros behind the last. -/
theorem DataReader.Closes.next {mem : Mapping} {k : Nat} {r : DataReader} {v : Datum}
    {data : List Datum} (h : r.Closes mem k (v :: data)) :
    ∃ r', r.next mem = .ok (v, r') ∧ r'.Closes mem k data := by
  cases r with
  | boolean d =>
    obtain ⟨x, d', rfl, hnext, hrest⟩ := closes_next h
    refine ⟨.boolean d', ?_, hrest⟩
    rw [next_boolean, hnext]
    rfl
  | bitPackedInt max_value d =>
    obtain ⟨x, d', rfl, hnext, hrest⟩ := closes_next h
    refine ⟨.bitPackedInt max_value d', ?_, hrest⟩
    rw [next_bitPackedInt, hnext]
    rfl
  | uint32 r =>
    obtain ⟨bytes, ptr, size, hmem, hcoded, hleft⟩ := h
    obtain ⟨x, rest, rfl, hx, rfl, hrest⟩ := hcoded.cons
    obtain ⟨r', hread, hleft'⟩ := hleft.readUInt32 hx
    refine ⟨.uint32 r', ?_, rest, ptr, size, hmem, hrest, hleft'⟩
    rw [next_uint32, hread]
    rfl
  | uint64 r =>
    obtain ⟨bytes, ptr, size, hmem, hcoded, hleft⟩ := h
    obtain ⟨x, rest, rfl, hx, rfl, hrest⟩ := hcoded.cons
    obtain ⟨r', hread, hleft'⟩ := hleft.readUInt64 hx
    refine ⟨.uint64 r', ?_, rest, ptr, size, hmem, hrest, hleft'⟩
    rw [next_uint64, hread]
    rfl
  | leb128 r =>
    obtain ⟨bytes, ptr, size, hcoded, hleft⟩ := h
    obtain ⟨x, rest, rfl, hx, rfl, hrest⟩ := hcoded.cons
    obtain ⟨r', hread, hleft'⟩ := hleft.readVarUInt hx
    refine ⟨.leb128 r', ?_, rest, ptr, size, hrest, hleft'⟩
    rw [next_leb128, hread]
    rfl
  | double r =>
    obtain ⟨bytes, ptr, size, hmem, hcoded, hleft⟩ := h
    obtain ⟨x, rest, rfl, hx, rfl, hrest⟩ := hcoded.cons
    obtain ⟨r', hread, hleft'⟩ := hleft.readUInt64 hx
    refine ⟨.double r', ?_, rest, ptr, size, hmem, hrest, hleft'⟩
    rw [next_double, hread]
    rfl
  | string r =>
    obtain ⟨bytes, ptr, size, hcoded, hleft⟩ := h
    obtain ⟨x, rest, rfl, hx, rfl, hrest⟩ := hcoded.cons
    rw [stringBytes, List.append_assoc] at hleft
    obtain ⟨r₁, hlen, hleft₁⟩ := hleft.readUInt32 hx
    obtain ⟨r₂, hread, hleft₂⟩ := hleft₁.read
    refine ⟨.string r₂, ?_, rest, ptr, size, hrest, hleft₂⟩
    rw [next_string, hlen, Result.ok_bind, hread]
    rfl

/-- The reader of the class finds the values that were stored, and behind them what the
class leaves there. -/
theorem DataWriter.Stores.closes {dw : DataWriter} {data : List Datum} (h : dw.Stores data)
    {mem : Mapping} {address : Nat} (hmem : HoldsAt mem address dw.commit.bytes)
    (hsize : dw.commit.size < 2 ^ 64) (hmapped : address + dw.commit.size ≤ mem.length) :
    ∃ r, DataReader.new mem dw.encoding address dw.commit.size = .ok r ∧
      r.Closes mem (fillOf data.length) data ∧ r.maxValue = dw.maxValue := by
  cases dw with
  | boolean e =>
    obtain ⟨hbits, vs, rfl, henc⟩ := h
    rw [List.length_map]
    exact ⟨_, rfl, ⟨vs, rfl, closes_new henc (show e.maxbits = bits 1 from hbits) (by norm_num)
      hmem⟩, rfl⟩
  | bitPackedInt max_value e =>
    obtain ⟨hlt, hbits, vs, rfl, henc⟩ := h
    have hstream : HoldsAt mem address (appendUInt32 max_value ++ e.flush.buf) := hmem
    have hload := hstream.left.load
    have hright := hstream.right
    rw [length_appendUInt32] at hload hright
    -- the reader subtracts the four bytes of `max_value` from an unsigned size
    have hlen : (4 + e.flush.size + 2 ^ 64 - 4) % 2 ^ 64 = e.flush.size := by
      have hfits : 4 + e.flush.size < 2 ^ 64 := hsize
      have heq : 4 + e.flush.size + 2 ^ 64 - 4 = e.flush.size + 2 ^ 64 := by omega
      rw [heq, Nat.add_mod_right, Nat.mod_eq_of_lt (by omega)]
    rw [List.length_map]
    refine ⟨.bitPackedInt max_value (BitPackDecoder.new (address + 4) e.flush.size max_value),
      ?_, ⟨vs, rfl, closes_new henc hbits hlt hright⟩, rfl⟩
    show (load mem address 4 >>= fun bytes => Except.ok (DataReader.bitPackedInt (leNat bytes)
      (BitPackDecoder.new (address + 4) ((4 + e.flush.size + 2 ^ 64 - 4) % 2 ^ 64)
        (leNat bytes)))) = _
    rw [hload, Result.ok_bind, hlen, appendUInt32, leNat_leBytes_of_lt hlt]
  | uint32 type w =>
    exact ⟨_, rfl, ⟨w, address, 4 + w.length, hmapped, h, rfl, rfl, hmem, by
      show 0 + w.length + 4 = _
      omega⟩, rfl⟩
  | uint64 type w =>
    exact ⟨_, rfl, ⟨w, address, 8 + w.length, hmapped, h, rfl, rfl, hmem, by
      show 0 + w.length + 8 = _
      omega⟩, rfl⟩
  | leb128 type w =>
    exact ⟨_, rfl, ⟨w, address, w.length, h, rfl, rfl, hmem, by
      show 0 + w.length + 0 = _
      omega⟩, rfl⟩
  | double w =>
    exact ⟨_, rfl, ⟨w, address, 8 + w.length, hmapped, h, rfl, rfl, hmem, by
      show 0 + w.length + 8 = _
      omega⟩, rfl⟩
  | string w =>
    exact ⟨_, rfl, ⟨w, address, w.length, h, rfl, rfl, hmem, by
      show 0 + w.length + 0 = _
      omega⟩, rfl⟩

namespace ColumnReader

variable {ops : FloatOps} {mem : Mapping}

/-! ### Columns -/

/-- A reader that has the entries in front of it, of a column of `n` entries and `m`
values. -/
structure Closing (mem : Mapping) (n m : Nat) (c : ColumnReader) (entries : List Entry) :
    Prop where
  rlvl : Closes mem c.r_max (fillOf n) c.rlvl_reader (entries.map Entry.rlvl)
  dlvl : Closes mem c.d_max (fillOf n) c.dlvl_reader (entries.map Entry.dlvl)
  data : c.data_reader.Closes mem (fillOf m) (entries.filterMap Entry.value)
  defined : ∀ e ∈ entries, e.value.isSome ↔ e.dlvl = c.d_max

/-- A read takes the first entry off, and the ends of the three streams stay where they are. By
this step the condition at the start decides what happens at the end. -/
theorem Closing.readNext {n m : Nat} {c : ColumnReader} {e : Entry} {entries : List Entry}
    (h : c.Closing mem n m (e :: entries)) :
    ∃ c', c.readNext mem = .ok (e, c') ∧ c'.Closing mem n m entries := by
  obtain ⟨rlvl, dlvl, value⟩ := e
  obtain ⟨rr, hr, hrs⟩ := h.rlvl.next
  obtain ⟨dr, hd, hds⟩ := h.dlvl.next
  have hdefined : ∀ x ∈ entries, x.value.isSome ↔ x.dlvl = c.d_max := fun x hx =>
    h.defined x (List.mem_cons_of_mem _ hx)
  have hhead := h.defined _ List.mem_cons_self
  unfold ColumnReader.readNext
  rw [hr, Result.ok_bind]
  dsimp only
  rw [hd, Result.ok_bind]
  dsimp only
  -- a value is there exactly at the maximum, and only then data is taken
  cases value with
  | none =>
    have hne : dlvl ≠ c.d_max := fun heq => absurd (hhead.mpr heq) (by simp)
    have hdata : c.data_reader.Closes mem (fillOf m) (entries.filterMap Entry.value) := h.data
    rw [if_neg hne]
    exact ⟨_, rfl, hrs, hds, hdata, hdefined⟩
  | some v =>
    have heq : dlvl = c.d_max := hhead.mp rfl
    have hdata : c.data_reader.Closes mem (fillOf m) (v :: entries.filterMap Entry.value) := h.data
    obtain ⟨dr', hnext, hrest⟩ := hdata.next
    rw [if_pos heq, hnext, Result.ok_bind]
    exact ⟨_, rfl, hrs, hds, hrest, hdefined⟩

/-! ### Behind the last entry -/

/-- The class, with the maximum of its values, and the level maxima of a column of `n`
entries for which every read past the end runs into the end of a stream: the levels end
with a full block, or the values end with one, or the values are bytes of which none is
left. Bit-packed values of the maximum zero take no bits and have no end. -/
def Detected (encoding : ColumnEncoding) (max_value r_max d_max n : Nat) : Prop :=
  (n % 128 = 0 ∧ (r_max ≠ 0 ∨ d_max ≠ 0 ∨ encoding = .BOOLEAN_BITPACKED ∨
    (encoding = .UINT32_BITPACKED ∧ max_value ≠ 0))) ∨
  (d_max = 0 ∧ (encoding = .UINT64_LEB128 ∨ encoding = .STRING_PLAIN))

/-- A reader from which nothing can be read any more. -/
inductive Stuck (mem : Mapping) (c : ColumnReader) : Prop
  /-- The repetition levels have ended. -/
  | rlvl (hr : ∃ e, c.rlvl_reader.next mem = .error (.raised e))
  /-- The definition levels have ended, and the repetition levels take no bits. -/
  | dlvl (hr : c.rlvl_reader.next mem = .ok (0, c.rlvl_reader))
    (hd : ∃ e, c.dlvl_reader.next mem = .error (.raised e))
  /-- Every entry has a value, and the values have ended. -/
  | data {k : Nat} (hr : Closes mem c.r_max k c.rlvl_reader [])
    (hd : c.dlvl_reader.next mem = .ok (c.d_max, c.dlvl_reader))
    (hdata : ∃ e, exec (DataReader.fetch mem) c.data_reader = (.error (.raised e), c.data_reader))

/-- A read raises, and nothing can be read after it either: it has not moved the stream that has
ended. -/
theorem Stuck.fetchNext {c : ColumnReader} (h : Stuck mem c) :
    (∃ e, (exec (fetchNext mem) c).1 = .error (.raised e)) ∧
      Stuck mem (exec (fetchNext mem) c).2 := by
  cases h with
  | rlvl hr =>
    obtain ⟨e, hr⟩ := hr
    rw [fetchNext_rlvl_error hr]
    exact ⟨⟨e, rfl⟩, .rlvl ⟨e, hr⟩⟩
  | dlvl hr hd =>
    obtain ⟨e, hd⟩ := hd
    rw [fetchNext_dlvl_error hr hd]
    exact ⟨⟨e, rfl⟩, .dlvl hr ⟨e, hd⟩⟩
  | @data k hr hd hdata =>
    obtain ⟨e, hdata⟩ := hdata
    by_cases hmax : c.r_max = 0
    · have hzero := hr.next_zero hmax
      rw [fetchNext_datum hzero hd, hdata]
      exact ⟨⟨e, rfl⟩, .data hr hd ⟨e, hdata⟩⟩
    · cases k with
      | zero =>
        have hraise := hr.next_end hmax
        rw [fetchNext_rlvl_error hraise]
        exact ⟨⟨_, rfl⟩, .rlvl ⟨_, hraise⟩⟩
      | succ k =>
        -- the levels go on for as long as there are zeros in the block
        obtain ⟨rlvl_reader, hnext, hrest⟩ := hr.next_fill
        rw [fetchNext_datum hnext hd, hdata]
        exact ⟨⟨e, rfl⟩, .data hrest hd ⟨e, hdata⟩⟩

variable (ops) in
/-- Calls that read keep the reader stuck, and raise. By induction on the calls. -/
theorem Stuck.calls {calls : List ReaderCall} (hreads : ∀ k ∈ calls, k ≠ .nextRepetitionLevel) :
    ∀ {c : ColumnReader}, Stuck mem c → Stuck mem (afterCalls ops mem calls c) := by
  induction calls with
  | nil => exact fun h => h
  | cons k ks ih =>
    intro c h
    have hstep : Stuck mem (exec (call ops mem k) c).2 := by
      rw [exec_call ops mem (hreads k List.mem_cons_self)]
      exact h.fetchNext.2
    exact ih (fun k' hk' => hreads k' (List.mem_cons_of_mem k hk')) hstep

/-- Each call that reads raises, whatever type it asks for. The conversion comes after the read,
so it is never reached. -/
theorem Stuck.raises {c : ColumnReader} (h : Stuck mem c) {k : ReaderCall}
    (hk : k ≠ .nextRepetitionLevel) : Raises (exec (call ops mem k) c).1 := by
  obtain ⟨e, he⟩ := h.fetchNext.1
  rw [exec_call ops mem hk, he]
  exact ⟨e, rfl⟩

/-- Behind the bytes of a region that has been used up a read raises, and the reader stays
where it is. -/
theorem read_end {ptr size n : Nat} {r : BinaryMessageReader} (h : r.Left mem ptr size 0 [])
    (hn : 0 < n) :
    r.read mem n = RAISE .kBufferOverflowError "requested read exceeds message bounds" := by
  have hlength := h.length
  have hsize := h.size_eq
  rw [List.length_nil] at hlength
  unfold BinaryMessageReader.read
  rw [if_pos (by omega)]

/-- Bytes that the size of the region counts can be read, though nothing was written
there. -/
theorem read_rest {ptr size n : Nat} {r : BinaryMessageReader} (h : r.Left mem ptr size n [])
    (hmapped : ptr + size ≤ mem.length) : ∃ bytes r', r.read mem n = .ok (bytes, r') := by
  obtain ⟨rfl, rfl, -, hlength⟩ := h
  rw [List.length_nil] at hlength
  refine ⟨readAt mem (r.ptr + r.pos) n, { r with pos := r.pos + n }, ?_⟩
  unfold BinaryMessageReader.read load
  rw [if_neg (by omega), if_pos (by omega), Result.ok_bind]

/-- The data stream has ended: the class fills its last block up, which is full, or it
writes all bytes it counts. -/
theorem fetch_end {k : Nat} {d : DataReader} (h : d.Closes mem k [])
    (hend : (k = 0 ∧ (d.encoding = .BOOLEAN_BITPACKED ∨
        (d.encoding = .UINT32_BITPACKED ∧ d.maxValue ≠ 0))) ∨
      d.encoding = .UINT64_LEB128 ∨ d.encoding = .STRING_PLAIN) :
    ∃ e, exec (DataReader.fetch mem) d = (.error (.raised e), d) := by
  -- the last block has no padding, so the next one would start behind the stream
  have hpacked : ∀ {max : Nat} {r : BitPackDecoder}, k = 0 → max ≠ 0 →
      (∃ vs : List Nat, [] = vs.map Datum.unsignedInt ∧ Closes mem max k r vs) →
      r.next mem = RAISE .kBufferOverflowError "read exceeds buffer boundary" := by
    rintro max r rfl hmax ⟨vs, hvs, hcloses⟩
    rw [List.map_eq_nil_iff.mp hvs.symm] at hcloses
    exact hcloses.next_end hmax
  cases d with
  | boolean r =>
    have hfull : k = 0 := by simpa [DataReader.encoding] using hend
    have hraise := hpacked hfull (by norm_num) h
    exact ⟨_, CxxM.exec_step_error (by rw [DataReader.next_boolean, hraise]; rfl)⟩
  | bitPackedInt max_value r =>
    have hfull : k = 0 ∧ max_value ≠ 0 := by
      simpa [DataReader.encoding, DataReader.maxValue] using hend
    have hraise := hpacked hfull.1 hfull.2 h
    exact ⟨_, CxxM.exec_step_error (by rw [DataReader.next_bitPackedInt, hraise]; rfl)⟩
  | leb128 r =>
    obtain ⟨bytes, ptr, size, hcoded, hleft⟩ := h
    rw [hcoded.eq_nil] at hleft
    have hstep := CxxM.exec_step_error (f := fun r : BinaryMessageReader => r.read mem 1)
      (read_end hleft (by norm_num))
    have hrun : exec (BinaryMessageReader.varUInt mem) r = _ := CxxM.exec_bind_error hstep
    rw [DataReader.fetch_leb128, hrun]
    exact ⟨_, rfl⟩
  | string r =>
    obtain ⟨bytes, ptr, size, hcoded, hleft⟩ := h
    rw [hcoded.eq_nil] at hleft
    have hstep := CxxM.exec_step_error (f := fun r : BinaryMessageReader => r.readUInt32 mem)
      (by rw [BinaryMessageReader.readUInt32, read_end hleft (by norm_num)]; rfl)
    have hrun : exec (BinaryMessageReader.text mem) r = _ := CxxM.exec_bind_error hstep
    rw [DataReader.fetch_string, hrun]
    exact ⟨_, rfl⟩
  | _ => simp [DataReader.encoding] at hend

/-- Where an end is run into, the reader is stuck behind the last entry. Which of the streams
ends first depends on the condition. -/
theorem Closing.stuck {n m : Nat} {c : ColumnReader} (h : c.Closing mem n m [])
    (hm : c.d_max = 0 → m = n)
    (hdet : Detected c.data_reader.encoding c.data_reader.maxValue c.r_max c.d_max n) :
    Stuck mem c := by
  have hdata : c.d_max = 0 → ((fillOf m = 0 ∧ (c.data_reader.encoding = .BOOLEAN_BITPACKED ∨
      (c.data_reader.encoding = .UINT32_BITPACKED ∧ c.data_reader.maxValue ≠ 0))) ∨
      c.data_reader.encoding = .UINT64_LEB128 ∨ c.data_reader.encoding = .STRING_PLAIN) →
      Stuck mem c := by
    intro hzero hend
    refine .data h.rlvl ?_ (fetch_end h.data hend)
    rw [hzero]
    exact h.dlvl.next_zero hzero
  -- the first stream with an end raises, in the order in which they are read
  rcases hdet with ⟨hfull, hstreams⟩ | ⟨hzero, hclass⟩
  · have hfill := fillOf_eq_zero.mpr hfull
    have hrlvl := h.rlvl
    have hdlvl := h.dlvl
    rw [hfill] at hrlvl hdlvl
    by_cases hr : c.r_max = 0
    · by_cases hd : c.d_max = 0
      · refine hdata hd (Or.inl ⟨?_, ?_⟩)
        · rw [hm hd, hfill]
        · exact (hstreams.resolve_left (not_not_intro hr)).resolve_left (not_not_intro hd)
      · exact .dlvl (hrlvl.next_zero hr) ⟨_, hdlvl.next_end hd⟩
    · exact .rlvl ⟨_, hrlvl.next_end hr⟩
  · exact hdata hzero (Or.inr hclass)

/-- A bit-packed stream that has not ended delivers one more value, a zero. -/
theorem next_unended {max k : Nat} {r : BitPackDecoder} (hk : max ≠ 0 → k ≠ 0)
    (h : Closes mem max k r []) : ∃ r', r.next mem = .ok (0, r') := by
  by_cases hmax : max = 0
  · exact ⟨r, h.next_zero hmax⟩
  · obtain ⟨j, rfl⟩ := Nat.exists_eq_succ_of_ne_zero (hk hmax)
    obtain ⟨r', hnext, -⟩ := h.next_fill
    exact ⟨r', hnext⟩

variable (ops) in
/-- Where the data stream has not ended, one more value is read from it, which the class
can convert. -/
theorem fetch_fabricates {k : Nat} {d : DataReader} (h : d.Closes mem k [])
    (hpacked : k = 0 → d.encoding ≠ .BOOLEAN_BITPACKED ∧
      ¬(d.encoding = .UINT32_BITPACKED ∧ d.maxValue ≠ 0))
    (hclass : d.encoding ≠ .UINT64_LEB128 ∧ d.encoding ≠ .STRING_PLAIN) :
    ∃ v d', exec (DataReader.fetch mem) d = (.ok v, d') ∧
      ∀ r dlvl, answerOf ops d.encoding ⟨r, dlvl, some v⟩ .skipValue = .ok .skipped := by
  -- padding is decoded as zeros; the plain readers check sizes only, and read what follows
  cases d with
  | boolean r =>
    obtain ⟨vs, hvs, hcloses⟩ := h
    rw [List.map_eq_nil_iff.mp hvs.symm] at hcloses
    obtain ⟨r', hnext⟩ := next_unended (fun _ hk => (hpacked hk).1 rfl) hcloses
    exact ⟨.unsignedInt 0, .boolean r',
      CxxM.exec_step_ok (by rw [DataReader.next_boolean, hnext]; rfl),
      fun _ _ => rfl⟩
  | bitPackedInt max_value r =>
    obtain ⟨vs, hvs, hcloses⟩ := h
    rw [List.map_eq_nil_iff.mp hvs.symm] at hcloses
    obtain ⟨r', hnext⟩ := next_unended (fun hmax hk => (hpacked hk).2 ⟨rfl, hmax⟩) hcloses
    exact ⟨.unsignedInt 0, .bitPackedInt max_value r',
      CxxM.exec_step_ok (by rw [DataReader.next_bitPackedInt, hnext]; rfl), fun _ _ => rfl⟩
  | uint32 r =>
    obtain ⟨bytes, ptr, size, hmapped, hcoded, hleft⟩ := h
    rw [hcoded.eq_nil] at hleft
    obtain ⟨rest, r', hread⟩ := read_rest hleft hmapped
    exact ⟨.unsignedInt (leNat rest), .uint32 r', CxxM.exec_step_ok (by
      rw [DataReader.next_uint32, BinaryMessageReader.readUInt32, hread]; rfl), fun _ _ => rfl⟩
  | uint64 r =>
    obtain ⟨bytes, ptr, size, hmapped, hcoded, hleft⟩ := h
    rw [hcoded.eq_nil] at hleft
    obtain ⟨rest, r', hread⟩ := read_rest hleft hmapped
    exact ⟨.unsignedInt (leNat rest), .uint64 r', CxxM.exec_step_ok (by
      rw [DataReader.next_uint64, BinaryMessageReader.readUInt64, hread]; rfl), fun _ _ => rfl⟩
  | double r =>
    obtain ⟨bytes, ptr, size, hmapped, hcoded, hleft⟩ := h
    rw [hcoded.eq_nil] at hleft
    obtain ⟨rest, r', hread⟩ := read_rest hleft hmapped
    exact ⟨.float (leNat rest), .double r', CxxM.exec_step_ok (by
      rw [DataReader.next_double, BinaryMessageReader.readUInt64, hread]; rfl), fun _ _ => rfl⟩
  | leb128 r => exact absurd rfl hclass.1
  | string r => exact absurd rfl hclass.2

variable (ops) in
/-- Where no end is run into, the next read behind the last entry returns one: a null from the
zeros of a block, or a value from what the size counts too much. -/
theorem Closing.fabricates {n m : Nat} {c : ColumnReader} (h : c.Closing mem n m [])
    (hm : c.d_max = 0 → m = n)
    (hdet : ¬Detected c.data_reader.encoding c.data_reader.maxValue c.r_max c.d_max n) :
    (exec (call ops mem .skipValue) c).1 = .ok .skipped := by
  have hnot := not_or.mp hdet
  -- a level stream of some bits has zeros left, or the end of it would be detected
  obtain ⟨rlvl_reader, hr⟩ := next_unended
    (fun hmax hfill => hnot.1 ⟨fillOf_eq_zero.mp hfill, Or.inl hmax⟩) h.rlvl
  obtain ⟨dlvl_reader, hd⟩ := next_unended
    (fun hmax hfill => hnot.1 ⟨fillOf_eq_zero.mp hfill, Or.inr (Or.inl hmax)⟩) h.dlvl
  rw [exec_call ops mem (by simp)]
  dsimp only
  by_cases hmax : c.d_max = 0
  · obtain ⟨v, d', hfetch, hanswer⟩ := fetch_fabricates ops h.data
      (fun hfill => by
        rw [hm hmax] at hfill
        refine ⟨fun henc => hnot.1 ⟨fillOf_eq_zero.mp hfill, ?_⟩,
          fun henc => hnot.1 ⟨fillOf_eq_zero.mp hfill, ?_⟩⟩
        · exact Or.inr (Or.inr (Or.inl henc))
        · exact Or.inr (Or.inr (Or.inr henc)))
      ⟨fun henc => hnot.2 ⟨hmax, Or.inl henc⟩, fun henc => hnot.2 ⟨hmax, Or.inr henc⟩⟩
    rw [fetchNext_datum hr (hmax.symm ▸ hd), hfetch]
    exact hanswer _ _
  · rw [fetchNext_null hr hd (Ne.symm hmax)]
    rw [Result.ok_bind]
    cases c.data_reader.encoding <;> rfl

/-! ### Columns that were written -/

/-- Once `n` entries have been read every further read raises, whatever its type, and
however often it is tried. -/
def NeverFabricates (ops : FloatOps) (mem : Mapping) (c : ColumnReader) (n : Nat) : Prop :=
  ∀ calls, n ≤ readsOf calls → ∀ k, k ≠ .nextRepetitionLevel →
    Raises (exec (call ops mem k) (afterCalls ops mem calls c)).1

/-- The entries of the column are in front of the reader, `n` of them. Behind them the reader is
stuck, or one more entry is read. -/
theorem Closing.neverFabricates_iff {c : ColumnReader} {entries : List Entry}
    (h : c.Closing mem entries.length (entries.filterMap Entry.value).length entries)
    (hm : c.d_max = 0 → (entries.filterMap Entry.value).length = entries.length) :
    NeverFabricates ops mem c entries.length ↔
      Detected c.data_reader.encoding c.data_reader.maxValue c.r_max c.d_max entries.length := by
  have hstep : ∀ c e es,
      Closing mem entries.length (entries.filterMap Entry.value).length c (e :: es) →
      ∃ c', c.readNext mem = .ok (e, c') ∧
        c'.Closing mem entries.length (entries.filterMap Entry.value).length es :=
    fun _ _ _ => Closing.readNext
  constructor
  · -- as many calls as there are entries, and one more
    intro hnever
    by_contra hdet
    have hcalls : ∀ k ∈ List.replicate entries.length ReaderCall.skipValue,
        k ≠ .nextRepetitionLevel := fun k hk => by
      rw [List.eq_of_mem_replicate hk]
      simp
    obtain ⟨hend, henc, hmax, hr, hd⟩ := afterCalls_of_readNext ops hstep hcalls h
      (Nat.le_of_eq List.length_replicate)
    rw [List.length_replicate, List.drop_length] at hend
    have hreturns := hend.fabricates ops (hd ▸ hm) (by rwa [henc, hmax, hr, hd])
    obtain ⟨e, he⟩ := hnever (List.replicate entries.length .skipValue) (by
      unfold readsOf
      rw [List.countP_replicate]
      simp) .skipValue (by simp)
    rw [hreturns] at he
    cases he
  · intro hdet calls hcount k hk
    -- the run without the peeks, up to the last entry and beyond
    have halike := (PeekedAlike.transcript ops calls (rfl : PeekedAlike mem c c)).2
    rw [(halike.call ops k).1]
    have hreads := reads_filter calls
    rw [← length_filter_reads] at hcount
    generalize calls.filter (· ≠ ReaderCall.nextRepetitionLevel) = reads at hreads hcount
    have htake : (reads.take entries.length).length = entries.length :=
      List.length_take_of_le hcount
    obtain ⟨hend, henc, hmax, hr, hd⟩ := afterCalls_of_readNext ops hstep
      (fun k hk => hreads k (List.mem_of_mem_take hk)) h (Nat.le_of_eq htake)
    rw [htake, List.drop_length] at hend
    have hstuck := hend.stuck (hd ▸ hm) (by rwa [henc, hmax, hr, hd])
    have hrest := Stuck.calls ops
      (fun k hk => hreads k (List.mem_of_mem_drop (i := entries.length) hk)) hstuck
    have hsplit : afterCalls ops mem (reads.drop entries.length)
        (afterCalls ops mem (reads.take entries.length) c) = afterCalls ops mem reads c := by
      rw [afterCalls, afterCalls, ← List.foldl_append, List.take_append_drop]
      rfl
    rw [hsplit] at hrest
    exact hrest.raises hk

end ColumnReader

/-- No call changes the maximum of a bit-packed column. It is set when the writer is created. -/
theorem DataWriter.defaultMax_addDatum {dw dw' : DataWriter} {data : Bytes}
    (h : dw.addDatum data = .ok dw') (hmax : dw.DefaultMax) : dw'.DefaultMax := by
  cases dw
  case string w =>
    cases h
    trivial
  all_goals
    dsimp only [addDatum] at h
    split_ifs at h <;> cases h <;> exact hmax

/-- Nor does a run of calls. -/
theorem ColumnWriter.defaultMax_callAll (calls : List WriteCall) : ∀ w : ColumnWriter,
    w.data_writer.DefaultMax → (w.callAll calls).1.data_writer.DefaultMax := by
  induction calls with
  | nil => exact fun _ h => h
  | cons c calls ih =>
    intro w hmax
    rw [callAll]
    cases hcall : w.call c with
    | error e => exact ih w hmax
    | ok w' =>
      refine ih w' ?_
      unfold call at hcall
      split at hcall
      · cases hcall
        exact hmax
      · obtain ⟨dw, hdw, hret⟩ := Result.bind_eq_ok.mp hcall
        cases hret
        exact DataWriter.defaultMax_addDatum hdw hmax

/-- Nor does any sequence of them change the maximum a class was given. -/
theorem ColumnWriter.maxValue_callAll (calls : List WriteCall) : ∀ w : ColumnWriter,
    (w.callAll calls).1.data_writer.maxValue = w.data_writer.maxValue := by
  induction calls with
  | nil => exact fun _ => rfl
  | cons c calls ih =>
    intro w
    rw [callAll]
    cases hcall : w.call c with
    | error e => exact ih w
    | ok w' => exact (ih w').trans (storedDatum_call hcall).2

/-- A reader over the body of a committed column, with all bytes the column counts in the
mapping. -/
theorem ColumnWriter.Records.closing {w : ColumnWriter} {entries : List Entry}
    (h : w.Records entries) (hr_max : w.r_max < 2 ^ 32) (hd_max : w.d_max < 2 ^ 32)
    (hcount : entries.length < 2 ^ 64) {mem : Mapping} {address : Nat}
    (hmem : HoldsAt mem address w.commit.body) (hsize : w.commit.bodySize < 2 ^ 64)
    (hmapped : address + w.commit.bodySize ≤ mem.length) :
    ∃ r, ColumnReader.new mem w.data_writer.encoding w.r_max w.d_max address w.commit.bodySize =
        .ok r ∧
      r.Closing mem entries.length (entries.filterMap Entry.value).length entries ∧
      r.data_reader.maxValue = w.data_writer.maxValue := by
  have hnum : w.commit.num_vals = entries.length := h.num_vals
  have hdata : w.commit.data_writer.size < 2 ^ 64 := by
    unfold ColumnWriter.bodySize at hsize
    omega
  obtain ⟨hrmem, hdmem, hvmem⟩ := ColumnWriter.holdsAt_body hmem
  obtain ⟨dr, hdr, hcloses, hmax⟩ := h.data.closes hvmem hdata (by
    unfold ColumnWriter.bodySize at hmapped
    show _ + w.commit.data_writer.size ≤ _
    omega)
  rw [ColumnReader.new_body _ _ _ (hnum ▸ hcount) hsize hmem]
  refine ⟨_, (congrArg (· >>= _) hdr).trans rfl, ⟨?_, ?_, hcloses, h.defined⟩, hmax⟩
  · have hrlvl := closes_new h.rlvl h.rlvl_bits hr_max hrmem
    rwa [List.length_map] at hrlvl
  · have hdlvl := closes_new h.dlvl h.dlvl_bits hd_max hdmem
    rwa [List.length_map] at hdlvl

/-- The maximum matters to the bit-packed class alone. For the other classes it may be any
number. -/
theorem ColumnReader.detected_congr {encoding : ColumnEncoding} {m m' r_max d_max n : Nat}
    (h : encoding = .UINT32_BITPACKED → m = m') :
    Detected encoding m r_max d_max n ↔ Detected encoding m' r_max d_max n := by
  have hclass : (encoding = .UINT32_BITPACKED ∧ m ≠ 0) ↔
      (encoding = .UINT32_BITPACKED ∧ m' ≠ 0) := by
    refine and_congr_right fun hpacked => ?_
    rw [h hpacked]
  unfold Detected
  rw [hclass]

/-- A column that was written, read to its end. The condition is on the column only: its class,
its maxima and the number of its entries. -/
theorem written_neverFabricates_iff (ops : FloatOps) (encoding : ColumnEncoding) (type : UInt8)
    (max_value r_max d_max : Nat) (calls : List WriteCall) (entries : List Entry)
    (hmax : max_value < 2 ^ 32) (hr : r_max < 2 ^ 32) (hd : d_max < 2 ^ 32)
    (hentries : List.Forall₂ (fun call e => entryIn
      (ColumnWriter.dataWriterOf encoding type max_value) r_max d_max call = some e) calls entries)
    (w : ColumnWriter) (hw : ((ColumnWriter.new r_max d_max
      (ColumnWriter.dataWriterOf encoding type max_value)).callAll calls).1.commit = w)
    (hcount : entries.length < 2 ^ 64) (hsize : w.bodySize < 2 ^ 64)
    (mem : Mapping) (address : Nat) (hmem : HoldsAt mem address w.body)
    (hmapped : address + w.bodySize ≤ mem.length) :
    ∃ c, ColumnReader.new mem encoding r_max d_max address w.bodySize = .ok c ∧
      (c.NeverFabricates ops mem entries.length ↔
        ColumnReader.Detected encoding max_value r_max d_max entries.length) := by
  subst hw
  have hfresh := ColumnWriter.records_of_stores
    (DataWriter.stores_dataWriterOf encoding type hmax) hr hd
  have hclass := (ColumnWriter.encoding_callAll calls (ColumnWriter.new r_max d_max
    (ColumnWriter.dataWriterOf encoding type max_value))).trans
      (DataWriter.encoding_dataWriterOf encoding type max_value)
  have hkept := ColumnWriter.maxValue_callAll calls (ColumnWriter.new r_max d_max
    (ColumnWriter.dataWriterOf encoding type max_value))
  obtain ⟨hrecords, hrm, hdm, -⟩ := hfresh.callAll_in hr hd hentries
  rw [List.nil_append] at hrecords
  obtain ⟨c, hopen, hclosing, hcmax⟩ :=
    hrecords.closing (hrm ▸ hr) (hdm ▸ hd) hcount hmem hsize hmapped
  rw [hclass, hrm, hdm] at hopen
  obtain ⟨henc, hcr, hcd⟩ := ColumnReader.new_spec hopen
  have hcr : c.r_max = r_max := hcr
  have hcd : c.d_max = d_max := hcd
  have hmaxValue : encoding = .UINT32_BITPACKED → c.data_reader.maxValue = max_value := by
    rintro rfl
    exact hcmax.trans hkept
  refine ⟨c, hopen, ?_⟩
  rw [← ColumnReader.detected_congr hmaxValue, ← henc, ← hcr, ← hcd]
  refine hclosing.neverFabricates_iff fun hzero => List.filterMap_length_eq_length.mpr ?_
  -- without definition levels there are no nulls
  intro e he
  obtain ⟨call, -, hcall⟩ := exists_of_mem_right hentries he
  rcases (ColumnWriter.writes_of_entryIn (w := ColumnWriter.new r_max d_max
    (ColumnWriter.dataWriterOf encoding type max_value)) hcall).2 with
    ⟨-, hlt, -⟩ | ⟨-, -, -, rfl⟩
  · have hlt : call.dlvl < d_max := hlt
    rw [← hcd, hzero] at hlt
    exact absurd hlt (Nat.not_lt_zero _)
  · rfl

end v1

/-! ### Records past the last one -/

namespace RecordMaterializer

open v1.ColumnReader (Answer ReaderCall call fetchAs fetchAs_extends)

/-- A read function of the abstract class raises where the call does. The materializer reads
through these functions. -/
theorem raises_readAs {α : Type} {mem : Mapping} {c : v1.ColumnReader}
    {convert : ColumnEncoding → v1.Datum → Result α} {default : α} {g : v1.View α → Answer}
    (h : Raises (exec (g <$> fetchAs mem convert default) c).1) :
    Raises (c.readAs mem convert default) := by
  obtain ⟨e, he⟩ := h
  rw [CxxM.exec_map] at he
  cases hread : c.readAs mem convert default with
  | ok p =>
    rw [(fetchAs_extends mem convert default).ok c p.1 p.2 hread] at he
    cases he
  | error e' =>
    have herr := (fetchAs_extends mem convert default).error c e' hread
    dsimp only at he
    rw [herr] at he
    cases he
    exact ⟨e, rfl⟩

/-- A sequence raises where its first step does. -/
theorem raises_bind {α β : Type} {x : Result α} {f : α → Result β} (h : Raises x) :
    Raises (x >>= f) := by
  obtain ⟨e, rfl⟩ := h
  exact ⟨e, rfl⟩

/-- A column whose reads raise does not get an entry to hold. So the materializer has nothing to
insert. -/
theorem fetchIfNotPending_raises {column : ColumnState MappedColumn}
    (hpending : column.pending = false)
    (hreads : ∀ k, k ≠ .nextRepetitionLevel →
      Raises (exec (call column.reader.ops column.reader.mem k) column.reader.reader).1) :
    Raises column.fetchIfNotPending := by
  have hstring : Raises (AbstractColumnReader.readString column.reader) :=
    raises_bind (raises_readAs (hreads .readString (by simp)))
  have hsigned : Raises (AbstractColumnReader.readSignedInt column.reader) :=
    raises_bind (raises_readAs (hreads .readSignedInt (by simp)))
  have hfloat : Raises (AbstractColumnReader.readFloat column.reader) :=
    raises_bind (raises_readAs (hreads .readFloat (by simp)))
  have hunsigned : Raises (AbstractColumnReader.readUnsignedInt column.reader) :=
    raises_bind (raises_readAs (hreads .readUnsignedInt (by simp)))
  unfold ColumnState.fetchIfNotPending
  rw [if_neg (by rw [hpending]; exact Bool.false_ne_true)]
  cases column.col_type with
  | SUBRECORD => exact ⟨_, rfl⟩
  | STRING => exact raises_bind hstring
  | SIGNED_INT => exact raises_bind hsigned
  | FLOAT => exact raises_bind hfloat
  | _ => exact raises_bind hunsigned

/-- The column has been read to its end or beyond, and no read past the end of it returns
an entry. -/
def PastEnd (column : ColumnState MappedColumn) : Prop :=
  column.pending = false ∧ ∃ (c : v1.ColumnReader) (n : Nat) (calls : List ReaderCall),
    c.NeverFabricates column.reader.ops column.reader.mem n ∧ n ≤ v1.ColumnReader.readsOf calls ∧
    column.reader.reader = c.afterCalls column.reader.ops column.reader.mem calls

/-- Past the last record `nextRecord` raises, at the first column it comes to. -/
theorem nextRecord_raises {ops : DoubleOps} {fuel : Nat} {m : RecordMaterializer MappedColumn}
    {record : MessageObject} (hne : m.columns_ ≠ []) (hcolumns : ∀ p ∈ m.columns_, PastEnd p.2) :
    Raises (nextRecord ops (fuel + 1) m record) := by
  obtain ⟨columns⟩ := m
  obtain ⟨⟨name, column⟩, rest, rfl⟩ := List.exists_cons_of_ne_nil hne
  obtain ⟨hpending, c, n, calls, hnever, hcount, hreader⟩ :=
    hcolumns (name, column) List.mem_cons_self
  have hfetch : Raises column.fetchIfNotPending := fetchIfNotPending_raises hpending
    fun k hk => by
      rw [hreader]
      exact hnever calls hcount k hk
  exact raises_bind (raises_bind (raises_bind hfetch))

end RecordMaterializer

/-! ### Both -/

end CStable
