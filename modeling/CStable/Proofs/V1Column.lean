import CStable.Columns.V1.Writer
import CStable.Proofs.BitStream
import CStable.Proofs.ReaderClasses

/-!
# `CStable.Proofs.V1Column`: a v0.1.0 column reads back what was written

A column writer that was given entries through the function of its class
(`entryOf`) holds them (`ColumnWriter.Records`), and a reader over the body it
writes delivers them in order (`ColumnReader.ReadsExactly`): levels, values and
the end of the column.

The data streams are treated class by class (`DataWriter.Stores`,
`DataReader.Reads`), the level streams by `Proofs.BitStream`.
-/

set_option autoImplicit false

namespace CStable

open Support

/-! ### Reading from memory -/

namespace BinaryMessageReader

/-- The reader is at these bytes of its region, and some more bytes of the region are
behind them. -/
structure Left (mem : Mapping) (ptr size rest : Nat) (r : BinaryMessageReader) (bytes : Bytes) :
    Prop where
  ptr_eq : r.ptr = ptr
  size_eq : r.size = size
  holds : HoldsAt mem (ptr + r.pos) bytes
  length : r.pos + bytes.length + rest = size

section

variable {mem : Mapping} {ptr size rest : Nat} {r : BinaryMessageReader}

/-- The bytes in front are read, and what is behind them is left. The mapping holds all of them,
so the bounds check passes. -/
theorem Left.read {xs ys : Bytes} (h : r.Left mem ptr size rest (xs ++ ys)) :
    ∃ r', r.read mem xs.length = .ok (xs, r') ∧ r'.Left mem ptr size rest ys := by
  obtain ⟨rfl, rfl, hmem, hsize⟩ := h
  rw [List.length_append] at hsize
  refine ⟨{ r with pos := r.pos + xs.length }, ?_, rfl, rfl, ?_, ?_⟩
  · unfold BinaryMessageReader.read
    rw [if_neg (by omega), hmem.left.load, Result.ok_bind]
  · have hright := hmem.right
    rwa [Nat.add_assoc] at hright
  · show r.pos + xs.length + ys.length + rest = r.size
    omega

/-- A number of four bytes in front is read with its value. The region is stated with the bytes,
since the reader checks its size and not the memory. -/
theorem Left.readUInt32 {v : Nat} {ys : Bytes}
    (h : r.Left mem ptr size rest (appendUInt32 v ++ ys)) (hv : v < 2 ^ 32) :
    ∃ r', r.readUInt32 mem = .ok (v, r') ∧ r'.Left mem ptr size rest ys := by
  obtain ⟨r', hread, hrest⟩ := h.read
  rw [length_appendUInt32] at hread
  refine ⟨r', ?_, hrest⟩
  unfold BinaryMessageReader.readUInt32
  rw [hread, Result.ok_bind]
  dsimp only
  rw [appendUInt32, leNat_leBytes_of_lt hv]

/-- A number of eight bytes in front is read with its value. -/
theorem Left.readUInt64 {v : Nat} {ys : Bytes}
    (h : r.Left mem ptr size rest (appendUInt64 v ++ ys)) (hv : v < 2 ^ 64) :
    ∃ r', r.readUInt64 mem = .ok (v, r') ∧ r'.Left mem ptr size rest ys := by
  obtain ⟨r', hread, hrest⟩ := h.read
  rw [length_appendUInt64] at hread
  refine ⟨r', ?_, hrest⟩
  unfold BinaryMessageReader.readUInt64
  rw [hread, Result.ok_bind]
  dsimp only
  rw [appendUInt64, leNat_leBytes_of_lt hv]

/-- The loop over a region does what the decoder of the number does, byte by byte. The count of
bytes that are left pays for the rounds. -/
theorem Left.readVarUIntFrom {bytes ys : Bytes} {eof : Abort} {v : Nat} :
    ∀ {fuel i acc : Nat} {r : BinaryMessageReader}, r.Left mem ptr size rest bytes →
      bytes.length ≤ fuel → Leb128.decodeFrom 64 eof i acc bytes = .ok (v, ys) →
      ∃ r', readVarUIntFrom mem fuel i acc r = .ok (v, r') ∧ r'.Left mem ptr size rest ys := by
  induction bytes with
  | nil =>
    intro fuel i acc r _ _ hdec
    cases hdec
  | cons b bytes ih =>
    intro fuel i acc r hleft hfuel hdec
    have hbyte : r.Left mem ptr size rest ([b] ++ bytes) := hleft
    obtain ⟨r₁, hread, hrest⟩ := hbyte.read
    cases fuel with
    | zero => exact absurd hfuel (Nat.not_succ_le_zero _)
    | succ fuel =>
      rw [List.length_cons, Nat.succ_le_succ_iff] at hfuel
      have hb : leNat [b] = b.toNat := by
        simp [leNat]
      unfold Leb128.decodeFrom at hdec
      unfold BinaryMessageReader.readVarUIntFrom
      rw [List.length_singleton] at hread
      rw [hread, Result.ok_bind]
      dsimp only at hdec ⊢
      rw [hb]
      -- the high bit says that another byte follows
      by_cases hlast : b.toNat &&& 0x80 = 0
      · rw [if_pos hlast] at hdec ⊢
        cases hdec
        exact ⟨r₁, rfl, hrest⟩
      · rw [if_neg hlast] at hdec ⊢
        exact ih hrest hfuel hdec

/-- A LEB128 number in front is read with its value. How many bytes it takes is known only from
the bytes themselves. -/
theorem Left.readVarUInt {v : Nat} {ys : Bytes}
    (h : r.Left mem ptr size rest (appendVarUInt v ++ ys)) (hv : v < 2 ^ 64) :
    ∃ r', r.readVarUInt mem = .ok (v, r') ∧ r'.Left mem ptr size rest ys := by
  have hdec : Leb128.decodeFrom 64 kUnexpectedEnd 0 0 (appendVarUInt v ++ ys) = .ok (v, ys) :=
    parses_readVarUInt hv ys
  refine h.readVarUIntFrom ?_ hdec
  have hlength := h.length
  rw [← h.size_eq] at hlength
  omega

end

/-- The next bytes of the region. -/
def Ahead (mem : Mapping) (r : BinaryMessageReader) (bytes : Bytes) : Prop :=
  HoldsAt mem (r.ptr + r.pos) bytes ∧ r.pos + bytes.length ≤ r.size

/-- A reader that has bytes ahead of it has them left of its region, with some rest behind. So
the lemmas on regions apply to it. -/
theorem Ahead.left {mem : Mapping} {r : BinaryMessageReader} {bytes : Bytes}
    (h : r.Ahead mem bytes) : ∃ rest, r.Left mem r.ptr r.size rest bytes :=
  ⟨r.size - (r.pos + bytes.length), rfl, rfl, h.1, Nat.add_sub_of_le h.2⟩

/-- And the other way around, where the rest does not matter. -/
theorem Left.ahead {mem : Mapping} {ptr size rest : Nat} {r : BinaryMessageReader} {bytes : Bytes}
    (h : r.Left mem ptr size rest bytes) : r.Ahead mem bytes := by
  obtain ⟨rfl, rfl, hmem, hsize⟩ := h
  exact ⟨hmem, by omega⟩

/-- The bytes ahead of a reader are read, whatever is behind them. Most proofs need no more than
this, and do not name the region. -/
theorem Ahead.read {mem : Mapping} {r : BinaryMessageReader} {xs ys : Bytes}
    (h : r.Ahead mem (xs ++ ys)) :
    ∃ r', r.read mem xs.length = .ok (xs, r') ∧ r'.Ahead mem ys := by
  obtain ⟨rest, hleft⟩ := h.left
  obtain ⟨r', hread, hleft'⟩ := hleft.read
  exact ⟨r', hread, hleft'.ahead⟩

/-- A number of four bytes ahead is read with its value. -/
theorem Ahead.readUInt32 {mem : Mapping} {r : BinaryMessageReader} {v : Nat} {ys : Bytes}
    (h : r.Ahead mem (appendUInt32 v ++ ys)) (hv : v < 2 ^ 32) :
    ∃ r', r.readUInt32 mem = .ok (v, r') ∧ r'.Ahead mem ys := by
  obtain ⟨rest, hleft⟩ := h.left
  obtain ⟨r', hread, hleft'⟩ := hleft.readUInt32 hv
  exact ⟨r', hread, hleft'.ahead⟩

/-- A number of eight bytes ahead is read with its value. -/
theorem Ahead.readUInt64 {mem : Mapping} {r : BinaryMessageReader} {v : Nat} {ys : Bytes}
    (h : r.Ahead mem (appendUInt64 v ++ ys)) (hv : v < 2 ^ 64) :
    ∃ r', r.readUInt64 mem = .ok (v, r') ∧ r'.Ahead mem ys := by
  obtain ⟨rest, hleft⟩ := h.left
  obtain ⟨r', hread, hleft'⟩ := hleft.readUInt64 hv
  exact ⟨r', hread, hleft'.ahead⟩

/-- A LEB128 number ahead is read with its value. -/
theorem Ahead.readVarUInt {mem : Mapping} {r : BinaryMessageReader} {v : Nat} {ys : Bytes}
    (h : r.Ahead mem (appendVarUInt v ++ ys)) (hv : v < 2 ^ 64) :
    ∃ r', r.readVarUInt mem = .ok (v, r') ∧ r'.Ahead mem ys := by
  obtain ⟨rest, hleft⟩ := h.left
  obtain ⟨r', hread, hleft'⟩ := hleft.readVarUInt hv
  exact ⟨r', hread, hleft'.ahead⟩

end BinaryMessageReader

namespace v1

/-! ### Data streams -/

/-- The value the class of a storage type reads back for the argument of its own
write function; none for the other functions and for a value that does not fit. -/
def nativeDatum : ColumnEncoding → WriteArg → Option Datum
  | .BOOLEAN_BITPACKED, .boolean value => some (.unsignedInt (if value then 1 else 0))
  | .UINT32_BITPACKED, .unsignedInt value =>
    if value.toNat < 2 ^ 32 then some (.unsignedInt value.toNat) else none
  | .UINT32_PLAIN, .unsignedInt value =>
    if value.toNat < 2 ^ 32 then some (.unsignedInt value.toNat) else none
  | .UINT64_PLAIN, .unsignedInt value => some (.unsignedInt value.toNat)
  | .UINT64_LEB128, .unsignedInt value => some (.unsignedInt value.toNat)
  | .FLOAT_IEEE754, .float value => some (.float value.toNat)
  | .STRING_PLAIN, .string value =>
    if value.length < 2 ^ 32 then some (.string value) else none
  | _, _ => none

/-- The values of `nativeDatum`, a case for each class. Proofs about a value that is stored split
by it, so that the classes that refuse the argument do not come up. -/
inductive NativeValue : ColumnEncoding → WriteArg → Datum → Prop where
  | boolean (value : Bool) :
    NativeValue .BOOLEAN_BITPACKED (.boolean value) (.unsignedInt (if value then 1 else 0))
  | bitPackedInt {value : UInt64} (hlt : value.toNat < 2 ^ 32) :
    NativeValue .UINT32_BITPACKED (.unsignedInt value) (.unsignedInt value.toNat)
  | uint32 {value : UInt64} (hlt : value.toNat < 2 ^ 32) :
    NativeValue .UINT32_PLAIN (.unsignedInt value) (.unsignedInt value.toNat)
  | uint64 (value : UInt64) :
    NativeValue .UINT64_PLAIN (.unsignedInt value) (.unsignedInt value.toNat)
  | leb128 (value : UInt64) :
    NativeValue .UINT64_LEB128 (.unsignedInt value) (.unsignedInt value.toNat)
  | double (value : UInt64) : NativeValue .FLOAT_IEEE754 (.float value) (.float value.toNat)
  | string {value : Bytes} (hlt : value.length < 2 ^ 32) :
    NativeValue .STRING_PLAIN (.string value) (.string value)

/-- A value that a class has for an argument is the one of its case. -/
theorem nativeValue_of_nativeDatum {encoding : ColumnEncoding} {arg : WriteArg} {v : Datum}
    (h : nativeDatum encoding arg = some v) : NativeValue encoding arg v := by
  unfold nativeDatum at h
  split at h
  · cases h
    exact .boolean _
  · obtain ⟨hlt, hv⟩ := Option.ite_none_right_eq_some.mp h
    cases hv
    exact .bitPackedInt hlt
  · obtain ⟨hlt, hv⟩ := Option.ite_none_right_eq_some.mp h
    cases hv
    exact .uint32 hlt
  · cases h
    exact .uint64 _
  · cases h
    exact .leb128 _
  · cases h
    exact .double _
  · obtain ⟨hlt, hv⟩ := Option.ite_none_right_eq_some.mp h
    cases hv
    exact .string hlt
  · cases h

/-- A string as the string columns store it. -/
def stringBytes (value : Bytes) : Bytes := appendUInt32 value.length ++ value

/-- The bytes are the values of the data, each in its own encoding. -/
def Coded {α : Type} (toDatum : α → Datum) (Fits : α → Prop) (encode : α → Bytes)
    (data : List Datum) (bytes : Bytes) : Prop :=
  ∃ vs : List α, data = vs.map toDatum ∧ (∀ v ∈ vs, Fits v) ∧ bytes = vs.flatMap encode

namespace Coded

variable {α : Type} {toDatum : α → Datum} {Fits : α → Prop} {encode : α → Bytes}
  {data : List Datum} {bytes : Bytes}

/-- No bytes are no values. -/
theorem nil : Coded toDatum Fits encode [] [] :=
  ⟨[], rfl, fun _ hv => absurd hv List.not_mem_nil, rfl⟩

/-- A class appends a value to its bytes, so the values of a stream grow at the end. This is the
step of the induction over the calls. -/
theorem snoc (h : Coded toDatum Fits encode data bytes) {v : α} (hv : Fits v) :
    Coded toDatum Fits encode (data ++ [toDatum v]) (bytes ++ encode v) := by
  obtain ⟨vs, rfl, hvs, rfl⟩ := h
  refine ⟨vs ++ [v], by rw [List.map_append, List.map_singleton], fun x hx => ?_, ?_⟩
  · rcases List.mem_append.mp hx with hold | hnew
    · exact hvs x hold
    · rw [List.mem_singleton] at hnew
      exact hnew ▸ hv
  · rw [List.flatMap_append, List.flatMap_singleton]

/-- The first value is at the front of the bytes. A reader takes it off and finds the others
coded in the rest. -/
theorem cons {datum : Datum} (h : Coded toDatum Fits encode (datum :: data) bytes) :
    ∃ v rest, datum = toDatum v ∧ Fits v ∧ bytes = encode v ++ rest ∧
      Coded toDatum Fits encode data rest := by
  obtain ⟨vs, hdata, hvs, rfl⟩ := h
  cases vs with
  | nil => cases hdata
  | cons v vs =>
    obtain ⟨hhead, htail⟩ := List.cons.inj hdata
    exact ⟨v, vs.flatMap encode, hhead, hvs v List.mem_cons_self, List.flatMap_cons,
      vs, htail, fun x hx => hvs x (List.mem_cons_of_mem v hx), rfl⟩

end Coded

/-- The values a data writer has been given. -/
def DataWriter.Stores : DataWriter → List Datum → Prop
  | boolean e, data =>
    e.maxbits = 1 ∧ ∃ vs : List Nat, data = vs.map .unsignedInt ∧ e.Encodes vs
  | bitPackedInt max_value e, data =>
    max_value < 2 ^ 32 ∧ e.maxbits = bits max_value ∧
      ∃ vs : List Nat, data = vs.map .unsignedInt ∧ e.Encodes vs
  | uint32 _ w, data => Coded .unsignedInt (· < 2 ^ 32) appendUInt32 data w
  | uint64 _ w, data => Coded .unsignedInt (· < 2 ^ 64) appendUInt64 data w
  | leb128 _ w, data => Coded .unsignedInt (· < 2 ^ 64) appendVarUInt data w
  | double w, data => Coded .float (· < 2 ^ 64) appendUInt64 data w
  | string w, data => Coded .string (·.length < 2 ^ 32) stringBytes data w

/-- The values a data reader still has to deliver. -/
def DataReader.Reads (mem : Mapping) : DataReader → List Datum → Prop
  | boolean d, data => ∃ vs : List Nat, data = vs.map .unsignedInt ∧ d.Decodes mem vs
  | bitPackedInt _ d, data => ∃ vs : List Nat, data = vs.map .unsignedInt ∧ d.Decodes mem vs
  | uint32 r, data =>
    ∃ bytes, Coded .unsignedInt (· < 2 ^ 32) appendUInt32 data bytes ∧ r.Ahead mem bytes
  | uint64 r, data =>
    ∃ bytes, Coded .unsignedInt (· < 2 ^ 64) appendUInt64 data bytes ∧ r.Ahead mem bytes
  | leb128 r, data =>
    ∃ bytes, Coded .unsignedInt (· < 2 ^ 64) appendVarUInt data bytes ∧ r.Ahead mem bytes
  | double r, data =>
    ∃ bytes, Coded .float (· < 2 ^ 64) appendUInt64 data bytes ∧ r.Ahead mem bytes
  | string r, data =>
    ∃ bytes, Coded .string (·.length < 2 ^ 32) stringBytes data bytes ∧ r.Ahead mem bytes

/-- A bit-packed stream for a given maximum. The maximum is a `uint32_t`, so its values have 32
bits at most. -/
theorem DataWriter.stores_bitPackedInt {max_value : Nat} (h : max_value < 2 ^ 32) :
    (DataWriter.bitPackedInt max_value (BitPackEncoder.new max_value)).Stores [] :=
  ⟨h, congrArg bits (Nat.mod_eq_of_lt h), [], rfl, BitPackEncoder.encodes_new _⟩

/-- The writer that `createFile` makes for an encoding stores nothing yet. The invariant of a
run starts here. -/
theorem DataWriter.stores_new (encoding : ColumnEncoding) (type : UInt8) :
    (ColumnWriter.newDataWriter encoding type).Stores [] := by
  cases encoding with
  | BOOLEAN_BITPACKED => exact ⟨rfl, [], rfl, BitPackEncoder.encodes_new 1⟩
  | UINT32_BITPACKED => exact stores_bitPackedInt (by norm_num)
  | UINT32_PLAIN => exact Coded.nil
  | UINT64_PLAIN => exact Coded.nil
  | UINT64_LEB128 => exact Coded.nil
  | FLOAT_IEEE754 => exact Coded.nil
  | STRING_PLAIN => exact Coded.nil

/-- It is one of the class of the encoding. -/
theorem DataWriter.encoding_new (encoding : ColumnEncoding) (type : UInt8) :
    (ColumnWriter.newDataWriter encoding type).encoding = encoding := by
  cases encoding <;> rfl

/-- The same for a class that was given a maximum, as a program that makes its own writer
can. -/
theorem DataWriter.stores_dataWriterOf (encoding : ColumnEncoding) (type : UInt8)
    {max_value : Nat} (h : max_value < 2 ^ 32) :
    (ColumnWriter.dataWriterOf encoding type max_value).Stores [] := by
  by_cases hclass : encoding = .UINT32_BITPACKED
  · rw [hclass]
    exact stores_bitPackedInt h
  · have hnew : ColumnWriter.dataWriterOf encoding type max_value =
        ColumnWriter.newDataWriter encoding type := by
      cases encoding <;> first | rfl | exact absurd rfl hclass
    rw [hnew]
    exact stores_new encoding type

/-- The maximum does not change the class. Only the bit-packed one looks at it. -/
theorem DataWriter.encoding_dataWriterOf (encoding : ColumnEncoding) (type : UInt8)
    (max_value : Nat) :
    (ColumnWriter.dataWriterOf encoding type max_value).encoding = encoding := by
  cases encoding <;> rfl

/-- The values of a bit-packed stream, with one more. It has to fit the bits of the maximum,
because the packing masks the others. -/
theorem encodes_snoc {e : BitPackEncoder} {data : List Datum} {v : Nat}
    (h : ∃ vs : List Nat, data = vs.map .unsignedInt ∧ e.Encodes vs) (hbits : e.maxbits ≤ 32)
    (hv : v < 2 ^ e.maxbits) :
    ∃ vs : List Nat, data ++ [.unsignedInt v] = vs.map .unsignedInt ∧ (e.encode v).Encodes vs := by
  obtain ⟨vs, rfl, henc⟩ := h
  exact ⟨vs ++ [v], by rw [List.map_append, List.map_singleton], henc.encode hbits hv⟩

/-- The value a class stores for a memory region; none for a region it refuses
and for a value that does not fit. -/
def DataWriter.storedDatum : DataWriter → Bytes → Option Datum
  | boolean _, data =>
    if data.length = 8 then some (.unsignedInt (if leNat data > 0 then 1 else 0)) else none
  | bitPackedInt max_value _, data =>
    if data.length = 8 ∧ leNat data < 2 ^ bits max_value then some (.unsignedInt (leNat data))
    else none
  | uint32 _ _, data =>
    if data.length = 8 ∧ leNat data < 2 ^ 32 then some (.unsignedInt (leNat data)) else none
  | uint64 _ _, data => if data.length = 8 then some (.unsignedInt (leNat data)) else none
  | leb128 _ _, data => if data.length = 8 then some (.unsignedInt (leNat data)) else none
  | double _, data => if data.length = 8 then some (.float (leNat data)) else none
  | string _, data => if data.length < 2 ^ 32 then some (.string data) else none

/-- The maximum of a bit-packed column is the default one. -/
def DataWriter.DefaultMax : DataWriter → Prop
  | bitPackedInt max_value _ => max_value = 0xffffffff
  | _ => True

/-- The writers of `createFile` have the default maximum, of 32 bits. -/
theorem DataWriter.defaultMax_new (encoding : ColumnEncoding) (type : UInt8) :
    (ColumnWriter.newDataWriter encoding type).DefaultMax := by
  cases encoding with
  | UINT32_BITPACKED => rfl
  | _ => trivial

/-- A call changes neither the maximum of a class nor the values it stores, so that a condition
on later calls can be stated at the beginning. -/
theorem DataWriter.storedDatum_addDatum {dw dw' : DataWriter} {data : Bytes}
    (h : dw.addDatum data = .ok dw') :
    dw'.storedDatum = dw.storedDatum ∧ dw'.maxValue = dw.maxValue := by
  cases dw
  case string w =>
    cases h
    exact ⟨rfl, rfl⟩
  all_goals
    dsimp only [DataWriter.addDatum] at h
    split_ifs at h <;> cases h <;> exact ⟨rfl, rfl⟩

/-- A value that fits is stored behind the others. This is the step lemma of the writers, with
one case for each class. -/
theorem DataWriter.Stores.addDatum {dw : DataWriter} {data : List Datum} {bytes : Bytes}
    {v : Datum} (h : dw.Stores data) (hv : dw.storedDatum bytes = some v) :
    ∃ dw', dw.addDatum bytes = .ok dw' ∧ dw'.Stores (data ++ [v]) ∧
      dw'.encoding = dw.encoding ∧ (dw.DefaultMax → dw'.DefaultMax) := by
  -- `addDatum` takes the bytes that `copyValue` hands on: eight of them for every number
  have h64 : bytes.length = 8 → leNat bytes < 2 ^ 64 := by
    intro hlen
    have hlt := leNat_lt bytes
    rwa [hlen] at hlt
  cases dw with
  | boolean e =>
    obtain ⟨hbits, hvs⟩ := h
    obtain ⟨hlen, hval⟩ := Option.ite_none_right_eq_some.mp hv
    cases hval
    refine ⟨.boolean (e.encode (if leNat bytes > 0 then 1 else 0)), ?_, ⟨?_, ?_⟩, rfl, fun h => h⟩
    · rw [DataWriter.addDatum, if_neg (by omega), if_pos (Or.inr (Or.inr hlen))]
    · rw [BitPackEncoder.maxbits_encode, hbits]
    · refine encodes_snoc hvs (by omega) ?_
      rw [hbits]
      split_ifs <;> norm_num
  | bitPackedInt max_value e =>
    obtain ⟨hmax, hbits, hvs⟩ := h
    obtain ⟨⟨hlen, hlt⟩, hval⟩ := Option.ite_none_right_eq_some.mp hv
    cases hval
    refine ⟨.bitPackedInt max_value (e.encode (leNat bytes)), ?_, ⟨hmax, ?_, ?_⟩, rfl, fun h => h⟩
    · rw [DataWriter.addDatum, if_pos (Or.inr (Or.inr hlen))]
    · rw [BitPackEncoder.maxbits_encode, hbits]
    · exact encodes_snoc hvs (hbits ▸ bits_le hmax) (hbits ▸ hlt)
  | uint32 type w =>
    obtain ⟨⟨hlen, hlt⟩, hval⟩ := Option.ite_none_right_eq_some.mp hv
    cases hval
    refine ⟨.uint32 type (w ++ appendUInt32 (leNat bytes)), ?_, Coded.snoc h hlt, rfl, fun h => h⟩
    rw [DataWriter.addDatum, if_pos (Or.inr (Or.inr hlen))]
  | uint64 type w =>
    obtain ⟨hlen, hval⟩ := Option.ite_none_right_eq_some.mp hv
    cases hval
    refine ⟨.uint64 type (w ++ appendUInt64 (leNat bytes)), ?_, Coded.snoc h (h64 hlen), rfl,
      fun h => h⟩
    rw [DataWriter.addDatum, if_neg (not_not.mpr hlen)]
  | leb128 type w =>
    obtain ⟨hlen, hval⟩ := Option.ite_none_right_eq_some.mp hv
    cases hval
    refine ⟨.leb128 type (w ++ appendVarUInt (leNat bytes)), ?_, Coded.snoc h (h64 hlen), rfl,
      fun h => h⟩
    rw [DataWriter.addDatum, if_neg (fun hne => hne.2 hlen)]
  | double w =>
    obtain ⟨hlen, hval⟩ := Option.ite_none_right_eq_some.mp hv
    cases hval
    refine ⟨.double (w ++ appendUInt64 (leNat bytes)), ?_, Coded.snoc h (h64 hlen), rfl,
      fun h => h⟩
    rw [DataWriter.addDatum, if_neg (not_not.mpr hlen)]
  | string w =>
    obtain ⟨hlt, hval⟩ := Option.ite_none_right_eq_some.mp hv
    cases hval
    refine ⟨.string (w ++ stringBytes bytes), ?_, Coded.snoc h hlt, rfl, fun h => h⟩
    rw [DataWriter.addDatum, stringBytes, List.append_assoc]

/-- The native value of a class is the one it stores: no bits of it are lost in the bytes that
are handed over. -/
theorem DataWriter.storedDatum_native {dw : DataWriter} {arg : WriteArg} {v : Datum}
    (hmax : dw.DefaultMax) (hv : nativeDatum dw.encoding arg = some v) :
    ∃ bytes, ColumnWriter.datum arg = some bytes ∧ dw.storedDatum bytes = some v := by
  have h64 : ∀ value : UInt64, leNat (leBytes 8 value.toNat) = value.toNat := fun value =>
    leNat_leBytes_of_lt value.toNat_lt
  have hvalue := nativeValue_of_nativeDatum hv
  cases dw with
  | boolean e =>
    cases hvalue with
    | boolean value =>
      refine ⟨_, rfl, ?_⟩
      cases value <;> rfl
  | bitPackedInt max_value e =>
    cases hvalue with
    | bitPackedInt hlt =>
      -- only a packer of whole words keeps every value below 2^32
      have hbits : bits max_value = 32 := by
        rw [show max_value = 0xffffffff from hmax]
        decide
      refine ⟨_, rfl, ?_⟩
      rw [storedDatum, leBytes_length, h64, hbits, if_pos ⟨rfl, hlt⟩]
  | uint32 type w =>
    cases hvalue with
    | uint32 hlt =>
      refine ⟨_, rfl, ?_⟩
      rw [storedDatum, leBytes_length, h64, if_pos ⟨rfl, hlt⟩]
  | uint64 type w =>
    cases hvalue with
    | uint64 value => exact ⟨_, rfl, by rw [storedDatum, leBytes_length, h64, if_pos rfl]⟩
  | leb128 type w =>
    cases hvalue with
    | leb128 value => exact ⟨_, rfl, by rw [storedDatum, leBytes_length, h64, if_pos rfl]⟩
  | double w =>
    cases hvalue with
    | double value => exact ⟨_, rfl, by rw [storedDatum, leBytes_length, h64, if_pos rfl]⟩
  | string w =>
    cases hvalue with
    | string hlt => exact ⟨_, rfl, by rw [storedDatum, if_pos hlt]⟩

/-- A reader over the bytes of a plain stream; the size may count more bytes, as that of three
of the classes does. -/
theorem ahead_new {mem : Mapping} {address size : Nat} {bytes : Bytes}
    (hmem : HoldsAt mem address bytes) (hsize : bytes.length ≤ size) :
    (BinaryMessageReader.new address size).Ahead mem bytes :=
  ⟨hmem, by
    show 0 + bytes.length ≤ size
    omega⟩

/-- The reader of the class finds the values that were stored. It is made at the address of the
stream with the size of the writer. -/
theorem DataWriter.Stores.reads {dw : DataWriter} {data : List Datum} (h : dw.Stores data)
    {mem : Mapping} {address : Nat} (hmem : HoldsAt mem address dw.commit.bytes)
    (hsize : dw.commit.size < 2 ^ 64) :
    ∃ r, DataReader.new mem dw.encoding address dw.commit.size = .ok r ∧ r.Reads mem data := by
  cases dw with
  | boolean e =>
    obtain ⟨hbits, vs, hdata, henc⟩ := h
    have hpacked := henc.flush
    rw [hbits, show (1 : Nat) = bits 1 from rfl] at hpacked
    exact ⟨_, rfl, vs, hdata, BitPackDecoder.decodes_new (by norm_num) hpacked hmem⟩
  | bitPackedInt max_value e =>
    obtain ⟨hmax, hbits, vs, hdata, henc⟩ := h
    have hpacked := henc.flush
    rw [hbits] at hpacked
    have hstream : HoldsAt mem address (appendUInt32 max_value ++ e.flush.buf) := hmem
    have hload := hstream.left.load
    have hright := hstream.right
    rw [length_appendUInt32] at hload hright
    have hlen : (4 + e.flush.size + 2 ^ 64 - 4) % 2 ^ 64 = e.flush.buf.length := by
      have hlt : 4 + e.flush.size < 2 ^ 64 := hsize
      have heq : 4 + e.flush.size + 2 ^ 64 - 4 = e.flush.size + 2 ^ 64 := by omega
      rw [heq, Nat.add_mod_right, Nat.mod_eq_of_lt (by omega)]
      rfl
    refine ⟨.bitPackedInt max_value (BitPackDecoder.new (address + 4) e.flush.buf.length
      max_value), ?_, vs, hdata, BitPackDecoder.decodes_new hmax hpacked hright⟩
    show (load mem address 4 >>= fun bytes => Except.ok (DataReader.bitPackedInt (leNat bytes)
      (BitPackDecoder.new (address + 4) ((4 + e.flush.size + 2 ^ 64 - 4) % 2 ^ 64)
        (leNat bytes)))) = _
    rw [hload, Result.ok_bind, hlen, appendUInt32, leNat_leBytes_of_lt hmax]
  | uint32 type w => exact ⟨_, rfl, w, h, ahead_new hmem (Nat.le_add_left _ _)⟩
  | uint64 type w => exact ⟨_, rfl, w, h, ahead_new hmem (Nat.le_add_left _ _)⟩
  | leb128 type w => exact ⟨_, rfl, w, h, ahead_new hmem (Nat.le_refl _)⟩
  | double w => exact ⟨_, rfl, w, h, ahead_new hmem (Nat.le_add_left _ _)⟩
  | string w => exact ⟨_, rfl, w, h, ahead_new hmem (Nat.le_refl _)⟩

/-- A bit-packed stream delivers its first value, and the decoder behind it has the others. The
values are kept as numbers here, since the decoder knows of no data. -/
theorem decodes_next {mem : Mapping} {d : BitPackDecoder} {v : Datum} {data : List Datum}
    (h : ∃ vs : List Nat, v :: data = vs.map .unsignedInt ∧ d.Decodes mem vs) :
    ∃ x d', v = .unsignedInt x ∧ d.next mem = .ok (x, d') ∧
      ∃ vs : List Nat, data = vs.map .unsignedInt ∧ d'.Decodes mem vs := by
  obtain ⟨vs, hdata, hdec⟩ := h
  cases vs with
  | nil => cases hdata
  | cons x vs =>
    obtain ⟨hx, hrest⟩ := List.cons.inj hdata
    obtain ⟨d', hnext, hdec'⟩ := hdec.next
    exact ⟨x, d', hx, hnext, vs, hrest, hdec'⟩

/-- The next value is the first of those that are left. This is the step lemma of the
readers. -/
theorem DataReader.Reads.next {mem : Mapping} {r : DataReader} {v : Datum} {data : List Datum}
    (h : r.Reads mem (v :: data)) : ∃ r', r.next mem = .ok (v, r') ∧ r'.Reads mem data := by
  cases r with
  | boolean d =>
    obtain ⟨x, d', rfl, hnext, hrest⟩ := decodes_next h
    refine ⟨.boolean d', ?_, hrest⟩
    rw [next_boolean, hnext]
    rfl
  | bitPackedInt max_value d =>
    obtain ⟨x, d', rfl, hnext, hrest⟩ := decodes_next h
    refine ⟨.bitPackedInt max_value d', ?_, hrest⟩
    rw [next_bitPackedInt, hnext]
    rfl
  | uint32 r =>
    obtain ⟨bytes, hcoded, hahead⟩ := h
    obtain ⟨x, rest, rfl, hx, rfl, hrest⟩ := hcoded.cons
    obtain ⟨r', hread, hahead'⟩ := hahead.readUInt32 hx
    refine ⟨.uint32 r', ?_, rest, hrest, hahead'⟩
    rw [next_uint32, hread]
    rfl
  | uint64 r =>
    obtain ⟨bytes, hcoded, hahead⟩ := h
    obtain ⟨x, rest, rfl, hx, rfl, hrest⟩ := hcoded.cons
    obtain ⟨r', hread, hahead'⟩ := hahead.readUInt64 hx
    refine ⟨.uint64 r', ?_, rest, hrest, hahead'⟩
    rw [next_uint64, hread]
    rfl
  | leb128 r =>
    obtain ⟨bytes, hcoded, hahead⟩ := h
    obtain ⟨x, rest, rfl, hx, rfl, hrest⟩ := hcoded.cons
    obtain ⟨r', hread, hahead'⟩ := hahead.readVarUInt hx
    refine ⟨.leb128 r', ?_, rest, hrest, hahead'⟩
    rw [next_leb128, hread]
    rfl
  | double r =>
    obtain ⟨bytes, hcoded, hahead⟩ := h
    obtain ⟨x, rest, rfl, hx, rfl, hrest⟩ := hcoded.cons
    obtain ⟨r', hread, hahead'⟩ := hahead.readUInt64 hx
    refine ⟨.double r', ?_, rest, hrest, hahead'⟩
    rw [next_double, hread]
    rfl
  | string r =>
    obtain ⟨bytes, hcoded, hahead⟩ := h
    obtain ⟨x, rest, rfl, hx, rfl, hrest⟩ := hcoded.cons
    rw [stringBytes, List.append_assoc] at hahead
    obtain ⟨r₁, hlen, hahead₁⟩ := hahead.readUInt32 hx
    obtain ⟨r₂, hread, hahead₂⟩ := hahead₁.read
    refine ⟨.string r₂, ?_, rest, hrest, hahead₂⟩
    rw [next_string, hlen, Result.ok_bind, hread]
    rfl

/-! ### Columns -/

/-- The entry a call leaves in a column of the given encoding and level maxima:
none if the call is not one of the class, or its level or value is out of
range. -/
def entryOf (encoding : ColumnEncoding) (r_max d_max : Nat) (c : WriteCall) : Option Entry :=
  if c.rlvl ≤ r_max then
    match c.arg with
    | .null => if c.dlvl < d_max then some ⟨c.rlvl, c.dlvl, none⟩ else none
    | arg =>
      if c.dlvl = d_max then
        (nativeDatum encoding arg).map fun value => ⟨c.rlvl, c.dlvl, some value⟩
      else none
  else none

/-- The column writer has been given the entries. -/
structure ColumnWriter.Records (w : ColumnWriter) (entries : List Entry) : Prop where
  num_vals : w.num_vals = entries.length
  rlvl_bits : w.rlvl_writer.maxbits = bits w.r_max
  dlvl_bits : w.dlvl_writer.maxbits = bits w.d_max
  rlvl : w.rlvl_writer.Encodes (entries.map Entry.rlvl)
  dlvl : w.dlvl_writer.Encodes (entries.map Entry.dlvl)
  data : w.data_writer.Stores (entries.filterMap Entry.value)
  defined : ∀ e ∈ entries, e.value.isSome ↔ e.dlvl = w.d_max

/-- The entry a call leaves in a column with the data stream, by whatever function of
the class: none if the value is refused or does not fit, or if a level is out of
range. -/
def entryIn (dw : DataWriter) (r_max d_max : Nat) (c : WriteCall) : Option Entry :=
  if c.rlvl ≤ r_max then
    match ColumnWriter.datum c.arg with
    | none => if c.dlvl < d_max then some ⟨c.rlvl, c.dlvl, none⟩ else none
    | some data =>
      if c.dlvl = d_max then
        (dw.storedDatum data).map fun value => ⟨c.rlvl, c.dlvl, some value⟩
      else none
  else none

/-- A column with an empty data stream holds no entries yet, since its level streams are empty
too. -/
theorem ColumnWriter.records_of_stores {dw : DataWriter} (h : dw.Stores []) {r_max d_max : Nat}
    (hr : r_max < 2 ^ 32) (hd : d_max < 2 ^ 32) : (new r_max d_max dw).Records [] where
  num_vals := rfl
  rlvl_bits := congrArg bits (Nat.mod_eq_of_lt hr)
  dlvl_bits := congrArg bits (Nat.mod_eq_of_lt hd)
  rlvl := BitPackEncoder.encodes_new r_max
  dlvl := BitPackEncoder.encodes_new d_max
  data := h
  defined := fun _ he => absurd he List.not_mem_nil

/-- The columns of `createFile` hold no entries. The maxima are bounded by what the level
encoders cast them to. -/
theorem ColumnWriter.records_new {r_max d_max : Nat} (hr : r_max < 2 ^ 32) (hd : d_max < 2 ^ 32)
    (encoding : ColumnEncoding) (type : UInt8) :
    (new r_max d_max (newDataWriter encoding type)).Records [] :=
  records_of_stores (DataWriter.stores_new encoding type) hr hd

/-- The two kinds of entries: a null below the maximal definition level, a value
at it. -/
theorem entryOf_eq_some {encoding : ColumnEncoding} {r_max d_max : Nat} {c : WriteCall} {e : Entry}
    (h : entryOf encoding r_max d_max c = some e) :
    e.rlvl = c.rlvl ∧ e.dlvl = c.dlvl ∧ c.rlvl ≤ r_max ∧
      ((c.arg = .null ∧ c.dlvl < d_max ∧ e.value = none) ∨
        (c.dlvl = d_max ∧ ∃ v, nativeDatum encoding c.arg = some v ∧ e.value = some v)) := by
  unfold entryOf at h
  by_cases hr : c.rlvl ≤ r_max
  · rw [if_pos hr] at h
    split at h
    · next harg =>
      split_ifs at h with hd
      cases h
      exact ⟨rfl, rfl, hr, Or.inl ⟨harg, hd, rfl⟩⟩
    · split_ifs at h with hd
      obtain ⟨v, hv, rfl⟩ := Option.map_eq_some_iff.mp h
      exact ⟨rfl, rfl, hr, Or.inr ⟨hd, v, hv, rfl⟩⟩
  · rw [if_neg hr] at h
    cases h

/-- The levels of one more entry. They fit the bits of their maxima, which is all the two level
streams ask for. -/
theorem ColumnWriter.Records.addLevels {w : ColumnWriter} {entries : List Entry} {e : Entry}
    (h : w.Records entries) (hr_max : w.r_max < 2 ^ 32) (hd_max : w.d_max < 2 ^ 32)
    (hr : e.rlvl ≤ w.r_max) (hd : e.dlvl ≤ w.d_max) :
    (w.rlvl_writer.encode e.rlvl).maxbits = bits w.r_max ∧
      (w.dlvl_writer.encode e.dlvl).maxbits = bits w.d_max ∧
      (w.rlvl_writer.encode e.rlvl).Encodes ((entries ++ [e]).map Entry.rlvl) ∧
      (w.dlvl_writer.encode e.dlvl).Encodes ((entries ++ [e]).map Entry.dlvl) := by
  refine ⟨?_, ?_, ?_, ?_⟩
  · rw [BitPackEncoder.maxbits_encode, h.rlvl_bits]
  · rw [BitPackEncoder.maxbits_encode, h.dlvl_bits]
  · rw [List.map_append, List.map_singleton]
    refine h.rlvl.encode ?_ ?_
    · rw [h.rlvl_bits]
      exact bits_le hr_max
    · rw [h.rlvl_bits]
      exact lt_two_pow_bits hr
  · rw [List.map_append, List.map_singleton]
    refine h.dlvl.encode ?_ ?_
    · rw [h.dlvl_bits]
      exact bits_le hd_max
    · rw [h.dlvl_bits]
      exact lt_two_pow_bits hd

/-- The entry a call leaves in a column: a null below the maximal definition level,
or a value at it that the class stores. -/
inductive ColumnWriter.Writes (w : ColumnWriter) (c : WriteCall) (e : Entry) : Prop
  | null (harg : c.arg = .null) (hd : c.dlvl < w.d_max) (he : e = ⟨c.rlvl, c.dlvl, none⟩)
  | value {bytes : Bytes} {v : Datum} (hdatum : datum c.arg = some bytes)
    (hd : c.dlvl = w.d_max) (hv : w.data_writer.storedDatum bytes = some v)
    (he : e = ⟨c.rlvl, c.dlvl, some v⟩)

/-- Such a call is accepted and adds its entry; the maxima and the class stay. All the overloads
of a class come down to this one. -/
theorem ColumnWriter.Records.write {w : ColumnWriter} {entries : List Entry} {c : WriteCall}
    {e : Entry} (h : w.Records entries) (hr_max : w.r_max < 2 ^ 32) (hd_max : w.d_max < 2 ^ 32)
    (hr : c.rlvl ≤ w.r_max) (hwrites : w.Writes c e) :
    ∃ w', w.call c = .ok w' ∧ w'.Records (entries ++ [e]) ∧ w'.r_max = w.r_max ∧
      w'.d_max = w.d_max ∧ w'.data_writer.encoding = w.data_writer.encoding ∧
      (w.data_writer.DefaultMax → w'.data_writer.DefaultMax) := by
  have hcount : w.num_vals + 1 = (entries ++ [e]).length := by
    rw [List.length_append, List.length_singleton, h.num_vals]
  have hdefined : (e.value.isSome ↔ e.dlvl = w.d_max) →
      ∀ x ∈ entries ++ [e], x.value.isSome ↔ x.dlvl = w.d_max := by
    intro hnew x hx
    rcases List.mem_append.mp hx with hold | hx
    · exact h.defined x hold
    · rw [List.mem_singleton] at hx
      exact hx ▸ hnew
  -- a null adds levels alone, a value adds its datum as well
  cases hwrites with
  | null harg hd he =>
    subst he
    obtain ⟨hrb, hdb, hrs, hds⟩ := h.addLevels (e := ⟨c.rlvl, c.dlvl, none⟩) hr_max hd_max hr
      (Nat.le_of_lt hd)
    refine ⟨w.addLevels c.rlvl c.dlvl, ?_, ⟨hcount, hrb, hdb, hrs, hds, ?_, hdefined ?_⟩,
      rfl, rfl, rfl, fun h => h⟩
    · unfold ColumnWriter.call
      rw [harg]
      rfl
    · rw [List.filterMap_append, List.filterMap_cons_none rfl, List.filterMap_nil,
        List.append_nil]
      exact h.data
    · exact iff_of_false (by simp) (Nat.ne_of_lt hd)
  | @value bytes v hdatum hd hv he =>
    subst he
    obtain ⟨hrb, hdb, hrs, hds⟩ := h.addLevels (e := ⟨c.rlvl, c.dlvl, some v⟩) hr_max hd_max hr
      (Nat.le_of_eq hd)
    obtain ⟨dw', hadd, hstores, henc, hmax⟩ := h.data.addDatum hv
    refine ⟨{ w.addLevels c.rlvl c.dlvl with data_writer := dw' }, ?_,
      ⟨hcount, hrb, hdb, hrs, hds, ?_, hdefined ?_⟩, rfl, rfl, henc, hmax⟩
    · unfold ColumnWriter.call ColumnWriter.addDatum
      rw [hdatum]
      dsimp only
      rw [hadd, Result.ok_bind]
    · rw [List.filterMap_append]
      exact hstores
    · exact iff_of_true rfl hd

/-- What `entryIn` says of a call is what it writes, and its repetition level is one of the
column. -/
theorem ColumnWriter.writes_of_entryIn {w : ColumnWriter} {c : WriteCall} {e : Entry}
    (he : entryIn w.data_writer w.r_max w.d_max c = some e) : c.rlvl ≤ w.r_max ∧ w.Writes c e := by
  unfold entryIn at he
  by_cases hr : c.rlvl ≤ w.r_max
  · rw [if_pos hr] at he
    refine ⟨hr, ?_⟩
    cases hdatum : datum c.arg with
    | none =>
      rw [hdatum] at he
      obtain ⟨hd, he⟩ := Option.ite_none_right_eq_some.mp he
      have harg : c.arg = .null := by
        cases harg : c.arg <;> rw [harg] at hdatum <;> first | rfl | cases hdatum
      exact .null harg hd (Option.some.inj he).symm
    | some data =>
      rw [hdatum] at he
      obtain ⟨hd, he⟩ := Option.ite_none_right_eq_some.mp he
      obtain ⟨v, hv, rfl⟩ := Option.map_eq_some_iff.mp he
      exact .value hdatum hd hv rfl
  · rw [if_neg hr] at he
    cases he

/-- With the default maximum, the function of the class leaves the entry that
`entryOf` says. -/
theorem entryIn_of_entryOf {dw : DataWriter} (hmax : dw.DefaultMax) {r_max d_max : Nat}
    {c : WriteCall} {e : Entry} (he : entryOf dw.encoding r_max d_max c = some e) :
    entryIn dw r_max d_max c = some e := by
  obtain ⟨rlvl, dlvl, value⟩ := e
  obtain ⟨rfl, rfl, hr, hkind⟩ := entryOf_eq_some he
  unfold entryIn
  rw [if_pos hr]
  rcases hkind with ⟨harg, hd, rfl⟩ | ⟨hd, v, hv, rfl⟩
  · rw [harg]
    exact if_pos hd
  · obtain ⟨bytes, hdatum, hstored⟩ := DataWriter.storedDatum_native hmax hv
    rw [hdatum]
    dsimp only
    rw [if_pos hd, hstored]
    rfl

/-- A call that has an entry is accepted and adds it. The maximum of the class may be any:
`entryIn` says which values it cuts. -/
theorem ColumnWriter.Records.call_in {w : ColumnWriter} {entries : List Entry} {c : WriteCall}
    {e : Entry} (h : w.Records entries) (hr_max : w.r_max < 2 ^ 32) (hd_max : w.d_max < 2 ^ 32)
    (he : entryIn w.data_writer w.r_max w.d_max c = some e) :
    ∃ w', w.call c = .ok w' ∧ w'.Records (entries ++ [e]) ∧ w'.r_max = w.r_max ∧
      w'.d_max = w.d_max ∧ w'.data_writer.encoding = w.data_writer.encoding ∧
      (w.data_writer.DefaultMax → w'.data_writer.DefaultMax) := by
  obtain ⟨hr, hwrites⟩ := writes_of_entryIn he
  exact h.write hr_max hd_max hr hwrites

/-- A call of the class adds its entry, when the class has the default maximum. Then no value is
cut, and the entry is the one that the call names. -/
theorem ColumnWriter.Records.call {w : ColumnWriter} {entries : List Entry} {c : WriteCall}
    {e : Entry} (h : w.Records entries) (hr_max : w.r_max < 2 ^ 32) (hd_max : w.d_max < 2 ^ 32)
    (hmax : w.data_writer.DefaultMax)
    (he : entryOf w.data_writer.encoding w.r_max w.d_max c = some e) :
    ∃ w', w.call c = .ok w' ∧ w'.Records (entries ++ [e]) ∧ w'.r_max = w.r_max ∧
      w'.d_max = w.d_max ∧ w'.data_writer.encoding = w.data_writer.encoding ∧
      w'.data_writer.DefaultMax := by
  obtain ⟨w', hcall, hrec, hrm, hdm, henc, hmax'⟩ :=
    h.call_in hr_max hd_max (entryIn_of_entryOf hmax he)
  exact ⟨w', hcall, hrec, hrm, hdm, henc, hmax' hmax⟩

/-- Two calls that pass the same bytes on with the same levels, as the calls for times
and unsigned integers do: no column tells them apart. -/
def SameBytes (c c' : WriteCall) : Prop :=
  c.rlvl = c'.rlvl ∧ c.dlvl = c'.dlvl ∧ ColumnWriter.datum c.arg = ColumnWriter.datum c'.arg

/-- Every call hands over the same bytes as itself. -/
theorem SameBytes.refl (c : WriteCall) : SameBytes c c := ⟨rfl, rfl, rfl⟩

/-- Calls that hand over the same bytes are the same for a column writer: it sees nothing else
of them. -/
theorem SameBytes.call_eq {c c' : WriteCall} (h : SameBytes c c') (w : ColumnWriter) :
    w.call c = w.call c' := by
  obtain ⟨hr, hd, hdatum⟩ := h
  unfold ColumnWriter.call
  rw [hr, hd, hdatum]

/-- The calls one after the other, by a caller that catches exceptions: the writer
in the end, and the calls that did not raise. -/
def ColumnWriter.callAll : ColumnWriter → List WriteCall → ColumnWriter × List WriteCall
  | w, [] => (w, [])
  | w, c :: cs =>
    match w.call c with
    | .ok w' => ((callAll w' cs).1, c :: (callAll w' cs).2)
    | .error _ => callAll w cs

/-- No more calls are accepted than are made. The bound on the number of entries comes from the
calls in this way. -/
theorem ColumnWriter.length_callAll_le (w : ColumnWriter) (calls : List WriteCall) :
    (w.callAll calls).2.length ≤ calls.length := by
  induction calls generalizing w with
  | nil => exact Nat.le_refl 0
  | cons c cs ih =>
    unfold callAll
    cases w.call c with
    | ok w' => exact Nat.succ_le_succ (ih w')
    | error e => exact Nat.le_succ_of_le (ih w)

/-- A value does not change the class of the stream. -/
theorem DataWriter.encoding_addDatum {dw dw' : DataWriter} {data : Bytes}
    (h : dw.addDatum data = .ok dw') : dw'.encoding = dw.encoding := by
  cases dw
  case string w =>
    cases h
    rfl
  all_goals
    dsimp only [addDatum] at h
    split_ifs at h <;> cases h <;> rfl

/-- A call that is accepted adds its levels and keeps the class. What it does to the data is up
to the class. -/
theorem ColumnWriter.call_spec {w w' : ColumnWriter} {c : WriteCall} (h : w.call c = .ok w') :
    w'.data_writer.encoding = w.data_writer.encoding ∧ w'.r_max = w.r_max ∧ w'.d_max = w.d_max ∧
      w'.num_vals = w.num_vals + 1 ∧ w'.rlvl_writer = w.rlvl_writer.encode c.rlvl ∧
      w'.dlvl_writer = w.dlvl_writer.encode c.dlvl := by
  unfold call at h
  split at h
  · cases h
    exact ⟨rfl, rfl, rfl, rfl, rfl, rfl⟩
  · obtain ⟨dw, hdw, hret⟩ := Result.bind_eq_ok.mp h
    cases hret
    exact ⟨DataWriter.encoding_addDatum hdw, rfl, rfl, rfl, rfl, rfl⟩

/-- In particular the class is kept. -/
theorem ColumnWriter.encoding_call {w w' : ColumnWriter} {c : WriteCall} (h : w.call c = .ok w') :
    w'.data_writer.encoding = w.data_writer.encoding := (call_spec h).1

/-- Nor does it change the values the class stores, or its maximum. -/
theorem ColumnWriter.storedDatum_call {w w' : ColumnWriter} {c : WriteCall}
    (h : w.call c = .ok w') :
    w'.data_writer.storedDatum = w.data_writer.storedDatum ∧
      w'.data_writer.maxValue = w.data_writer.maxValue := by
  unfold call at h
  split at h
  · cases h
    exact ⟨rfl, rfl⟩
  · obtain ⟨dw, hdw, hret⟩ := Result.bind_eq_ok.mp h
    cases hret
    exact DataWriter.storedDatum_addDatum hdw

/-- Neither does a run of calls, accepted or not, change the class. By induction on the
calls. -/
theorem ColumnWriter.encoding_callAll (calls : List WriteCall) : ∀ w : ColumnWriter,
    (w.callAll calls).1.data_writer.encoding = w.data_writer.encoding := by
  induction calls with
  | nil => exact fun _ => rfl
  | cons c calls ih =>
    intro w
    rw [callAll]
    cases hcall : w.call c with
    | ok w' => exact (ih w').trans (encoding_call hcall)
    | error e => exact ih w

/-- Nor does the commit, which only pads the last block. -/
theorem ColumnWriter.encoding_commit (w : ColumnWriter) :
    w.commit.data_writer.encoding = w.data_writer.encoding := by
  cases hdw : w.data_writer <;> simp only [commit, hdw] <;> rfl

/-- A run of calls that have entries adds them. By induction on the calls, with the writer and
its entries moving on. -/
theorem ColumnWriter.Records.callAll_in {calls : List WriteCall} :
    ∀ {w : ColumnWriter} {entries : List Entry}, w.Records entries → w.r_max < 2 ^ 32 →
      w.d_max < 2 ^ 32 → ∀ {added : List Entry},
      List.Forall₂ (fun c e => entryIn w.data_writer w.r_max w.d_max c = some e) calls added →
      (w.callAll calls).1.Records (entries ++ added) ∧ (w.callAll calls).1.r_max = w.r_max ∧
        (w.callAll calls).1.d_max = w.d_max ∧
        (w.callAll calls).1.data_writer.encoding = w.data_writer.encoding := by
  induction calls with
  | nil =>
    intro w entries h _ _ added hadded
    cases hadded
    rw [List.append_nil]
    exact ⟨h, rfl, rfl, rfl⟩
  | cons c cs ih =>
    intro w entries h hr hd added hadded
    cases hadded with
    | @cons _ e _ es he hes =>
      obtain ⟨w', hcall, hrec, hrm, hdm, henc, -⟩ := h.call_in hr hd he
      have heq : (w.callAll (c :: cs)).1 = (w'.callAll cs).1 := by
        rw [ColumnWriter.callAll, hcall]
      -- the rest of the calls finds a stream of the same class
      have hrest : List.Forall₂ (fun c e => entryIn w'.data_writer w'.r_max w'.d_max c = some e)
          cs es := by
        unfold entryIn at hes ⊢
        rw [(ColumnWriter.storedDatum_call hcall).1, hrm, hdm]
        exact hes
      obtain ⟨hrec', hrm', hdm', henc'⟩ := ih hrec (hrm ▸ hr) (hdm ▸ hd) hrest
      rw [heq, List.append_cons]
      exact ⟨hrec', hrm'.trans hrm, hdm'.trans hdm, henc'.trans henc⟩

/-- A run of calls of the class adds their entries: the native calls of the source, on a column
that `createFile` made. -/
theorem ColumnWriter.Records.callAll_native {calls : List WriteCall} {w : ColumnWriter}
    {entries : List Entry} (h : w.Records entries) (hr : w.r_max < 2 ^ 32)
    (hd : w.d_max < 2 ^ 32) (hmax : w.data_writer.DefaultMax) {added : List Entry}
    (hadded : List.Forall₂
      (fun c e => entryOf w.data_writer.encoding w.r_max w.d_max c = some e) calls added) :
    (w.callAll calls).1.Records (entries ++ added) ∧ (w.callAll calls).1.r_max = w.r_max ∧
      (w.callAll calls).1.d_max = w.d_max ∧
      (w.callAll calls).1.data_writer.encoding = w.data_writer.encoding :=
  h.callAll_in hr hd (hadded.imp fun _ _ he => entryIn_of_entryOf hmax he)

/-! ### Reading a column -/

/-- Reading the column yields the entries one after the other, and its end is
reported after the last and not before. -/
def ColumnReader.ReadsExactly (mem : Mapping) : ColumnReader → List Entry → Prop
  | r, [] => r.eofReached = true
  | r, e :: entries => r.eofReached = false ∧
    ∃ r', r.readNext mem = .ok (e, r') ∧ ReadsExactly mem r' entries

/-- What a column reader that still has the entries to deliver looks like. -/
structure ColumnReader.Delivers (mem : Mapping) (r : ColumnReader) (entries : List Entry) :
    Prop where
  count : r.vals_read + entries.length = r.vals_total
  rlvl : r.rlvl_reader.Decodes mem (entries.map Entry.rlvl)
  dlvl : r.dlvl_reader.Decodes mem (entries.map Entry.dlvl)
  data : r.data_reader.Reads mem (entries.filterMap Entry.value)
  defined : ∀ e ∈ entries, e.value.isSome ↔ e.dlvl = r.d_max

/-- A reader that delivers entries reads the first one and delivers the others. `Delivers` is a
fact about the state, so it can be used after any read. -/
theorem ColumnReader.Delivers.readNext {mem : Mapping} {r : ColumnReader} {e : Entry}
    {entries : List Entry} (h : r.Delivers mem (e :: entries)) :
    ∃ r', r.readNext mem = .ok (e, r') ∧ r'.Delivers mem entries := by
  obtain ⟨rlvl, dlvl, value⟩ := e
  obtain ⟨rr, hr, hrs⟩ := h.rlvl.next
  obtain ⟨dr, hd, hds⟩ := h.dlvl.next
  have hcount : r.vals_read + 1 + entries.length = r.vals_total := by
    have hc := h.count
    rw [List.length_cons] at hc
    omega
  have hdefined : ∀ x ∈ entries, x.value.isSome ↔ x.dlvl = r.d_max := fun x hx =>
    h.defined x (List.mem_cons_of_mem _ hx)
  have hhead := h.defined _ List.mem_cons_self
  unfold ColumnReader.readNext
  rw [hr, Result.ok_bind]
  dsimp only
  rw [hd, Result.ok_bind]
  dsimp only
  cases value with
  | none =>
    have hne : dlvl ≠ r.d_max := fun heq => absurd (hhead.mpr heq) (by simp)
    have hdata : r.data_reader.Reads mem (entries.filterMap Entry.value) := h.data
    rw [if_neg hne]
    exact ⟨_, rfl, hcount, hrs, hds, hdata, hdefined⟩
  | some v =>
    have heq : dlvl = r.d_max := hhead.mp rfl
    have hdata : r.data_reader.Reads mem (v :: entries.filterMap Entry.value) := h.data
    obtain ⟨dr', hnext, hrest⟩ := hdata.next
    rw [if_pos heq, hnext, Result.ok_bind]
    exact ⟨_, rfl, hcount, hrs, hds, hrest, hdefined⟩

/-- A whole column, by induction on its entries: each of them is read, and `eofReached` says
when the last one has been. -/
theorem ColumnReader.Delivers.readsExactly {mem : Mapping} {r : ColumnReader}
    {entries : List Entry} (h : r.Delivers mem entries) : r.ReadsExactly mem entries := by
  induction entries generalizing r with
  | nil =>
    have hc := h.count
    rw [List.length_nil, Nat.add_zero] at hc
    exact decide_eq_true (Nat.le_of_eq hc.symm)
  | cons e entries ih =>
    obtain ⟨r', hread, hrest⟩ := h.readNext
    have hc := h.count
    rw [List.length_cons] at hc
    exact ⟨decide_eq_false (by omega), r', hread, ih hrest⟩

/-- The three streams of a body lie behind its four counts, one after the other and at the sizes
the counts announce. -/
theorem ColumnWriter.holdsAt_body {w : ColumnWriter} {mem : Mapping} {address : Nat}
    (hmem : HoldsAt mem address w.body) :
    HoldsAt mem (address + 32) w.rlvl_writer.buf ∧
      HoldsAt mem (address + 32 + w.rlvl_writer.size) w.dlvl_writer.buf ∧
      HoldsAt mem (address + 32 + w.rlvl_writer.size + w.dlvl_writer.size) w.data_writer.bytes := by
  have hbody : w.body = (appendUInt64 w.num_vals ++ (appendUInt64 w.rlvl_writer.size ++
        (appendUInt64 w.dlvl_writer.size ++ appendUInt64 w.data_writer.size))) ++
      (w.rlvl_writer.buf ++ (w.dlvl_writer.buf ++ w.data_writer.bytes)) := by
    simp only [ColumnWriter.body, List.append_assoc]
  rw [hbody] at hmem
  have hright := hmem.right
  simp only [List.length_append, length_appendUInt64, Nat.reduceAdd] at hright
  exact ⟨hright.left, hright.right.left, hright.right.right⟩

/-- A reader over a body finds its counts, and with them the three streams. It is the one place
where writer and reader have to agree on the layout. -/
theorem ColumnReader.new_body {w : ColumnWriter} {mem : Mapping} {address : Nat}
    (encoding : ColumnEncoding) (r_max d_max : Nat) (hcount : w.num_vals < 2 ^ 64)
    (hsize : w.bodySize < 2 ^ 64) (hmem : HoldsAt mem address w.body) :
    ColumnReader.new mem encoding r_max d_max address w.bodySize =
      DataReader.new mem encoding
        (address + 32 + w.rlvl_writer.size + w.dlvl_writer.size) w.data_writer.size >>=
        fun data_reader => .ok
          { r_max, d_max
            vals_total := w.num_vals
            vals_read := 0
            rlvl_reader := BitPackDecoder.new (address + 32) w.rlvl_writer.size r_max
            dlvl_reader := BitPackDecoder.new (address + 32 + w.rlvl_writer.size)
              w.dlvl_writer.size d_max
            data_reader } := by
  unfold ColumnWriter.bodySize at hsize
  have hahead : (BinaryMessageReader.new address w.bodySize).Ahead mem
      (appendUInt64 w.num_vals ++ (appendUInt64 w.rlvl_writer.size ++
        (appendUInt64 w.dlvl_writer.size ++ (appendUInt64 w.data_writer.size ++ [])))) := by
    have hcounts : HoldsAt mem address (appendUInt64 w.num_vals ++
        (appendUInt64 w.rlvl_writer.size ++ (appendUInt64 w.dlvl_writer.size ++
          (appendUInt64 w.data_writer.size ++ [])))) := by
      have hbody : w.body = (appendUInt64 w.num_vals ++ (appendUInt64 w.rlvl_writer.size ++
            (appendUInt64 w.dlvl_writer.size ++ (appendUInt64 w.data_writer.size ++ [])))) ++
          (w.rlvl_writer.buf ++ (w.dlvl_writer.buf ++ w.data_writer.bytes)) := by
        simp only [ColumnWriter.body, List.append_assoc, List.append_nil]
      rw [hbody] at hmem
      exact hmem.left
    refine ahead_new hcounts ?_
    simp only [List.length_append, length_appendUInt64, ColumnWriter.bodySize, List.length_nil]
    omega
  obtain ⟨r₁, hread₁, hahead₁⟩ := hahead.readUInt64 hcount
  obtain ⟨r₂, hread₂, hahead₂⟩ := hahead₁.readUInt64 (by omega)
  obtain ⟨r₃, hread₃, hahead₃⟩ := hahead₂.readUInt64 (by omega)
  obtain ⟨r₄, hread₄, -⟩ := hahead₃.readUInt64 (by omega)
  unfold ColumnReader.new
  dsimp only
  rw [hread₁, Result.ok_bind]
  dsimp only
  rw [hread₂, Result.ok_bind]
  dsimp only
  rw [hread₃, Result.ok_bind]
  dsimp only
  rw [hread₄, Result.ok_bind]
  -- the streams are in the mapping, so no address wraps
  obtain ⟨hrlvl, hdlvl, hdata⟩ := ColumnWriter.holdsAt_body hmem
  rw [pointerSum_of_le hrlvl.le_length, pointerSum_of_le hdlvl.le_length,
    pointerSum_of_le hdata.le_length]

/-- A reader is one of the class of its encoding, with the level maxima it was
given. -/
theorem ColumnReader.new_spec {mem : Mapping} {encoding : ColumnEncoding}
    {r_max d_max data size : Nat} {r : ColumnReader}
    (h : ColumnReader.new mem encoding r_max d_max data size = .ok r) :
    r.data_reader.encoding = encoding ∧ r.r_max = r_max ∧ r.d_max = d_max := by
  unfold ColumnReader.new at h
  obtain ⟨_, -, h⟩ := Result.bind_eq_ok.mp h
  obtain ⟨_, -, h⟩ := Result.bind_eq_ok.mp h
  obtain ⟨_, -, h⟩ := Result.bind_eq_ok.mp h
  obtain ⟨_, -, h⟩ := Result.bind_eq_ok.mp h
  obtain ⟨dr, hdr, hret⟩ := Result.bind_eq_ok.mp h
  cases hret
  cases encoding with
  | UINT32_BITPACKED =>
    obtain ⟨_, -, hret⟩ := Result.bind_eq_ok.mp hdr
    cases hret
    exact ⟨rfl, rfl, rfl⟩
  | _ =>
    cases hdr
    exact ⟨rfl, rfl, rfl⟩

/-- A reader over the body of a committed column delivers its entries. The commit has padded the
level streams to whole blocks, without which the reader would not see the last values. -/
theorem ColumnWriter.Records.delivers {w : ColumnWriter} {entries : List Entry}
    (h : w.Records entries) (hr_max : w.r_max < 2 ^ 32) (hd_max : w.d_max < 2 ^ 32)
    (hcount : entries.length < 2 ^ 64) {mem : Mapping} {address : Nat}
    (hmem : HoldsAt mem address w.commit.body) (hsize : w.commit.bodySize < 2 ^ 64) :
    ∃ r, ColumnReader.new mem w.data_writer.encoding w.r_max w.d_max address w.commit.bodySize =
      .ok r ∧ r.Delivers mem entries := by
  have hnum : w.commit.num_vals = entries.length := h.num_vals
  have hdata : w.commit.data_writer.size < 2 ^ 64 := by
    unfold ColumnWriter.bodySize at hsize
    omega
  obtain ⟨hrmem, hdmem, hvmem⟩ := ColumnWriter.holdsAt_body hmem
  obtain ⟨dr, hdr, hreads⟩ := h.data.reads hvmem hdata
  have hrlvl := h.rlvl.flush
  have hdlvl := h.dlvl.flush
  rw [h.rlvl_bits] at hrlvl
  rw [h.dlvl_bits] at hdlvl
  rw [ColumnReader.new_body _ _ _ (hnum ▸ hcount) hsize hmem]
  refine ⟨_, (congrArg (· >>= _) hdr).trans rfl, ?_, ?_, ?_, hreads, h.defined⟩
  · show 0 + entries.length = w.commit.num_vals
    rw [Nat.zero_add, hnum]
  · exact BitPackDecoder.decodes_new hr_max hrlvl hrmem
  · exact BitPackDecoder.decodes_new hd_max hdlvl hdmem

/-! ### What a body is at least as long as -/

/-- Values that take a byte each are no more than their bytes. By induction on the values. -/
theorem Coded.length_le {α : Type} {toDatum : α → Datum} {Fits : α → Prop} {encode : α → Bytes}
    {data : List Datum} {bytes : Bytes} (h : Coded toDatum Fits encode data bytes)
    (hencode : ∀ v, encode v ≠ []) : data.length ≤ bytes.length := by
  obtain ⟨vs, rfl, -, rfl⟩ := h
  rw [List.length_map]
  induction vs with
  | nil => exact Nat.le_refl _
  | cons v vs ih =>
    have hpos : 0 < (encode v).length := List.length_pos_of_ne_nil (hencode v)
    rw [List.length_cons, List.flatMap_cons, List.length_append]
    omega

/-- What starts with a fixed-width integer is not empty, so a stream has at most as many values
as bytes. -/
theorem appendUInt32_append_ne_nil (n : Nat) (bytes : Bytes) : appendUInt32 n ++ bytes ≠ [] :=
  List.ne_nil_of_length_pos (by rw [List.length_append, length_appendUInt32]; omega)

/-- Nor is a 64-bit integer on its own. -/
theorem appendUInt64_ne_nil (n : Nat) : appendUInt64 n ≠ [] :=
  List.ne_nil_of_length_pos (by rw [length_appendUInt64]; omega)

/-- Every class takes a bit for each of its values, unless the values of a bit-packed
column have none: with the maximum its writer is created with they have 32. -/
theorem DataWriter.Stores.length_le {dw : DataWriter} {data : List Datum} (h : dw.Stores data)
    (hmax : dw.DefaultMax) : data.length ≤ 8 * dw.commit.size := by
  -- no class takes less than one bit for a value
  cases dw with
  | boolean e =>
    obtain ⟨hbits, vs, rfl, henc⟩ := h
    have hle := henc.flush.length_le (by omega) (by omega)
    rw [List.length_map]
    exact hle
  | bitPackedInt max_value e =>
    obtain ⟨-, hbits, vs, rfl, henc⟩ := h
    obtain rfl : max_value = 0xffffffff := hmax
    have hfull : e.maxbits = 32 := hbits.trans (by decide)
    have hle := henc.flush.length_le (by omega) (by omega)
    rw [List.length_map]
    show vs.length ≤ 8 * (4 + e.flush.buf.length)
    omega
  | uint32 type w =>
    have hle := Coded.length_le h fun v => by
      rw [← List.append_nil (appendUInt32 v)]
      exact appendUInt32_append_ne_nil v []
    show data.length ≤ 8 * (4 + w.length)
    omega
  | uint64 type w =>
    have hle := Coded.length_le h appendUInt64_ne_nil
    show data.length ≤ 8 * (8 + w.length)
    omega
  | leb128 type w =>
    have hle := Coded.length_le h appendVarUInt_ne_nil
    show data.length ≤ 8 * w.length
    omega
  | double w =>
    have hle := Coded.length_le h appendUInt64_ne_nil
    show data.length ≤ 8 * (8 + w.length)
    omega
  | string w =>
    have hle := Coded.length_le h fun v => appendUInt32_append_ne_nil v.length v
    show data.length ≤ 8 * w.length
    omega

/-- A column has no more entries than its body has bits: an entry takes a definition level,
and where these have no bits, there are no nulls and it takes a value. A body that could be
written at all therefore has a count that fits its field. -/
theorem ColumnWriter.Records.length_le {w : ColumnWriter} {entries : List Entry}
    (h : w.Records entries) (hmax : w.data_writer.DefaultMax) (hd_max : w.d_max < 2 ^ 32) :
    entries.length ≤ 8 * w.commit.bodySize := by
  have hsize : w.commit.bodySize = 32 + w.rlvl_writer.flush.buf.length +
      w.dlvl_writer.flush.buf.length + w.data_writer.commit.size := rfl
  by_cases hzero : w.d_max = 0
  · have hnone : w.dlvl_writer.maxbits = 0 := by
      rw [h.dlvl_bits, hzero]
      rfl
    have hdlvl := h.dlvl
    unfold BitPackEncoder.Encodes at hdlvl
    rw [if_pos hnone] at hdlvl
    have hall : (entries.filterMap Entry.value).length = entries.length := by
      refine List.filterMap_length_eq_length.mpr fun e he => (h.defined e he).mpr ?_
      rw [hzero]
      exact hdlvl.2.2 e.dlvl (List.mem_map_of_mem he)
    have hvalues := h.data.length_le hmax
    omega
  · have hpos : w.dlvl_writer.maxbits ≠ 0 := by
      rw [h.dlvl_bits]
      exact fun hbits => hzero (bits_eq_zero.mp hbits)
    have hlevels := h.dlvl.flush.length_le hpos (h.dlvl_bits ▸ bits_le hd_max)
    rw [List.length_map] at hlevels
    omega

end v1

end CStable
