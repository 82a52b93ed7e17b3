import CStable.Columns.V1.Reader

/-!
# `CStable.Proofs.ReaderClasses`: what the column reader classes have in common

The seven classes of `DataReader` differ in the stream they read and in what they make
of a value. Here is one lemma per class, which says what is read and what is made of it
(`next_boolean`, …, `next_string`). The facts that hold of every class are case splits over
these: a reader stays in its class, and its values are of the kind of the class
(`next_spec`). The other modules about reading a column use the classes through them.
-/

set_option autoImplicit false

namespace CStable

open Support

namespace v1

/-- The encodings of the integer classes and the boolean one. -/
def IsInteger (encoding : ColumnEncoding) : Prop :=
  encoding ≠ .FLOAT_IEEE754 ∧ encoding ≠ .STRING_PLAIN

/-- The kind of value an encoding stores. -/
inductive Datum.OfKind : ColumnEncoding → Datum → Prop
  | integer {encoding : ColumnEncoding} {x : Nat} (h : IsInteger encoding) :
    OfKind encoding (.unsignedInt x)
  | float {x : Nat} : OfKind .FLOAT_IEEE754 (.float x)
  | string {s : Bytes} : OfKind .STRING_PLAIN (.string s)

/-- A value of an integer class is an integer: the other two kinds belong to the two
encodings that `IsInteger` leaves out. -/
theorem Datum.OfKind.exists_integer {encoding : ColumnEncoding} {v : Datum}
    (h : v.OfKind encoding) (hint : IsInteger encoding) : ∃ x, v = .unsignedInt x := by
  cases h with
  | @integer _ x _ => exact ⟨x, rfl⟩
  | float => exact absurd rfl hint.1
  | string => exact absurd rfl hint.2

namespace DataReader

variable {mem : Mapping} {v : Datum} {r' : DataReader}

/-! ### One lemma per class -/

/-- A read that wraps up what it has read returns where the read does. The classes are
told apart by the two functions only. -/
theorem wrap_ok {α σ : Type} {x : Result (α × σ)} {f : α → Datum} {g : σ → DataReader} :
    (x.map fun p => (f p.1, g p.2)) = .ok (v, r') ↔
      ∃ a s, x = .ok (a, s) ∧ v = f a ∧ r' = g s := by
  constructor
  · intro h
    cases x with
    | error e => cases h
    | ok p =>
      cases h
      exact ⟨p.1, p.2, rfl, rfl, rfl⟩
  · rintro ⟨a, s, rfl, rfl, rfl⟩
    rfl

/-- The form in which the classes are written: a read, then a return. -/
theorem bind_wrap {α σ : Type} (x : Result (α × σ)) (f : α → Datum) (g : σ → DataReader) :
    (x >>= fun p => Except.ok (f p.1, g p.2)) = x.map fun p => (f p.1, g p.2) := by
  cases x <;> rfl

/-- `BooleanColumnReader` decodes a bit. -/
theorem next_boolean (mem : Mapping) (d : BitPackDecoder) :
    next mem (boolean d) = (d.next mem).map fun p => (.unsignedInt p.1, boolean p.2) :=
  bind_wrap _ _ _

/-- `BitPackedIntColumnReader` decodes as many bits as its maximum takes. -/
theorem next_bitPackedInt (mem : Mapping) (max_value : Nat) (d : BitPackDecoder) :
    next mem (bitPackedInt max_value d) =
      (d.next mem).map fun p => (.unsignedInt p.1, bitPackedInt max_value p.2) :=
  bind_wrap _ _ _

/-- `UInt32ColumnReader` reads four bytes. -/
theorem next_uint32 (mem : Mapping) (r : BinaryMessageReader) :
    next mem (uint32 r) = (r.readUInt32 mem).map fun p => (.unsignedInt p.1, uint32 p.2) :=
  bind_wrap _ _ _

/-- `UInt64ColumnReader` reads eight bytes. -/
theorem next_uint64 (mem : Mapping) (r : BinaryMessageReader) :
    next mem (uint64 r) = (r.readUInt64 mem).map fun p => (.unsignedInt p.1, uint64 p.2) :=
  bind_wrap _ _ _

/-- `LEB128ColumnReader` reads bytes up to one without the continuation bit. -/
theorem next_leb128 (mem : Mapping) (r : BinaryMessageReader) :
    next mem (leb128 r) = (r.readVarUInt mem).map fun p => (.unsignedInt p.1, leb128 p.2) :=
  bind_wrap _ _ _

/-- `DoubleColumnReader` reads the eight bytes of a bit pattern. -/
theorem next_double (mem : Mapping) (r : BinaryMessageReader) :
    next mem (double r) = (r.readUInt64 mem).map fun p => (.float p.1, double p.2) :=
  bind_wrap _ _ _

/-- `StringColumnReader` reads a length, then as many bytes: the only class with two
reads for a value. -/
theorem next_string (mem : Mapping) (r : BinaryMessageReader) :
    next mem (string r) = (r.readUInt32 mem >>= fun p => p.2.read mem p.1).map
      fun p => (.string p.1, string p.2) := by
  rw [next]
  cases r.readUInt32 mem with
  | error e => rfl
  | ok p =>
    rw [Result.ok_bind, Result.ok_bind]
    dsimp only
    exact bind_wrap _ _ _

/-! ### Every class -/

/-- A reader that has read a value is one of the same class, and the value is of the
kind the class stores. -/
theorem next_spec {r : DataReader} (h : r.next mem = .ok (v, r')) :
    r'.encoding = r.encoding ∧ r'.maxValue = r.maxValue ∧ v.OfKind r.encoding := by
  have hint : ∀ {encoding : ColumnEncoding} {n : Nat}, encoding ≠ .FLOAT_IEEE754 →
      encoding ≠ .STRING_PLAIN → Datum.OfKind encoding (.unsignedInt n) := fun hfloat hstring =>
    .integer ⟨hfloat, hstring⟩
  cases r with
  | boolean d =>
    obtain ⟨n, d', -, rfl, rfl⟩ := wrap_ok.mp ((next_boolean mem d).symm.trans h)
    exact ⟨rfl, rfl, hint (by simp [encoding]) (by simp [encoding])⟩
  | bitPackedInt max_value d =>
    obtain ⟨n, d', -, rfl, rfl⟩ := wrap_ok.mp ((next_bitPackedInt mem max_value d).symm.trans h)
    exact ⟨rfl, rfl, hint (by simp [encoding]) (by simp [encoding])⟩
  | uint32 r =>
    obtain ⟨n, s, -, rfl, rfl⟩ := wrap_ok.mp ((next_uint32 mem r).symm.trans h)
    exact ⟨rfl, rfl, hint (by simp [encoding]) (by simp [encoding])⟩
  | uint64 r =>
    obtain ⟨n, s, -, rfl, rfl⟩ := wrap_ok.mp ((next_uint64 mem r).symm.trans h)
    exact ⟨rfl, rfl, hint (by simp [encoding]) (by simp [encoding])⟩
  | leb128 r =>
    obtain ⟨n, s, -, rfl, rfl⟩ := wrap_ok.mp ((next_leb128 mem r).symm.trans h)
    exact ⟨rfl, rfl, hint (by simp [encoding]) (by simp [encoding])⟩
  | double r =>
    obtain ⟨n, s, -, rfl, rfl⟩ := wrap_ok.mp ((next_double mem r).symm.trans h)
    exact ⟨rfl, rfl, .float⟩
  | string r =>
    obtain ⟨data, s, -, rfl, rfl⟩ := wrap_ok.mp ((next_string mem r).symm.trans h)
    exact ⟨rfl, rfl, .string⟩

end DataReader

/-- What reading an entry does to the reader. -/
structure ColumnReader.Reads (r r' : ColumnReader) (e : Entry) : Prop where
  encoding : r'.data_reader.encoding = r.data_reader.encoding
  maxValue : r'.data_reader.maxValue = r.data_reader.maxValue
  r_max : r'.r_max = r.r_max
  d_max : r'.d_max = r.d_max
  vals_total : r'.vals_total = r.vals_total
  vals_read : r'.vals_read = r.vals_read + 1
  defined : e.value.isSome ↔ e.dlvl = r.d_max
  kind : ∀ v, e.value = some v → v.OfKind r.data_reader.encoding

/-- An entry takes a value from the data stream if its definition level is the maximal
one, and leaves the data stream alone otherwise. -/
theorem ColumnReader.reads_readNext {mem : Mapping} {r r' : ColumnReader} {e : Entry}
    (h : r.readNext mem = .ok (e, r')) : r.Reads r' e := by
  unfold readNext at h
  obtain ⟨⟨rlvl, rr⟩, -, h⟩ := Result.bind_eq_ok.mp h
  obtain ⟨⟨dlvl, dr⟩, -, h⟩ := Result.bind_eq_ok.mp h
  dsimp only at h
  by_cases hd : dlvl = r.d_max
  · rw [if_pos hd] at h
    obtain ⟨⟨v, data_reader⟩, hnext, hret⟩ := Result.bind_eq_ok.mp h
    cases hret
    obtain ⟨henc, hmax, hkind⟩ := DataReader.next_spec hnext
    refine ⟨henc, hmax, rfl, rfl, rfl, rfl, iff_of_true rfl hd, fun w hw => ?_⟩
    cases hw
    exact hkind
  · rw [if_neg hd] at h
    cases h
    exact ⟨rfl, rfl, rfl, rfl, rfl, rfl, iff_of_false (by simp) hd, fun w hw => by cases hw⟩

end v1

end CStable
