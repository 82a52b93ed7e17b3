import CStable.Proofs.StreamBounds

/-!
# `CStable.Proofs.DataBounds`: the bytes a data stream takes

The classes of column readers, by the bytes their values take (`dataExtent`): a class
reads bit-packed blocks, behind its maximum if it has one, or walks through bytes. One
more value stays in the memory or is a fault (`DataReader.Asked.fetch`), class by class
through one lemma for those that walk (`fetchesInside_bytes`) and one for those that
unpack (`fetch_of_taken`).

`dataRegion` bounds what any number of values takes, by the size alone. The values
themselves are of the type of their class and can be converted by every read function
(`answerOf_noFault`), so that nothing else in a read can go wrong.
-/

set_option autoImplicit false

namespace CStable

open Support
open CxxM (exec exec_step)

namespace v1

/-! ### What values take -/

/-- The bytes that `n` values take from the data stream of a class, with the maximum in
front of a bit-packed one. -/
def dataExtent (mem : Mapping) (encoding : ColumnEncoding) (address size n : Nat) : Nat :=
  match encoding with
  | .BOOLEAN_BITPACKED => packedExtent 1 size n
  | .UINT32_BITPACKED =>
    4 + packedExtent (bits (leNat (readAt mem address 4) % 2 ^ 32)) ((size + 2 ^ 64 - 4) % 2 ^ 64) n
  | .UINT32_PLAIN => (afterBytes 4 size)^[n] 0
  | .UINT64_PLAIN => (afterBytes 8 size)^[n] 0
  | .UINT64_LEB128 => (afterVarUInt mem address size)^[n] 0
  | .FLOAT_IEEE754 => (afterBytes 8 size)^[n] 0
  | .STRING_PLAIN => (afterText mem address size)^[n] 0

/-- The bytes that the values of a class can take from a stream of the size: the blocks
or the values of a fixed width that fit into it as a whole. For numbers in LEB128 and for
strings it depends on the bytes where they end, and the size is all there is to say. -/
def dataRegion (mem : Mapping) (encoding : ColumnEncoding) (address size : Nat) : Nat :=
  match encoding with
  | .BOOLEAN_BITPACKED => wholeBlocks 1 size
  | .UINT32_BITPACKED =>
    4 + wholeBlocks (bits (leNat (readAt mem address 4) % 2 ^ 32)) ((size + 2 ^ 64 - 4) % 2 ^ 64)
  | .UINT32_PLAIN => 4 * (size / 4)
  | .UINT64_PLAIN | .FLOAT_IEEE754 => 8 * (size / 8)
  | .UINT64_LEB128 | .STRING_PLAIN => size

/-- No number of values takes more than the region. The region is a bound that does not depend
on the values, which the extent does for LEB128 and strings. -/
theorem dataExtent_le (mem : Mapping) (encoding : ColumnEncoding) (address size n : Nat) :
    dataExtent mem encoding address size n ≤ dataRegion mem encoding address size := by
  have hwidth : ∀ {width : Nat}, 0 < width →
      (afterBytes width size)^[n] 0 ≤ width * (size / width) := fun {width} hpos => by
    rw [iterate_afterBytes hpos]
    exact Nat.mul_le_mul_left _ (Nat.min_le_right _ _)
  cases encoding with
  | BOOLEAN_BITPACKED => exact packedExtent_le 1 size n
  | UINT32_BITPACKED => exact Nat.add_le_add_left (packedExtent_le _ _ n) 4
  | UINT32_PLAIN => exact hwidth (by norm_num)
  | UINT64_PLAIN => exact hwidth (by norm_num)
  | UINT64_LEB128 => exact iterate_le (fun _ => afterVarUIntFrom_le) n
  | FLOAT_IEEE754 => exact hwidth (by norm_num)
  | STRING_PLAIN => exact iterate_le (fun _ => afterText_le) n

/-- Some number of values takes all of it, for the classes whose values all have one
width. -/
theorem exists_dataExtent {encoding : ColumnEncoding} (hleb128 : encoding ≠ .UINT64_LEB128)
    (hstring : encoding ≠ .STRING_PLAIN) (mem : Mapping) (address size : Nat) :
    ∃ n, dataExtent mem encoding address size n = dataRegion mem encoding address size := by
  have hpacked : ∀ maxbits size, ∃ n, packedExtent maxbits size n = wholeBlocks maxbits size := by
    intro maxbits size
    by_cases hzero : maxbits = 0
    · exact ⟨0, by simp [hzero, packedExtent, wholeBlocks]⟩
    · exact ⟨_, packedExtent_full size hzero⟩
  have hwidth : ∀ {width : Nat}, 0 < width →
      (afterBytes width size)^[size / width] 0 = width * (size / width) := fun hpos => by
    rw [iterate_afterBytes hpos, Nat.min_self]
  cases encoding with
  | BOOLEAN_BITPACKED => exact hpacked 1 size
  | UINT32_BITPACKED =>
    obtain ⟨n, hn⟩ := hpacked (bits (leNat (readAt mem address 4) % 2 ^ 32))
      ((size + 2 ^ 64 - 4) % 2 ^ 64)
    exact ⟨n, congrArg (4 + ·) hn⟩
  | UINT32_PLAIN => exact ⟨size / 4, hwidth (by norm_num)⟩
  | UINT64_PLAIN => exact ⟨size / 8, hwidth (by norm_num)⟩
  | UINT64_LEB128 => exact absurd rfl hleb128
  | FLOAT_IEEE754 => exact ⟨size / 8, hwidth (by norm_num)⟩
  | STRING_PLAIN => exact absurd rfl hstring

/-! ### One more value -/

namespace DataReader

/-- A data stream that `n` values have been asked of. -/
def Asked (mem : Mapping) (address size n : Nat) : DataReader → Prop
  | boolean d => d.Taken mem address size 1 (packedCount 1 size n)
  | bitPackedInt _ d => address + 4 ≤ mem.length ∧
    d.Taken mem (address + 4) ((size + 2 ^ 64 - 4) % 2 ^ 64)
      (bits (leNat (readAt mem address 4) % 2 ^ 32))
      (packedCount (bits (leNat (readAt mem address 4) % 2 ^ 32)) ((size + 2 ^ 64 - 4) % 2 ^ 64) n)
  | uint32 r => r = ⟨address, size, (afterBytes 4 size)^[n] 0⟩
  | uint64 r => r = ⟨address, size, (afterBytes 8 size)^[n] 0⟩
  | leb128 r => r = ⟨address, size, (afterVarUInt mem address size)^[n] 0⟩
  | double r => r = ⟨address, size, (afterBytes 8 size)^[n] 0⟩
  | string r => r = ⟨address, size, (afterText mem address size)^[n] 0⟩

section

variable {mem : Mapping} {address size n : Nat}

/-- What the next value does to a data stream: it is read or the stream has ended, and
the bytes it takes are in the memory; or they are not, and it is a fault. -/
def FetchesInside (mem : Mapping) (address size n : Nat) (d : DataReader) : Prop :=
  (Inside mem address (dataExtent mem d.encoding address size (n + 1)) ∧
    NoFault (exec (DataReader.fetch mem) d).1 ∧
    (exec (DataReader.fetch mem) d).2.Asked mem address size (n + 1) ∧
    (exec (DataReader.fetch mem) d).2.encoding = d.encoding) ∨
  (¬Inside mem address (dataExtent mem d.encoding address size (n + 1)) ∧
    (exec (DataReader.fetch mem) d).1 = .error .fault)

/-- A class whose values are read by a computation on a message reader. The last three
hypotheses say that `wrap` makes a reader of the class. -/
theorem fetchesInside_bytes {α : Type} {x : CxxM BinaryMessageReader α}
    {after : Nat → Nat → Nat → Nat} (hx : BinaryMessageReader.Walks mem x after)
    {wrap : BinaryMessageReader → DataReader} {value : α → Datum}
    (hfetch : ∀ r, exec (DataReader.fetch mem) (wrap r) =
      ((exec x r).1.map value, wrap (exec x r).2))
    (hextent : ∀ r k, dataExtent mem (wrap r).encoding address size k = (after address size)^[k] 0)
    (hasked : ∀ r k, (wrap r).Asked mem address size k ↔
      r = ⟨address, size, (after address size)^[k] 0⟩)
    (hclass : ∀ r r', (wrap r).encoding = (wrap r').encoding) {r : BinaryMessageReader}
    (h : (wrap r).Asked mem address size n)
    (hin : Inside mem address (dataExtent mem (wrap r).encoding address size n)) :
    FetchesInside mem address size n (wrap r) := by
  obtain rfl := (hasked r n).mp h
  unfold FetchesInside
  rw [hextent] at hin ⊢
  rw [hfetch, Function.iterate_succ_apply']
  rcases hx ⟨address, size, (after address size)^[n] 0⟩ hin with ⟨hin', hfault, hstate⟩ |
    ⟨hout, hfault⟩
  · refine Or.inl ⟨hin', hfault.map, (hasked _ _).mpr ?_, hclass _ _⟩
    rw [hstate, Function.iterate_succ_apply']
  · refine Or.inr ⟨hout, ?_⟩
    show (exec x _).1.map value = _
    rw [hfault]
    rfl

/-- A class whose values are bit-packed. Both bit-packed classes wrap the same decoder, so what
holds of the decoder carries over through `wrap`. -/
theorem fetch_of_taken {maxbits base stream_size : Nat} {d : BitPackDecoder}
    {wrap : BitPackDecoder → DataReader}
    (hnext : ∀ d, DataReader.next mem (wrap d) =
      (d.next mem).map fun p => (.unsignedInt p.1, wrap p.2))
    (hfetch : ∀ d, exec (DataReader.fetch mem) (wrap d) =
      exec (CxxM.step (DataReader.next mem)) (wrap d))
    (h : d.Taken mem base stream_size maxbits (packedCount maxbits stream_size n))
    (hin : Inside mem base (packedExtent maxbits stream_size n)) :
    (Inside mem base (packedExtent maxbits stream_size (n + 1)) ∧
      NoFault (exec (DataReader.fetch mem) (wrap d)).1 ∧
      ∃ d', (exec (DataReader.fetch mem) (wrap d)).2 = wrap d' ∧
        d'.Taken mem base stream_size maxbits (packedCount maxbits stream_size (n + 1))) ∨
    (¬Inside mem base (packedExtent maxbits stream_size (n + 1)) ∧
      (exec (DataReader.fetch mem) (wrap d)).1 = .error .fault) := by
  rw [hfetch, exec_step, hnext]
  rcases h.next hin with ⟨hcount, hend⟩ | ⟨-, hout, hfault⟩ | ⟨-, hin', d', hvalue, htaken⟩
  · rw [hend, packedExtent, hcount]
    exact Or.inl ⟨hin, .raise _ _, d, rfl, h⟩
  · rw [hfault]
    exact Or.inr ⟨hout, rfl⟩
  · rw [hvalue]
    exact Or.inl ⟨hin', .ok _, d', rfl, htaken⟩

/-- Booleans are bit-packed at the address of the stream, with one bit each and no maximum in
front. -/
theorem fetchesInside_boolean {d : BitPackDecoder}
    (h : (boolean d).Asked mem address size n)
    (hin : Inside mem address (dataExtent mem (boolean d).encoding address size n)) :
    FetchesInside mem address size n (boolean d) := by
  rcases fetch_of_taken (next_boolean mem) (fun _ => rfl) h hin with
    ⟨hin', hfault, d', hstate, htaken⟩ | hout
  · exact Or.inl ⟨hin', hfault, by rw [hstate]; exact htaken, by rw [hstate]; rfl⟩
  · exact Or.inr hout

/-- The maximum of a bit-packed column is in front of its values. Once it is inside, the rest
may be looked at from behind it. -/
theorem inside_add {width k : Nat} (h : address + width ≤ mem.length) :
    Inside mem address (width + k) ↔ Inside mem (address + width) k := by
  unfold Inside
  omega

/-- The numbers of a bit-packed column start behind the maximum, which was in the memory
when the reader was made. -/
theorem fetchesInside_bitPackedInt {max_value : Nat} {d : BitPackDecoder}
    (h : (bitPackedInt max_value d).Asked mem address size n)
    (hin : Inside mem address
      (dataExtent mem (bitPackedInt max_value d).encoding address size n)) :
    FetchesInside mem address size n (bitPackedInt max_value d) := by
  obtain ⟨hmem, htaken⟩ := h
  have hextent : ∀ k, Inside mem address (dataExtent mem .UINT32_BITPACKED address size k) ↔
      Inside mem (address + 4) (packedExtent (bits (leNat (readAt mem address 4) % 2 ^ 32))
        ((size + 2 ^ 64 - 4) % 2 ^ 64) k) := fun k => inside_add hmem
  unfold FetchesInside
  rw [show (bitPackedInt max_value d).encoding = .UINT32_BITPACKED from rfl, hextent] at hin ⊢
  rcases fetch_of_taken (next_bitPackedInt mem max_value) (fun _ => rfl) htaken hin with
    ⟨hin', hfault, d', hstate, htaken'⟩ | hout
  · exact Or.inl ⟨hin', hfault, by rw [hstate]; exact ⟨hmem, htaken'⟩, by rw [hstate]; rfl⟩
  · exact Or.inr hout

/-- Four bytes and what they stand for. The number is made after the bytes were read, so it adds
no way to fail. -/
theorem readUInt32_eq (r : BinaryMessageReader) :
    r.readUInt32 mem = (r.read mem 4).map fun p => (leNat p.1, p.2) := by
  unfold BinaryMessageReader.readUInt32
  cases r.read mem 4 <;> rfl

/-- Eight bytes and what they stand for, in the same way. -/
theorem readUInt64_eq (r : BinaryMessageReader) :
    r.readUInt64 mem = (r.read mem 8).map fun p => (leNat p.1, p.2) := by
  unfold BinaryMessageReader.readUInt64
  cases r.read mem 8 <;> rfl

/-- One more value of any class stays in the memory, or is a fault and what it takes is
not in the memory. -/
theorem Asked.fetch {d : DataReader} (h : d.Asked mem address size n)
    (hin : Inside mem address (dataExtent mem d.encoding address size n)) :
    FetchesInside mem address size n d := by
  have hwidth₄ : BinaryMessageReader.Walks mem (CxxM.step fun r => r.readUInt32 mem)
      fun _ => afterBytes 4 := BinaryMessageReader.walks_bytes (by norm_num) readUInt32_eq
  have hwidth₈ : BinaryMessageReader.Walks mem (CxxM.step fun r => r.readUInt64 mem)
      fun _ => afterBytes 8 := BinaryMessageReader.walks_bytes (by norm_num) readUInt64_eq
  -- one lemma for the packed classes, one for those that read bytes
  cases d with
  | boolean d => exact fetchesInside_boolean h hin
  | bitPackedInt max_value d => exact fetchesInside_bitPackedInt h hin
  | uint32 r =>
    exact fetchesInside_bytes hwidth₄ (fetch_uint32 mem) (fun _ _ => rfl) (fun _ _ => Iff.rfl)
      (fun _ _ => rfl) h hin
  | uint64 r =>
    exact fetchesInside_bytes hwidth₈ (fetch_uint64 mem) (fun _ _ => rfl) (fun _ _ => Iff.rfl)
      (fun _ _ => rfl) h hin
  | leb128 r =>
    exact fetchesInside_bytes BinaryMessageReader.walks_varUInt (fetch_leb128 mem)
      (fun _ _ => rfl) (fun _ _ => Iff.rfl) (fun _ _ => rfl) h hin
  | double r =>
    exact fetchesInside_bytes hwidth₈ (fetch_double mem) (fun _ _ => rfl) (fun _ _ => Iff.rfl)
      (fun _ _ => rfl) h hin
  | string r =>
    exact fetchesInside_bytes BinaryMessageReader.walks_text (fetch_string mem)
      (fun _ _ => rfl) (fun _ _ => Iff.rfl) (fun _ _ => rfl) h hin

/-- The constructor reads the maximum of a bit-packed column, whatever the size of the
stream is. -/
theorem new_asked (mem : Mapping) (encoding : ColumnEncoding) (address size : Nat) :
    (Inside mem address (dataExtent mem encoding address size 0) ∧
      ∃ d, DataReader.new mem encoding address size = .ok d ∧ d.Asked mem address size 0 ∧
        d.encoding = encoding) ∨
    (¬Inside mem address (dataExtent mem encoding address size 0) ∧
      DataReader.new mem encoding address size = .error .fault) := by
  cases encoding with
  | UINT32_BITPACKED =>
    have hextent : dataExtent mem .UINT32_BITPACKED address size 0 = 4 := by
      rw [dataExtent, packedExtent_zero]
    rw [hextent]
    unfold DataReader.new
    by_cases hmem : address + 4 ≤ mem.length
    · rw [load_ok hmem]
      refine Or.inl ⟨Or.inr hmem, _, rfl, ⟨hmem, ?_⟩, rfl⟩
      have htaken := BitPackDecoder.taken_new mem (address + 4) ((size + 2 ^ 64 - 4) % 2 ^ 64)
        (leNat (readAt mem address 4))
      rwa [packedCount_zero]
    · rw [load_fault hmem]
      exact Or.inr ⟨by unfold Inside; omega, rfl⟩
  | BOOLEAN_BITPACKED =>
    refine Or.inl ⟨Or.inl (packedExtent_zero 1 size), _, rfl, ?_, rfl⟩
    have htaken := BitPackDecoder.taken_new mem address size 1
    show BitPackDecoder.Taken mem address size 1 (packedCount 1 size 0) _
    rwa [packedCount_zero]
  | _ => exact Or.inl ⟨Or.inl rfl, _, rfl, rfl, rfl⟩

end

end DataReader

/-! ### Conversions -/

namespace ColumnReader

/-- A value that a read returns is of the kind of the class. A typed view converts from this
kind, so its conversion is one of those the class has. -/
theorem kind_of_fetchNext {mem : Mapping} {c : ColumnReader} {e : Entry} {v : Datum}
    (h : (exec (fetchNext mem) c).1 = .ok e) (hv : e.value = some v) :
    v.OfKind c.data_reader.encoding := by
  cases hread : c.readNext mem with
  | error err =>
    rw [(fetchNext_extends mem).error _ _ hread] at h
    cases h
  | ok p =>
    rw [(fetchNext_extends mem).ok _ _ _ hread] at h
    obtain rfl : p.1 = e := Except.ok.inj h
    exact (reads_readNext hread).kind v hv

/-- A value of a class is converted by every read function, or the conversion raises: a
text may not be a number. The conversions that do not exist are those between the kinds
that no class has. -/
theorem conversions_noFault {ops : FloatOps} (hstod : ∀ s, NoFault (ops.stod s))
    {encoding : ColumnEncoding} {v : Datum} (hv : v.OfKind encoding) :
    NoFault (asBoolean ops encoding v) ∧ NoFault (asUnsignedInt ops encoding v) ∧
      NoFault (asSignedInt ops encoding v) ∧ NoFault (asFloat ops encoding v) ∧
      NoFault (asString ops encoding v) := by
  cases hv with
  | integer hint =>
    cases encoding with
    | FLOAT_IEEE754 => exact absurd rfl hint.1
    | STRING_PLAIN => exact absurd rfl hint.2
    | _ => exact ⟨.ok _, .ok _, .ok _, .ok _, .ok _⟩
  | float => exact ⟨.ok _, .ok _, .ok _, .ok _, .ok _⟩
  | string => exact ⟨.ok _, (stoull_noFault _).map, stoll_noFault _, hstod _, .ok _⟩

/-- What a call makes of an entry with a value of the class returns or raises. The only
conversions from outside are those of a text to a number, and `hstod` is about the one that is a
parameter. -/
theorem answerOf_noFault {ops : FloatOps} (hstod : ∀ s, NoFault (ops.stod s))
    {encoding : ColumnEncoding} {e : Entry} (k : ReaderCall)
    (hclass : ∀ v, e.value = some v → v.OfKind encoding) :
    NoFault (answerOf ops encoding e k) := by
  have hview : ∀ {α : Type} {convert : ColumnEncoding → Datum → Result α} (default : α),
      (∀ v, v.OfKind encoding → NoFault (convert encoding v)) →
      NoFault (viewOf convert default encoding e) := by
    intro α convert default hconvert
    unfold viewOf
    cases hvalue : e.value with
    | none => exact .ok _
    | some v => exact (hconvert v (hclass v hvalue)).map
  have hboolean : NoFault (viewOf (asBoolean ops) false encoding e) :=
    hview _ fun _ hv => (conversions_noFault hstod hv).1
  have hunsigned : NoFault (viewOf (asUnsignedInt ops) 0 encoding e) :=
    hview _ fun _ hv => (conversions_noFault hstod hv).2.1
  have hsigned : NoFault (viewOf (asSignedInt ops) 0 encoding e) :=
    hview _ fun _ hv => (conversions_noFault hstod hv).2.2.1
  have hfloat : NoFault (viewOf (asFloat ops) 0 encoding e) :=
    hview _ fun _ hv => (conversions_noFault hstod hv).2.2.2.1
  have hstring : NoFault (viewOf (asString ops) [] encoding e) :=
    hview _ fun _ hv => (conversions_noFault hstod hv).2.2.2.2
  -- a skip converts as the value of its class is read
  cases k with
  | nextRepetitionLevel => exact .ok _
  | readBoolean => exact hboolean.map
  | readUnsignedInt => exact hunsigned.map
  | readSignedInt => exact hsigned.map
  | readFloat => exact hfloat.map
  | readString => exact hstring.map
  | skipValue =>
    cases encoding with
    | BOOLEAN_BITPACKED => exact hboolean.map
    | FLOAT_IEEE754 => exact hfloat.map
    | STRING_PLAIN => exact hstring.map
    | _ => exact hunsigned.map

end ColumnReader

end v1

end CStable
