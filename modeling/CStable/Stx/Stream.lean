import CStable.Stx.Exception
import CStable.Support.Wire

/-!
# `CStable.Stx.Stream`: byte streams

The `append*` functions of `BinaryMessageWriter` and `OutputStream` (the two
classes have the same bodies) are modelled by the bytes they append; the host
is little-endian, as the `memcpy` of the integers assumes. The integer argument
is converted to the width of the parameter, so its value counts modulo that
width only.

The `read*` functions of `InputStream` and `FileInputStream` take the bytes left
in the stream and return the value with the bytes after it. The blocks of
`FileInputStream` are not visible to a caller and are left out.

Each `parses_*` theorem is the round trip of one pair of functions. The `strict_*`
theorems add that the read raises on a stream that ends early, the `lenient_*`
theorems that it does not; they count an argument modulo the width of its field.
-/

set_option autoImplicit false

namespace CStable

open Support
open Support.Parser

/-! ### `BinaryMessageWriter` and `OutputStream` -/

/-- `appendUInt16`. -/
def appendUInt16 (value : Nat) : Bytes := leBytes 2 value

/-- `appendUInt32`. -/
def appendUInt32 (value : Nat) : Bytes := leBytes 4 value

/-- `appendUInt64`. -/
def appendUInt64 (value : Nat) : Bytes := leBytes 8 value

/-- `appendVarUInt`: at most ten bytes, enough for 64 bits. -/
def appendVarUInt (value : Nat) : Bytes := Leb128.encode 10 (value % 2 ^ 64)

/-- `appendLenencString`. -/
def appendLenencString (string : Bytes) : Bytes := appendVarUInt string.length ++ string

/-- The fields of fixed width take their width whatever the number is; a larger number loses its
high bytes. -/
@[simp] theorem length_appendUInt16 (n : Nat) : (appendUInt16 n).length = 2 :=
  leBytes_length 2 n

/-- As for 16 bits: four bytes for every number. -/
@[simp] theorem length_appendUInt32 (n : Nat) : (appendUInt32 n).length = 4 :=
  leBytes_length 4 n

/-- As for 16 bits: eight bytes for every number. -/
@[simp] theorem length_appendUInt64 (n : Nat) : (appendUInt64 n).length = 8 :=
  leBytes_length 8 n

/-- A number of variable length has at least one byte. What is built from such numbers
can not be read at the end of a stream, and has no more parts than bytes. -/
theorem appendVarUInt_ne_nil (n : Nat) : appendVarUInt n ≠ [] := by
  unfold appendVarUInt Leb128.encode
  split_ifs <;> exact List.cons_ne_nil _ _

/-! ### `InputStream` -/

/-- A read from an input stream. -/
abbrev Read (α : Type) := Parser UInt8 Abort α

/-- The exception of a read past the end. -/
def kUnexpectedEnd : Abort := .raised ⟨.kEOFError, "unexpected end of stream", []⟩

/-- `readNextBytes`: at most `n_bytes` bytes, fewer where the stream ends. -/
def readNextBytes (n_bytes : Nat) : Read Bytes :=
  fun is => .ok (is.take n_bytes, is.drop n_bytes)

/-- `skipNextBytes` of `FileInputStream`: a seek, also past the end. -/
def skipNextBytes (n_bytes : Nat) : Read Unit :=
  fun is => .ok ((), is.drop n_bytes)

/-- Exactly `size` bytes, or the exception of a read past the end. -/
def readString (size : Nat) : Read Bytes := do
  let val ← readNextBytes size
  if val.length ≠ size then throw kUnexpectedEnd else pure val

/-- `readUInt32`. -/
def readUInt32 : Read Nat := leNat <$> readString 4

/-- `readUInt64`. -/
def readUInt64 : Read Nat := leNat <$> readString 8

/-- `readVarUInt`. -/
def readVarUInt : Read Nat := Leb128.decode 64 kUnexpectedEnd

/-- `readLenencString`. -/
def readLenencString : Read Bytes := do
  let size ← readVarUInt
  readString size

/-! ### Round trips -/

/-- Bytes that are there are read as they are. -/
theorem parses_readNextBytes (bs : Bytes) : Parses (readNextBytes bs.length) bs bs := by
  intro rest
  rw [readNextBytes, List.take_left, List.drop_left]

/-- Skipping takes as many bytes off the stream as reading, and returns none of them. -/
theorem parses_skipNextBytes (bs : Bytes) : Parses (skipNextBytes bs.length) bs () := by
  intro rest
  rw [skipNextBytes, List.drop_left]

/-- A string of a length that is known is its bytes. -/
theorem parses_readString (bs : Bytes) : Parses (readString bs.length) bs bs := by
  intro rest
  rw [readString, run_bind, parses_readNextBytes bs rest]
  simp only [ne_eq, not_true_eq_false, if_false]
  rfl

/-- A number that fits into 32 bits comes back from its four bytes. A larger one comes back
modulo the range, see `strict_readUInt32`. -/
theorem parses_readUInt32 {n : Nat} (h : n < 2 ^ 32) :
    Parses readUInt32 (appendUInt32 n) n := by
  have hs := parses_readString (appendUInt32 n)
  rw [length_appendUInt32] at hs
  have hval : leNat (appendUInt32 n) = n := leNat_leBytes_of_lt h
  have hread := hs.map leNat
  rwa [hval] at hread

/-- A number that fits into 64 bits comes back from its eight bytes. -/
theorem parses_readUInt64 {n : Nat} (h : n < 2 ^ 64) :
    Parses readUInt64 (appendUInt64 n) n := by
  have hs := parses_readString (appendUInt64 n)
  rw [length_appendUInt64] at hs
  have hval : leNat (appendUInt64 n) = n := leNat_leBytes_of_lt h
  have hread := hs.map leNat
  rwa [hval] at hread

/-- A number that fits into 64 bits comes back from its LEB128 groups, ten bytes at most. -/
theorem parses_readVarUInt {n : Nat} (h : n < 2 ^ 64) :
    Parses readVarUInt (appendVarUInt n) n := by
  rw [appendVarUInt, Nat.mod_eq_of_lt h]
  exact Leb128.decode_encode kUnexpectedEnd (by norm_num) (by norm_num)
    (lt_of_lt_of_le h (by norm_num)) h

/-- A string comes back from its length and its bytes, as long as the length is a `size_t`. The
length is in LEB128. -/
theorem parses_readLenencString {s : Bytes} (h : s.length < 2 ^ 64) :
    Parses readLenencString (appendLenencString s) s :=
  (parses_readVarUInt h).bind (parses_readString s)

/-! ### Streams that end early -/

/-- A string that is cut off raises: `readNextBytes` asks for all of its bytes at once. -/
theorem strict_readString (bs : Bytes) : Strict Abort.IsRaised (readString bs.length) bs bs := by
  refine ⟨parses_readString bs, fun us hus hne => ⟨kUnexpectedEnd, ⟨_, rfl⟩, ?_⟩⟩
  have hshort : (us.take bs.length).length ≠ bs.length := by
    intro hlen
    rw [List.length_take] at hlen
    exact hne (hus.eq_of_length_le (by omega))
  rw [readString, run_bind, readNextBytes]
  dsimp only
  rw [if_pos hshort]
  rfl

/-- A number that is cut off raises. Numbers out of range are covered as well, because their low
32 bits are what is written. -/
theorem strict_readUInt32 (n : Nat) :
    Strict Abort.IsRaised readUInt32 (appendUInt32 n) (n % 2 ^ 32) := by
  have hs := (strict_readString (appendUInt32 n)).bind_pure (g := leNat)
  rw [length_appendUInt32] at hs
  have hval : leNat (appendUInt32 n) = n % 2 ^ 32 := leNat_leBytes 4 n
  rwa [hval] at hs

/-- The same for eight bytes. -/
theorem strict_readUInt64 (n : Nat) :
    Strict Abort.IsRaised readUInt64 (appendUInt64 n) (n % 2 ^ 64) := by
  have hs := (strict_readString (appendUInt64 n)).bind_pure (g := leNat)
  rw [length_appendUInt64] at hs
  have hval : leNat (appendUInt64 n) = n % 2 ^ 64 := leNat_leBytes 8 n
  rwa [hval] at hs

/-- The same for LEB128: every byte but the last announces another one, so none can be
missing. -/
theorem strict_readVarUInt (n : Nat) :
    Strict Abort.IsRaised readVarUInt (appendVarUInt n) (n % 2 ^ 64) := by
  have hparse := parses_readVarUInt (Nat.mod_lt n (show 0 < 2 ^ 64 by norm_num))
  have hmod : appendVarUInt (n % 2 ^ 64) = appendVarUInt n := by
    rw [appendVarUInt, Nat.mod_mod, appendVarUInt]
  rw [hmod] at hparse
  exact ⟨hparse, fun us hus hne => ⟨kUnexpectedEnd, ⟨_, rfl⟩,
    Leb128.decodeFrom_short 64 kUnexpectedEnd 10 0 0 _ hus hne⟩⟩

/-- A string is cut off in its length or in its bytes, and both raise. The two cases are those
of a cut in an append. -/
theorem strict_readLenencString {s : Bytes} (h : s.length < 2 ^ 64) :
    Strict Abort.IsRaised readLenencString (appendLenencString s) s := by
  have hlen := strict_readVarUInt s.length
  rw [Nat.mod_eq_of_lt h] at hlen
  exact hlen.bind (strict_readString s)

/-- Skipping does not raise at the end of the stream; it takes what there is. Only what is read
after it finds out that the stream was cut off. -/
theorem lenient_skipNextBytes (bs : Bytes) : Lenient (skipNextBytes bs.length) bs () := by
  refine ⟨parses_skipNextBytes bs, fun us hus _ => ⟨(), ?_⟩⟩
  rw [skipNextBytes, List.drop_of_length_le hus.length_le]

end CStable
