import CStable.Stx.Exception

/-!
# `CStable.Stx.SHA1`: the checksum

`SHA1::compute` of `stx/SHA1.cc`. The round buffer `w` of eighty words is
produced as a list: `expand` yields the words 16 to 79 from a window of the
sixteen words before them. The positions are `int`s in the source, so this is
the code's behaviour for inputs below two gigabytes; the callers hash 36 bytes.
-/

set_option autoImplicit false

namespace CStable.SHA1

/-- The five words of the running hash. -/
structure Words where
  a : UInt32
  b : UInt32
  c : UInt32
  d : UInt32
  e : UInt32
  deriving DecidableEq, Repr

/-- Rotate left; `steps` is between 1 and 31. -/
def rol (value steps : UInt32) : UInt32 :=
  (value <<< steps) ||| (value >>> (32 - steps))

/-- One round with the mixing word `func` and the constant `val`. -/
def sha1macro (s : Words) (func val w : UInt32) : Words :=
  ⟨rol s.a 5 + func + s.e + val + w, s.a, rol s.b 30, s.c, s.d⟩

/-- The mixing function and constant of the round with the given number. -/
def step (s : Words) (w : UInt32) (round : Nat) : Words :=
  if round < 20 then
    sha1macro s ((s.b &&& s.c) ||| (~~~ s.b &&& s.d)) 0x5a827999 w
  else if round < 40 then
    sha1macro s (s.b ^^^ s.c ^^^ s.d) 0x6ed9eba1 w
  else if round < 60 then
    sha1macro s ((s.b &&& s.c) ||| (s.b &&& s.d) ||| (s.c &&& s.d)) 0x8f1bbcdc w
  else
    sha1macro s (s.b ^^^ s.c ^^^ s.d) 0xca62c1d6 w

/-- The next `n` words of the round buffer after a window of sixteen. -/
def expand : Nat → List UInt32 → List UInt32
  | 0, _ => []
  | n + 1, win =>
    let x := rol (win.getD 13 0 ^^^ win.getD 8 0 ^^^ win.getD 2 0 ^^^ win.getD 0 0) 1
    x :: expand n (win.tail ++ [x])

/-- Mix a block of sixteen words into the running hash. -/
def innerHash (result : Words) (w : List UInt32) : Words :=
  let s := ((w ++ expand 64 w).zipIdx).foldl (fun s x => step s x.1 x.2) result
  ⟨result.a + s.a, result.b + s.b, result.c + s.c, result.d + s.d, result.e + s.e⟩

/-- `n` big-endian words; missing bytes count as zero. -/
def bigEndianWords : Nat → Bytes → List UInt32
  | 0, _ => []
  | n + 1, bs =>
    let w := (bs.getD 0 0).toUInt32 <<< 24 ||| (bs.getD 1 0).toUInt32 <<< 16 |||
      (bs.getD 2 0).toUInt32 <<< 8 ||| (bs.getD 3 0).toUInt32
    w :: bigEndianWords n (bs.drop 4)

/-- Mix in `n` complete blocks of 64 bytes; the bytes after them are left. -/
def fullBlocks : Nat → Words → Bytes → Words × Bytes
  | 0, result, data => (result, data)
  | n + 1, result, data =>
    fullBlocks n (innerHash result (bigEndianWords 16 data)) (data.drop 64)

/-- The four bytes of a word, most significant first. -/
def wordBytes (x : UInt32) : Bytes :=
  [(x >>> 24).toUInt8, (x >>> 16).toUInt8, (x >>> 8).toUInt8, x.toUInt8]

/-- The words the hash starts from. -/
def init : Words := ⟨0x67452301, 0xefcdab89, 0x98badcfe, 0x10325476, 0xc3d2e1f0⟩

/-- `SHA1::compute`: the twenty bytes of the hash. -/
def compute (data : Bytes) : Bytes :=
  let (result, last) := fullBlocks (data.length / 64) init data
  -- the last block: the remaining bytes, the bit 0x80 and the length in bits
  let w := bigEndianWords 16 (last ++ [0x80])
  let size := UInt32.ofNat (data.length * 8)
  let result :=
    if last.length ≥ 56 then
      innerHash (innerHash result w) (List.replicate 15 0 ++ [size])
    else
      innerHash result (w.take 15 ++ [size])
  wordBytes result.a ++ wordBytes result.b ++ wordBytes result.c ++ wordBytes result.d ++
    wordBytes result.e

/-- `SHA1Hash::kSize`. -/
def kSize : Nat := 20

/-- A hash has twenty bytes whatever was hashed: five words of 32 bits. -/
@[simp] theorem length_compute (data : Bytes) : (compute data).length = kSize := rfl

/-- The published hash of the text `abc`. -/
example : compute [97, 98, 99] =
    [0xa9, 0x99, 0x3e, 0x36, 0x47, 0x06, 0x81, 0x6a, 0xba, 0x3e, 0x25, 0x71, 0x78, 0x50, 0xc2,
      0x6c, 0x9c, 0xd0, 0xd8, 0x9d] := by
  decide +kernel

/-- A slot that was never written does not pass the check: the hash of 36 zero
bytes is not the zero hash. -/
theorem compute_zeros : compute (List.replicate 36 0) ≠ List.replicate kSize 0 := by
  decide +kernel

end CStable.SHA1
