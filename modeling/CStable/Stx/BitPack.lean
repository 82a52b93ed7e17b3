import CStable.Stx.Exception
import CStable.Support.BitPack
import CStable.Support.Disk

/-!
# `CStable.Stx.BitPack`: bit-packed integer streams

`BitPackEncoder` and `BitPackDecoder` of `stx/util`, over the block functions of
`3rdparty/simdcomp`. Those are one unrolled function for every bit width; each
runs the shift-and-or loop of `packLane` (`unpackLane`) on the four 32-bit lanes
of a vector register, 32 values a lane, so the definitions here are that loop
with the bit width as a parameter.

Memory a reader is given a pointer into is a `Mapping`: its bytes, addressed
from its beginning. An access outside of it is a fault.
-/

set_option autoImplicit false

namespace CStable

open Support

/-! ### Mapped memory -/

/-- The bytes of a memory mapping. -/
abbrev Mapping := Bytes

/-- `n_bytes` bytes at an address of the mapping. -/
def load (mem : Mapping) (address n_bytes : Nat) : Result Bytes :=
  if address + n_bytes ≤ mem.length then .ok (readAt mem address n_bytes) else .error .fault

/-- The address of a sum of pointers and sizes. It wraps at the end of the address
space; a mapping lies inside of that, so a sum that stays in the mapping is the
address itself. -/
def pointerSum (mem : Mapping) (address : Nat) : Nat :=
  if address ≤ mem.length then address else address % 2 ^ 64

/-- In a mapping that fits the address space, as all do, the sum is taken modulo
`2 ^ 64`. -/
theorem pointerSum_eq_mod {mem : Mapping} (h : mem.length < 2 ^ 64) (address : Nat) :
    pointerSum mem address = address % 2 ^ 64 := by
  unfold pointerSum
  split_ifs with hin
  · rw [Nat.mod_eq_of_lt (by omega)]
  · rfl

/-- Sums that lead nowhere outside of the mapping do not wrap. The regions of a
body that was written are such sums. -/
theorem pointerSum_of_le {mem : Mapping} {address : Nat} (h : address ≤ mem.length) :
    pointerSum mem address = address :=
  if_pos h

/-! ### Blocks of 128 values -/

/-- `bits`: the number of bits a value takes. -/
def bits (v : Nat) : Nat := if v = 0 then 0 else Nat.log2 v + 1

/-- `simdpackwithoutmask`: 128 values to `16 * bit` bytes. -/
def simdpackwithoutmask (inbuf : List Nat) (bit : Nat) : Bytes :=
  let (a, b, c, d) := lanes inbuf
  (interleave (packLane 32 bit 0 0 a) (packLane 32 bit 0 0 b) (packLane 32 bit 0 0 c)
    (packLane 32 bit 0 0 d)).flatMap (leBytes 4)

/-- `simdunpack`: `16 * bit` bytes to 128 values. -/
def simdunpack (data : Bytes) (bit : Nat) : List Nat :=
  if bit = 0 then List.replicate 128 0
  else
    let (a, b, c, d) := lanes (leWords 4 (4 * bit) data)
    interleave (unpackLane 32 bit 32 0 a) (unpackLane 32 bit 32 0 b)
      (unpackLane 32 bit 32 0 c) (unpackLane 32 bit 32 0 d)

/-! ### Encoder -/

/-- `BitPackEncoder`; `inbuf` holds the values of the block being filled. -/
structure BitPackEncoder where
  maxbits : Nat
  inbuf : List Nat
  buf : Bytes
  deriving DecidableEq, Repr

namespace BitPackEncoder

/-- The constructor; the maximum is converted to 32 bits. -/
def new (max_val : Nat) : BitPackEncoder := ⟨bits (max_val % 2 ^ 32), [], []⟩

/-- `flush`: a block that has been begun is padded with zeros and packed. -/
def flush (e : BitPackEncoder) : BitPackEncoder :=
  if e.inbuf.length = 0 then e
  else
    let inbuf := e.inbuf ++ List.replicate (128 - e.inbuf.length) 0
    { e with inbuf := [], buf := e.buf ++ simdpackwithoutmask inbuf e.maxbits }

/-- `encode`: the value is converted to 32 bits. -/
def encode (e : BitPackEncoder) (value : Nat) : BitPackEncoder :=
  if e.maxbits = 0 then e
  else
    let e := { e with inbuf := e.inbuf ++ [value % 2 ^ 32] }
    if e.inbuf.length = 128 then e.flush else e

/-- `size`. -/
def size (e : BitPackEncoder) : Nat := e.buf.length

end BitPackEncoder

/-! ### Decoder -/

/-- `BitPackDecoder`; `data` is an address. `outbuf` is not read before it is
filled, since `outbuf_pos` starts at its end. -/
structure BitPackDecoder where
  data : Nat
  size : Nat
  maxbits : Nat
  pos : Nat
  outbuf : List Nat
  outbuf_pos : Nat
  deriving DecidableEq, Repr

namespace BitPackDecoder

/-- The constructor; the maximum is converted to 32 bits. -/
def new (data size max_val : Nat) : BitPackDecoder where
  data := data
  size := size
  maxbits := bits (max_val % 2 ^ 32)
  pos := 0
  outbuf := List.replicate 128 0
  outbuf_pos := 128

/-- `fetch`. -/
def fetch (mem : Mapping) (d : BitPackDecoder) (advance : Bool) :
    Result (Nat × BitPackDecoder) :=
  if d.maxbits = 0 then .ok (0, d)
  else if d.outbuf_pos = 128 then
    let new_pos := d.pos + 16 * d.maxbits
    if new_pos > d.size then
      if advance then RAISE .kBufferOverflowError "read exceeds buffer boundary"
      else .ok (0, d)
    else do
      let block ← load mem (d.data + d.pos) (16 * d.maxbits)
      let outbuf := simdunpack block d.maxbits
      let outbuf_pos := if advance then 1 else 0
      .ok (outbuf.getD 0 0, { d with pos := new_pos, outbuf, outbuf_pos })
  else
    let outbuf_pos := if advance then d.outbuf_pos + 1 else d.outbuf_pos
    .ok (d.outbuf.getD d.outbuf_pos 0, { d with outbuf_pos })

/-- `next`. -/
def next (mem : Mapping) (d : BitPackDecoder) : Result (Nat × BitPackDecoder) :=
  d.fetch mem true

/-- `peek`. -/
def peek (mem : Mapping) (d : BitPackDecoder) : Result (Nat × BitPackDecoder) :=
  d.fetch mem false

end BitPackDecoder

end CStable
