import CStable.Stx.BitPack
import Mathlib.Data.List.Basic

/-!
# `CStable.Proofs.BitStream`: bit-packed streams round trip

`BitPackEncoder` collects values in blocks of 128 and packs them; the last block
is filled up with zeros. `Encodes` is the invariant of the encoder, `Packed` what
it says of the bytes after `flush`, and `Decodes` the invariant of a decoder that
still has to deliver the given values.

* `BitPackEncoder.Encodes.encode`, `Encodes.flush`: the encoder.
* `BitPackDecoder.Packed.decodes`, `Decodes.next`: the decoder.

A stream of a maximum of zero takes no bits: it stores nothing and reads zeros.
-/

set_option autoImplicit false

namespace CStable

open Support

/-! ### Bytes of a mapping -/

/-- The mapping holds the bytes at the address. -/
def HoldsAt (mem : Mapping) (address : Nat) (bytes : Bytes) : Prop :=
  ∃ pre post, mem = pre ++ (bytes ++ post) ∧ pre.length = address

/-- The first of two stretches is at the address of both. With `HoldsAt.right` this
is how a body is taken apart into its counts and its streams. -/
theorem HoldsAt.left {mem : Mapping} {address : Nat} {xs ys : Bytes}
    (h : HoldsAt mem address (xs ++ ys)) : HoldsAt mem address xs := by
  obtain ⟨pre, post, rfl, hlen⟩ := h
  exact ⟨pre, ys ++ post, by rw [List.append_assoc], hlen⟩

/-- The second of two stretches follows right behind the first. -/
theorem HoldsAt.right {mem : Mapping} {address : Nat} {xs ys : Bytes}
    (h : HoldsAt mem address (xs ++ ys)) : HoldsAt mem (address + xs.length) ys := by
  obtain ⟨pre, post, rfl, hlen⟩ := h
  refine ⟨pre ++ xs, post, ?_, ?_⟩
  · rw [List.append_assoc, List.append_assoc]
  · rw [List.length_append, hlen]

/-- Held bytes begin in the mapping or at its end, also when there are none of them:
the address of an empty stream is one past the stream before it. -/
theorem HoldsAt.le_length {mem : Mapping} {address : Nat} {bytes : Bytes}
    (h : HoldsAt mem address bytes) : address ≤ mem.length := by
  obtain ⟨pre, post, rfl, rfl⟩ := h
  rw [List.length_append]
  exact Nat.le_add_right _ _

/-- Bytes that are held can be loaded, as they lie inside of the mapping. Nothing is said of
what is around them. -/
theorem HoldsAt.load {mem : Mapping} {address : Nat} {bytes : Bytes}
    (h : HoldsAt mem address bytes) : load mem address bytes.length = .ok bytes := by
  obtain ⟨pre, post, rfl, rfl⟩ := h
  unfold CStable.load
  rw [if_pos (by simp only [List.length_append]; omega), readAt, List.drop_left, List.take_left]

/-! ### Bits -/

/-- A level within the maximum fits the bits of the maximum. The encoder does not check this. -/
theorem lt_two_pow_bits {v max : Nat} (h : v ≤ max) : v < 2 ^ bits max := by
  unfold bits
  split_ifs with h0
  · omega
  · exact lt_of_le_of_lt h Nat.lt_log2_self

/-- A maximum of 32 bits takes no more than 32 bits. -/
theorem bits_le {max : Nat} (h : max < 2 ^ 32) : bits max ≤ 32 := by
  unfold bits
  split_ifs with h0
  · exact Nat.zero_le 32
  · exact (Nat.log2_lt h0).mpr h

/-- Only the maximum zero takes no bits. -/
theorem bits_eq_zero {max : Nat} : bits max = 0 ↔ max = 0 := by
  unfold bits
  split_ifs with h0 <;> simp [h0]

/-! ### One block -/

/-- A block of values that fit in `bit` bits. -/
structure Block (bit : Nat) (values : List Nat) : Prop where
  length : values.length = 128
  lt : ∀ v ∈ values, v < 2 ^ bit

/-- A block that was begun, filled up with zeros. A zero fits in any number of bits. -/
theorem Block.filled {bit : Nat} {values : List Nat} (hlen : values.length ≤ 128)
    (hlt : ∀ v ∈ values, v < 2 ^ bit) :
    Block bit (values ++ List.replicate (128 - values.length) 0) := by
  refine ⟨?_, fun v hv => ?_⟩
  · rw [List.length_append, List.length_replicate]
    omega
  · rcases List.mem_append.mp hv with hold | hzero
    · exact hlt v hold
    · rw [List.eq_of_mem_replicate hzero]
      exact Nat.two_pow_pos _

/-- The words a lane of a block is packed to, and back. The bits of the 32 values fill the words
exactly. -/
theorem packLane_spec {bit : Nat} {lane : List Nat} (hbit : bit ≤ 32) (hlen : lane.length = 32)
    (hlt : ∀ v ∈ lane, v < 2 ^ bit) :
    (packLane 32 bit 0 0 lane).length = bit ∧
      (∀ x ∈ packLane 32 bit 0 0 lane, x < 2 ^ 32) ∧
      (0 < bit → unpackLane 32 bit 32 0 (packLane 32 bit 0 0 lane) = lane) := by
  have hword : ∀ v ∈ lane, v < 2 ^ 32 := fun v hv =>
    lt_of_lt_of_le (hlt v hv) (Nat.pow_le_pow_right (by norm_num) hbit)
  refine ⟨?_, packLane_lt (by norm_num) hword, fun hpos => ?_⟩
  · rw [length_packLane (by norm_num) hbit, hlen, Nat.zero_add, Nat.mul_div_cancel _ (by norm_num)]
  · have hacc : 0 < 2 ^ 0 := Nat.one_pos
    have h := unpackLane_packLane hpos hbit hacc (by norm_num) hlt
      (by rw [hlen, Nat.zero_add, Nat.mul_mod_left])
    rwa [hlen] at h

/-- The lanes of a block have 32 of its values each. The packing goes over the four lanes at
once, as the vector code does. -/
theorem Block.lanes {bit : Nat} {values : List Nat} (h : Block bit values) :
    ((lanes values).1.length = 32 ∧ (lanes values).2.1.length = 32 ∧
        (lanes values).2.2.1.length = 32 ∧ (lanes values).2.2.2.length = 32) ∧
      (∀ v ∈ (lanes values).1, v < 2 ^ bit) ∧ (∀ v ∈ (lanes values).2.1, v < 2 ^ bit) ∧
      (∀ v ∈ (lanes values).2.2.1, v < 2 ^ bit) ∧ (∀ v ∈ (lanes values).2.2.2, v < 2 ^ bit) := by
  obtain ⟨hlen, ha, hb, hc, hd⟩ := lanes_spec (n := 32) h.length
  exact ⟨hlen, fun v hv => h.lt v (ha v hv), fun v hv => h.lt v (hb v hv),
    fun v hv => h.lt v (hc v hv), fun v hv => h.lt v (hd v hv)⟩

/-- A packed block takes 16 bytes for each bit. -/
theorem Block.length_pack {bit : Nat} {values : List Nat} (h : Block bit values)
    (hbit : bit ≤ 32) : (simdpackwithoutmask values bit).length = 16 * bit := by
  obtain ⟨⟨la, lb, lc, ld⟩, ha, hb, hc, hd⟩ := h.lanes
  obtain ⟨ha, -⟩ := packLane_spec hbit la ha
  obtain ⟨hb, -⟩ := packLane_spec hbit lb hb
  obtain ⟨hc, -⟩ := packLane_spec hbit lc hc
  obtain ⟨hd, -⟩ := packLane_spec hbit ld hd
  unfold simdpackwithoutmask
  rw [length_flatMap_leBytes, length_interleave (hb.trans ha.symm) (hc.trans ha.symm)
    (hd.trans ha.symm), ha]
  omega

/-- The four lanes are packed and unpacked independently, so a block of values that fit comes
back. -/
theorem Block.unpack_pack {bit : Nat} {values : List Nat} (h : Block bit values)
    (hpos : 0 < bit) (hbit : bit ≤ 32) :
    simdunpack (simdpackwithoutmask values bit) bit = values := by
  obtain ⟨⟨la, lb, lc, ld⟩, ha, hb, hc, hd⟩ := h.lanes
  obtain ⟨ha, hwa, hua⟩ := packLane_spec hbit la ha
  obtain ⟨hb, hwb, hub⟩ := packLane_spec hbit lb hb
  obtain ⟨hc, hwc, huc⟩ := packLane_spec hbit lc hc
  obtain ⟨hd, hwd, hud⟩ := packLane_spec hbit ld hd
  have hlen := length_interleave (hb.trans ha.symm) (hc.trans ha.symm) (hd.trans ha.symm)
  have hwords : ∀ x ∈ interleave (packLane 32 bit 0 0 (Support.lanes values).1)
      (packLane 32 bit 0 0 (Support.lanes values).2.1)
      (packLane 32 bit 0 0 (Support.lanes values).2.2.1)
      (packLane 32 bit 0 0 (Support.lanes values).2.2.2), x < 256 ^ 4 := by
    intro x hx
    rcases mem_interleave hx with hx | hx | hx | hx
    · exact hwa x hx
    · exact hwb x hx
    · exact hwc x hx
    · exact hwd x hx
  have hback := leWords_flatMap hwords
  rw [hlen, ha] at hback
  unfold simdunpack simdpackwithoutmask
  rw [if_neg (by omega)]
  dsimp only
  rw [hback, lanes_interleave (hb.trans ha.symm) (hc.trans ha.symm) (hd.trans ha.symm)]
  dsimp only
  rw [hua hpos, hub hpos, huc hpos, hud hpos, interleave_lanes (n := 32) h.length]

/-- Whatever bytes are unpacked, the values have `bit` bits. So a reader can bound the levels of
a file it knows nothing of. -/
theorem simdunpack_lt {data : Bytes} {bit : Nat} :
    ∀ v ∈ simdunpack data bit, v < 2 ^ bit := by
  intro v hv
  unfold simdunpack at hv
  split_ifs at hv with hzero
  · rw [List.eq_of_mem_replicate hv]
    exact Nat.two_pow_pos bit
  · have hwords : ∀ x ∈ leWords 4 (4 * bit) data, x < 2 ^ 32 := leWords_lt
    obtain ⟨ha, hb, hc, hd⟩ := lanes_forall hwords
    rcases mem_interleave hv with hv | hv | hv | hv
    · exact unpackLane_lt ha v hv
    · exact unpackLane_lt hb v hv
    · exact unpackLane_lt hc v hv
    · exact unpackLane_lt hd v hv

/-! ### Many blocks -/

/-- Blocks packed one after the other. -/
def packBlocks (bit : Nat) (blocks : List (List Nat)) : Bytes :=
  blocks.flatMap fun values => simdpackwithoutmask values bit

/-- Blocks are packed one after the other. -/
theorem packBlocks_append (bit : Nat) (xs ys : List (List Nat)) :
    packBlocks bit (xs ++ ys) = packBlocks bit xs ++ packBlocks bit ys := List.flatMap_append

/-- The bytes of a finished stream: the values in blocks, the last one filled up.
A stream of zero bits has no bytes. -/
def Packed (bit : Nat) (values : List Nat) (buf : Bytes) : Prop :=
  if bit = 0 then buf = [] ∧ ∀ v ∈ values, v = 0
  else ∃ blocks padding, (∀ b ∈ blocks, Block bit b) ∧ blocks.flatten = values ++ padding ∧
    buf = packBlocks bit blocks

/-- A stream that takes bits at all takes at least one for each value, so its size bounds
the number of values. -/
theorem Packed.length_le {bit : Nat} {values : List Nat} {buf : Bytes}
    (h : Packed bit values buf) (hzero : bit ≠ 0) (hbit : bit ≤ 32) :
    values.length ≤ 8 * buf.length := by
  unfold Packed at h
  rw [if_neg hzero] at h
  obtain ⟨blocks, padding, hblocks, hvalues, rfl⟩ := h
  have hcount : blocks.flatten.length = blocks.length * 128 := by
    rw [List.length_flatten, List.map_congr_left fun b hb => (hblocks b hb).length,
      List.map_const', List.sum_replicate]
    rfl
  have hbytes : (packBlocks bit blocks).length = blocks.length * (16 * bit) := by
    rw [packBlocks, List.length_flatMap,
      List.map_congr_left fun b hb => (hblocks b hb).length_pack hbit, List.map_const',
      List.sum_replicate]
    rfl
  have hle : values.length ≤ blocks.flatten.length := by
    rw [hvalues, List.length_append]
    exact Nat.le_add_right _ _
  calc values.length ≤ blocks.length * 128 := hcount ▸ hle
    _ ≤ blocks.length * (8 * (16 * bit)) := Nat.mul_le_mul_left _ (by omega)
    _ = 8 * (packBlocks bit blocks).length := by
      rw [hbytes]
      ring

namespace BitPackEncoder

/-- The encoder has been given the values. -/
def Encodes (e : BitPackEncoder) (values : List Nat) : Prop :=
  if e.maxbits = 0 then e.inbuf = [] ∧ e.buf = [] ∧ ∀ v ∈ values, v = 0
  else e.inbuf.length < 128 ∧ (∀ v ∈ e.inbuf, v < 2 ^ e.maxbits) ∧
    ∃ blocks, (∀ b ∈ blocks, Block e.maxbits b) ∧ blocks.flatten ++ e.inbuf = values ∧
      e.buf = packBlocks e.maxbits blocks

/-- A new encoder has encoded nothing. -/
theorem encodes_new (max_val : Nat) : (new max_val).Encodes [] := by
  unfold Encodes
  split_ifs
  · exact ⟨rfl, rfl, fun v hv => absurd hv List.not_mem_nil⟩
  · exact ⟨(by norm_num : 0 < 128), fun v hv => absurd hv List.not_mem_nil, [],
      fun b hb => absurd hb List.not_mem_nil, rfl, rfl⟩

/-- The bits of a value are fixed when the encoder is made. -/
theorem maxbits_flush (e : BitPackEncoder) : e.flush.maxbits = e.maxbits := by
  unfold flush
  split_ifs <;> rfl

/-- No value changes them. -/
theorem maxbits_encode (e : BitPackEncoder) (value : Nat) :
    (e.encode value).maxbits = e.maxbits := by
  unfold encode
  dsimp only
  split_ifs
  · rfl
  · exact maxbits_flush _
  · rfl

/-- A value that fits is appended: it waits in the block that is begun, or completes it. This is
the step of the induction over the values. -/
theorem Encodes.encode {e : BitPackEncoder} {values : List Nat} {v : Nat} (h : e.Encodes values)
    (hbits : e.maxbits ≤ 32) (hv : v < 2 ^ e.maxbits) :
    (e.encode v).Encodes (values ++ [v]) := by
  have hmax := maxbits_encode e v
  have hword : v % 2 ^ 32 = v := Nat.mod_eq_of_lt
    (lt_of_lt_of_le hv (Nat.pow_le_pow_right (by norm_num) hbits))
  unfold Encodes at h ⊢
  rw [hmax]
  by_cases hzero : e.maxbits = 0
  · -- no bits: the value is zero and the buffers stay empty
    rw [if_pos hzero] at h ⊢
    rw [hzero] at hv
    have hv0 : v = 0 := by omega
    unfold BitPackEncoder.encode
    rw [if_pos hzero]
    refine ⟨h.1, h.2.1, fun x hx => ?_⟩
    rcases List.mem_append.mp hx with hold | hnew
    · exact h.2.2 x hold
    · rw [List.mem_singleton] at hnew
      exact hnew.trans hv0
  · rw [if_neg hzero] at h ⊢
    obtain ⟨hlen, hlt, blocks, hblocks, hvalues, hbuf⟩ := h
    have hlt' : ∀ x ∈ e.inbuf ++ [v], x < 2 ^ e.maxbits := by
      intro x hx
      rcases List.mem_append.mp hx with hold | hnew
      · exact hlt x hold
      · rw [List.mem_singleton] at hnew
        exact hnew ▸ hv
    unfold BitPackEncoder.encode
    rw [if_neg hzero, hword]
    dsimp only
    by_cases hfull : (e.inbuf ++ [v]).length = 128
    · -- the block is complete and is packed
      have hblock : Block e.maxbits (e.inbuf ++ [v]) := ⟨hfull, hlt'⟩
      rw [if_pos hfull]
      unfold flush
      dsimp only
      rw [if_neg (by omega), hfull, Nat.sub_self, List.replicate_zero, List.append_nil]
      refine ⟨(by norm_num : 0 < 128), fun x hx => absurd hx List.not_mem_nil,
        blocks ++ [e.inbuf ++ [v]],
        fun b hb => ?_, ?_, ?_⟩
      · rcases List.mem_append.mp hb with hold | hnew
        · exact hblocks b hold
        · rw [List.mem_singleton] at hnew
          exact hnew ▸ hblock
      · rw [List.append_nil, List.flatten_append, List.flatten_singleton, ← List.append_assoc,
          hvalues]
      · rw [packBlocks_append, hbuf]
        rw [packBlocks, packBlocks, List.flatMap_singleton]
    · -- the block has room left, so nothing is packed yet
      rw [if_neg hfull]
      rw [List.length_append, List.length_singleton] at hfull
      refine ⟨?_, hlt', blocks, hblocks, ?_, hbuf⟩
      · rw [List.length_append, List.length_singleton]
        omega
      · rw [← List.append_assoc, hvalues]

/-- After `flush` all values are in the buffer, those of the last block followed by zeros. The
number of values is not stored, so the zeros look like values. -/
theorem Encodes.flush {e : BitPackEncoder} {values : List Nat} (h : e.Encodes values) :
    Packed e.maxbits values e.flush.buf := by
  unfold Encodes at h
  unfold Packed
  by_cases hzero : e.maxbits = 0
  · rw [if_pos hzero] at h ⊢
    unfold BitPackEncoder.flush
    rw [if_pos (List.length_eq_zero_iff.mpr h.1)]
    exact h.2
  · rw [if_neg hzero] at h ⊢
    obtain ⟨hlen, hlt, blocks, hblocks, hvalues, hbuf⟩ := h
    unfold BitPackEncoder.flush
    by_cases hempty : e.inbuf.length = 0
    · -- nothing is buffered, so the stream ends with a whole block
      rw [if_pos hempty]
      rw [List.eq_nil_of_length_eq_zero hempty, List.append_nil] at hvalues
      exact ⟨blocks, [], hblocks, by rw [List.append_nil, hvalues], hbuf⟩
    · rw [if_neg hempty]
      dsimp only
      refine ⟨blocks ++ [e.inbuf ++ List.replicate (128 - e.inbuf.length) 0],
        List.replicate (128 - e.inbuf.length) 0, fun b hb => ?_, ?_, ?_⟩
      · rcases List.mem_append.mp hb with hold | hnew
        · exact hblocks b hold
        · rw [List.mem_singleton] at hnew
          exact hnew ▸ Block.filled (Nat.le_of_lt hlen) hlt
      · rw [List.flatten_append, List.flatten_singleton, ← List.append_assoc, hvalues]
      · rw [packBlocks_append, hbuf]
        rw [packBlocks, packBlocks, List.flatMap_singleton]

end BitPackEncoder

namespace BitPackDecoder

/-! ### Fetching, case by case -/

section

variable {mem : Mapping} {d : BitPackDecoder}

/-- A stream of no bits. The value is zero, and nothing is read for it. -/
theorem fetch_none (hzero : d.maxbits = 0) (advance : Bool) :
    d.fetch mem advance = .ok (0, d) := by
  unfold fetch
  rw [if_pos hzero]

/-- Inside of a block. The values were unpacked with the first of them, so memory is not looked
at. -/
theorem fetch_inside (hzero : d.maxbits ≠ 0) (hpos : d.outbuf_pos ≠ 128) (advance : Bool) :
    d.fetch mem advance = .ok (d.outbuf.getD d.outbuf_pos 0,
      { d with outbuf_pos := if advance then d.outbuf_pos + 1 else d.outbuf_pos }) := by
  unfold fetch
  rw [if_neg hzero, if_neg hpos]

/-- Behind the last block. Reading raises here, and peeking returns a zero. -/
theorem fetch_end (hzero : d.maxbits ≠ 0) (hpos : d.outbuf_pos = 128)
    (hsize : d.pos + 16 * d.maxbits > d.size) (advance : Bool) :
    d.fetch mem advance =
      if advance then RAISE .kBufferOverflowError "read exceeds buffer boundary"
      else .ok (0, d) := by
  unfold fetch
  rw [if_neg hzero, if_pos hpos]
  dsimp only
  rw [if_pos hsize]

variable (mem) in
/-- In front of a block. It is unpacked as a whole, whether its first value is read or only
peeked at. -/
theorem fetch_block (hzero : d.maxbits ≠ 0) (hpos : d.outbuf_pos = 128)
    (hsize : ¬ d.pos + 16 * d.maxbits > d.size) (advance : Bool) :
    d.fetch mem advance = (load mem (d.data + d.pos) (16 * d.maxbits)).map fun block =>
      ((simdunpack block d.maxbits).getD 0 0,
        { d with
          pos := d.pos + 16 * d.maxbits
          outbuf := simdunpack block d.maxbits
          outbuf_pos := if advance then 1 else 0 }) := by
  unfold fetch
  rw [if_neg hzero, if_pos hpos]
  dsimp only
  rw [if_neg hsize]
  cases load mem (d.data + d.pos) (16 * d.maxbits) <;> rfl

/-- One value of a stream that has bits. Either its block is unpacked now or it was before, and
the blocks behind it keep their place. By the position in the buffer, which is 128 in front of a
block. -/
theorem next_of_blocks {v : Nat} {rest : List Nat} {blocks : List (List Nat)}
    (hzero : d.maxbits ≠ 0) (hbits : d.maxbits ≤ 32) (hout : d.outbuf.length = 128)
    (hpos : d.outbuf_pos ≤ 128) (hblocks : ∀ b ∈ blocks, Block d.maxbits b)
    (hvalues : d.outbuf.drop d.outbuf_pos ++ blocks.flatten = v :: rest)
    (hmem : HoldsAt mem (d.data + d.pos) (packBlocks d.maxbits blocks))
    (hsize : d.pos + (packBlocks d.maxbits blocks).length ≤ d.size) :
    ∃ d' blocks', d.next mem = .ok (v, d') ∧ d'.maxbits = d.maxbits ∧ d'.size = d.size ∧
      d'.outbuf.length = 128 ∧ d'.outbuf_pos ≤ 128 ∧ (∀ b ∈ blocks', Block d.maxbits b) ∧
      d'.outbuf.drop d'.outbuf_pos ++ blocks'.flatten = rest ∧
      HoldsAt mem (d'.data + d'.pos) (packBlocks d.maxbits blocks') ∧
      d'.pos + (packBlocks d.maxbits blocks').length =
        d.pos + (packBlocks d.maxbits blocks).length := by
  by_cases hend : d.outbuf_pos = 128
  · -- the next block is unpacked; its first value is the next one
    rw [hend, List.drop_of_length_le (by omega), List.nil_append] at hvalues
    cases blocks with
    | nil => cases hvalues
    | cons b bs =>
      have hb := hblocks b List.mem_cons_self
      have hlen := hb.length_pack hbits
      have hcons : packBlocks d.maxbits (b :: bs) =
          simdpackwithoutmask b d.maxbits ++ packBlocks d.maxbits bs := rfl
      rw [hcons] at hmem hsize ⊢
      rw [List.length_append, hlen] at hsize
      have hload := hmem.left.load
      have hright := hmem.right
      rw [hlen] at hload hright
      rw [List.flatten_cons] at hvalues
      obtain ⟨x, xs, rfl⟩ := List.exists_cons_of_length_pos
        (show 0 < b.length by rw [hb.length]; norm_num)
      obtain ⟨hx, hrest⟩ := List.cons.inj hvalues
      subst hx
      refine ⟨{ d with pos := d.pos + 16 * d.maxbits, outbuf := x :: xs, outbuf_pos := 1 }, bs, ?_,
        rfl, rfl, hb.length, by norm_num, fun b' hb' => hblocks b' (List.mem_cons_of_mem _ hb'),
        hrest, ?_, ?_⟩
      · unfold BitPackDecoder.next
        rw [fetch_block mem hzero hend (by omega), hload]
        dsimp only [Except.map]
        rw [hb.unpack_pack (by omega) hbits]
        rfl
      · rwa [Nat.add_assoc] at hright
      · rw [List.length_append, hlen, ← Nat.add_assoc]
  · -- the block has values left
    have hlt : d.outbuf_pos < d.outbuf.length := by omega
    rw [List.drop_eq_getElem_cons hlt, List.cons_append] at hvalues
    obtain ⟨hx, hrest⟩ := List.cons.inj hvalues
    refine ⟨{ d with outbuf_pos := d.outbuf_pos + 1 }, blocks, ?_, rfl, rfl, hout,
      show d.outbuf_pos + 1 ≤ 128 by omega, hblocks, hrest, hmem, rfl⟩
    unfold BitPackDecoder.next
    rw [fetch_inside hzero hend, List.getD_eq_getElem _ _ hlt, hx]
    rfl

end

/-! ### Reading the values back -/

/-- The decoder still has the values to deliver. -/
def Decodes (mem : Mapping) (d : BitPackDecoder) (values : List Nat) : Prop :=
  if d.maxbits = 0 then ∀ v ∈ values, v = 0
  else d.maxbits ≤ 32 ∧ d.outbuf.length = 128 ∧ d.outbuf_pos ≤ 128 ∧
    ∃ blocks padding, (∀ b ∈ blocks, Block d.maxbits b) ∧
      d.outbuf.drop d.outbuf_pos ++ blocks.flatten = values ++ padding ∧
      HoldsAt mem (d.data + d.pos) (packBlocks d.maxbits blocks) ∧
      d.pos + (packBlocks d.maxbits blocks).length ≤ d.size

/-- A new decoder over the bytes of a stream delivers its values, block by block. By induction
on the blocks. -/
theorem decodes_new {mem : Mapping} {data max_val : Nat} {values : List Nat} {buf : Bytes}
    (hmax : max_val < 2 ^ 32) (hbuf : Packed (bits max_val) values buf)
    (hmem : HoldsAt mem data buf) : Decodes mem (new data buf.length max_val) values := by
  have hmod : max_val % 2 ^ 32 = max_val := Nat.mod_eq_of_lt hmax
  have hbits : (new data buf.length max_val).maxbits = bits max_val := congrArg bits hmod
  unfold Packed at hbuf
  unfold Decodes
  rw [hbits]
  by_cases hzero : bits max_val = 0
  · rw [if_pos hzero] at hbuf ⊢
    exact hbuf.2
  · rw [if_neg hzero] at hbuf ⊢
    obtain ⟨blocks, padding, hblocks, hvalues, rfl⟩ := hbuf
    refine ⟨bits_le hmax, List.length_replicate, Nat.le_refl 128, blocks, padding, hblocks, ?_,
      hmem, ?_⟩
    · rw [← hvalues]
      show (List.replicate 128 0).drop 128 ++ blocks.flatten = blocks.flatten
      rw [List.drop_of_length_le (by rw [List.length_replicate]), List.nil_append]
    · show 0 + _ ≤ _
      rw [Nat.zero_add]
      exact Nat.le_refl _

/-- `next` delivers the first value and keeps the others. At the end of a block it loads the
next one. -/
theorem Decodes.next {mem : Mapping} {d : BitPackDecoder} {v : Nat} {values : List Nat}
    (h : Decodes mem d (v :: values)) : ∃ d', d.next mem = .ok (v, d') ∧ Decodes mem d' values := by
  unfold Decodes at h
  by_cases hzero : d.maxbits = 0
  · -- no bits are stored, and every value is the zero that needs none
    rw [if_pos hzero] at h
    obtain rfl : v = 0 := h v List.mem_cons_self
    refine ⟨d, fetch_none hzero true, ?_⟩
    unfold Decodes
    rw [if_pos hzero]
    exact fun x hx => h x (List.mem_cons_of_mem _ hx)
  · rw [if_neg hzero] at h
    obtain ⟨hbits, hout, hpos, blocks, padding, hblocks, hvalues, hmem, hsize⟩ := h
    obtain ⟨d', blocks', hnext, hbits', hsize', hout', hpos', hblocks', hvalues', hmem', hstop⟩ :=
      next_of_blocks hzero hbits hout hpos hblocks hvalues hmem hsize
    refine ⟨d', hnext, ?_⟩
    unfold Decodes
    rw [hbits', hsize', if_neg hzero]
    exact ⟨hbits, hout', hpos', blocks', padding, hblocks', hvalues', hmem', hstop ▸ hsize⟩

/-! ### Reading any bytes -/

/-- The values the decoder has unpacked have no more bits than its maximum. -/
def Bounded (d : BitPackDecoder) : Prop := ∀ v ∈ d.outbuf, v < 2 ^ d.maxbits

/-- A new decoder has no values that were unpacked. -/
theorem bounded_new {data size max_val : Nat} : (new data size max_val).Bounded := by
  intro v hv
  rw [List.eq_of_mem_replicate hv]
  exact Nat.two_pow_pos _

/-- A value that is read has no more bits than the maximum of the stream, and the
decoder stays one for that maximum. -/
theorem Bounded.next {mem : Mapping} {d d' : BitPackDecoder} {v : Nat} (h : d.Bounded)
    (hnext : d.next mem = .ok (v, d')) :
    v < 2 ^ d.maxbits ∧ d'.Bounded ∧ d'.maxbits = d.maxbits := by
  -- what comes out of the buffer is bounded, also behind its end
  have hget : ∀ (outbuf : List Nat) (i : Nat), (∀ x ∈ outbuf, x < 2 ^ d.maxbits) →
      outbuf.getD i 0 < 2 ^ d.maxbits := by
    intro outbuf i hlt
    rcases Nat.lt_or_ge i outbuf.length with hi | hi
    · rw [List.getD_eq_getElem _ _ hi]
      exact hlt _ (List.getElem_mem hi)
    · rw [List.getD_eq_default _ _ hi]
      exact Nat.two_pow_pos _
  unfold BitPackDecoder.next fetch at hnext
  by_cases hzero : d.maxbits = 0
  · rw [if_pos hzero] at hnext
    cases hnext
    exact ⟨Nat.two_pow_pos _, h, rfl⟩
  rw [if_neg hzero] at hnext
  by_cases hend : d.outbuf_pos = 128
  · rw [if_pos hend] at hnext
    dsimp only at hnext
    by_cases hsize : d.pos + 16 * d.maxbits > d.size
    · rw [if_pos hsize] at hnext
      cases hnext
    · rw [if_neg hsize] at hnext
      obtain ⟨block, -, hret⟩ := Result.bind_eq_ok.mp hnext
      cases hret
      exact ⟨hget _ _ simdunpack_lt, simdunpack_lt, rfl⟩
  · rw [if_neg hend] at hnext
    cases hnext
    exact ⟨hget _ _ h, h, rfl⟩

end BitPackDecoder

end CStable
