import CStable.Proofs.BitStream

/-!
# `CStable.Proofs.LevelStream`: peeking, and the end of a bit-packed stream

`peek` fetches as `next` does and leaves the value in front of the decoder, so that
it is only the fetching it does ahead of time (`BitPackDecoder.peeked`): what is read
or peeked afterwards is the same (`next_peeked`, `peek_peeked`).

A stream ends with the zeros its last block was filled up with, and after them with
the check of the size. `Remains` is the exact invariant of a decoder: the values it
has not delivered yet, with those zeros, and no block behind them. `Encodes.filled`
says how many zeros there are.
-/

set_option autoImplicit false

namespace CStable

open Support

namespace BitPackDecoder

section

variable {mem : Mapping} {d : BitPackDecoder}

/-! ### Peeking -/

/-- The decoder after a `peek`. -/
def peeked (mem : Mapping) (d : BitPackDecoder) : BitPackDecoder :=
  ((d.peek mem).map Prod.snd).toOption.getD d

/-- A peek that answers leaves the decoder it returns. -/
theorem peeked_of_ok {d' : BitPackDecoder} {v : Nat} (h : d.peek mem = .ok (v, d')) :
    d.peeked mem = d' := by
  unfold peeked
  rw [h]
  rfl

/-- A peek that raises leaves the decoder as it was. `peeked` is total for this reason: a caller
that catches the exception goes on with the same stream. -/
theorem peeked_of_error {e : Abort} (h : d.peek mem = .error e) : d.peeked mem = d := by
  unfold peeked
  rw [h]
  rfl

/-- What is fetched after a `peek` is what would have been fetched without it. The peek may have
unpacked a block, and the fetch does not unpack it again. -/
theorem fetch_peeked (advance : Bool) :
    (d.peeked mem).fetch mem advance = d.fetch mem advance := by
  by_cases hzero : d.maxbits = 0
  · rw [peeked_of_ok (fetch_none hzero false)]
  by_cases hpos : d.outbuf_pos = 128
  · by_cases hsize : d.pos + 16 * d.maxbits > d.size
    · rw [peeked_of_ok (fetch_end hzero hpos hsize false)]
    · have hpeek := fetch_block mem hzero hpos hsize false
      rw [fetch_block mem hzero hpos hsize advance]
      cases hload : load mem (d.data + d.pos) (16 * d.maxbits) with
      | error e =>
        rw [hload] at hpeek
        rw [peeked_of_error hpeek, fetch_block mem hzero hpos hsize advance, hload]
      | ok block =>
        -- the block is unpacked already, and its first value is in front
        rw [hload] at hpeek
        rw [peeked_of_ok hpeek]
        have hfront : (0 : Nat) ≠ 128 := by norm_num
        exact fetch_inside (d := { d with
          pos := d.pos + 16 * d.maxbits
          outbuf := simdunpack block d.maxbits
          outbuf_pos := 0 }) hzero hfront advance
  · rw [peeked_of_ok (fetch_inside hzero hpos false)]
    rfl

/-- A peek does not change what `next` returns. The value that was fetched ahead is the value
that `next` delivers. -/
theorem next_peeked : (d.peeked mem).next mem = d.next mem := fetch_peeked true

/-- Two peeks in a row answer alike, so a caller may look at a level as often as it likes. -/
theorem peek_peeked : (d.peeked mem).peek mem = d.peek mem := fetch_peeked false

/-- Peeking again changes nothing. -/
theorem peeked_peeked : (d.peeked mem).peeked mem = d.peeked mem := by
  cases h : d.peek mem with
  | ok p =>
    have h' : (d.peeked mem).peek mem = .ok (p.1, p.2) := peek_peeked.trans h
    rw [peeked_of_ok h', peeked_of_ok h]
  | error e => rw [peeked_of_error h, peeked_of_error h]

/-- Where `peek` aborts or stays behind the last block, `next` leaves the decoder
alone: a decoder that `peek` moves is one that `next` reads from. -/
theorem peeked_of_next_error {e : Abort} (h : d.next mem = .error e) : d.peeked mem = d := by
  unfold next at h
  by_cases hzero : d.maxbits = 0
  · rw [fetch_none hzero] at h
    cases h
  by_cases hpos : d.outbuf_pos = 128
  · by_cases hsize : d.pos + 16 * d.maxbits > d.size
    · exact peeked_of_ok (fetch_end hzero hpos hsize false)
    · rw [fetch_block mem hzero hpos hsize] at h
      have hpeek := fetch_block mem hzero hpos hsize false
      cases hload : load mem (d.data + d.pos) (16 * d.maxbits) with
      | error e' =>
        rw [hload] at hpeek
        exact peeked_of_error hpeek
      | ok block =>
        rw [hload] at h
        cases h
  · rw [fetch_inside hzero hpos] at h
    cases h

/-- A value that can be read is the one `peek` sees. The converse fails at the end of the
stream. -/
theorem peek_of_next {d' : BitPackDecoder} {v : Nat} (h : d.next mem = .ok (v, d')) :
    d.peek mem = .ok (v, d.peeked mem) := by
  have hsame : ∃ d'', d.peek mem = .ok (v, d'') := by
    unfold next at h
    unfold peek
    by_cases hzero : d.maxbits = 0
    · rw [fetch_none hzero] at h ⊢
      cases h
      exact ⟨_, rfl⟩
    by_cases hpos : d.outbuf_pos = 128
    · by_cases hsize : d.pos + 16 * d.maxbits > d.size
      · rw [fetch_end hzero hpos hsize, if_pos rfl] at h
        cases h
      · rw [fetch_block mem hzero hpos hsize] at h ⊢
        cases hload : load mem (d.data + d.pos) (16 * d.maxbits) with
        | error e =>
          rw [hload] at h
          cases h
        | ok block =>
          rw [hload] at h
          cases h
          exact ⟨_, rfl⟩
    · rw [fetch_inside hzero hpos] at h ⊢
      cases h
      exact ⟨_, rfl⟩
  obtain ⟨d'', hpeek⟩ := hsame
  rw [hpeek, peeked_of_ok hpeek]

end

/-! ### What is left of a stream -/

/-- The values the decoder has not delivered yet are these and no more. -/
structure Remains (mem : Mapping) (d : BitPackDecoder) (values : List Nat) : Prop where
  maxbits : d.maxbits ≠ 0
  maxbits_le : d.maxbits ≤ 32
  outbuf : d.outbuf.length = 128
  outbuf_pos : d.outbuf_pos ≤ 128
  blocks : ∃ blocks, (∀ b ∈ blocks, Block d.maxbits b) ∧
    d.outbuf.drop d.outbuf_pos ++ blocks.flatten = values ∧
    HoldsAt mem (d.data + d.pos) (packBlocks d.maxbits blocks) ∧
    d.pos + (packBlocks d.maxbits blocks).length = d.size

variable {mem : Mapping} {d : BitPackDecoder}

/-- The first value is delivered, and the others are left. The zeros of the last block are among
them. -/
theorem Remains.next {v : Nat} {values : List Nat} (h : d.Remains mem (v :: values)) :
    ∃ d', d.next mem = .ok (v, d') ∧ d'.Remains mem values := by
  obtain ⟨hzero, hbits, hout, hpos, blocks, hblocks, hvalues, hmem, hsize⟩ := h
  obtain ⟨d', blocks', hnext, hbits', hsize', hout', hpos', hblocks', hvalues', hmem', hstop⟩ :=
    next_of_blocks hzero hbits hout hpos hblocks hvalues hmem (Nat.le_of_eq hsize)
  refine ⟨d', hnext, hbits' ▸ hzero, hbits' ▸ hbits, hout', hpos', blocks', hbits' ▸ hblocks',
    hvalues', hbits' ▸ hmem', ?_⟩
  rw [hbits', hsize', hstop, hsize]

/-- Behind the last value there is no block left. -/
theorem Remains.nil (h : d.Remains mem []) :
    d.outbuf_pos = 128 ∧ d.pos + 16 * d.maxbits > d.size := by
  obtain ⟨hzero, hbits, hout, hle, blocks, hblocks, hvalues, -, hsize⟩ := h
  obtain ⟨hdrop, hflat⟩ := List.append_eq_nil_iff.mp hvalues
  have hpos : d.outbuf_pos = 128 := by
    have hlen := congrArg List.length hdrop
    rw [List.length_drop, List.length_nil] at hlen
    omega
  refine ⟨hpos, ?_⟩
  cases blocks with
  | nil =>
    rw [show packBlocks d.maxbits [] = [] from rfl, List.length_nil] at hsize
    omega
  | cons b bs =>
    have hb := (hblocks b List.mem_cons_self).length
    rw [List.flatten_cons] at hflat
    rw [(List.append_eq_nil_iff.mp hflat).1] at hb
    cases hb

/-- A read behind the last value raises. -/
theorem Remains.next_nil (h : d.Remains mem []) :
    d.next mem = RAISE .kBufferOverflowError "read exceeds buffer boundary" := by
  unfold BitPackDecoder.next
  rw [fetch_end h.maxbits h.nil.1 h.nil.2, if_pos rfl]

/-- A `peek` behind the last value returns a zero and leaves the decoder alone. -/
theorem Remains.peek_nil (h : d.Remains mem []) : d.peek mem = .ok (0, d) :=
  fetch_end h.maxbits h.nil.1 h.nil.2 false

end BitPackDecoder

/-! ### How a stream ends -/

/-- The zeros that fill up the last block of `n` values. -/
def fillOf (n : Nat) : Nat := (128 - n % 128) % 128

/-- The last block of a stream has no filling exactly when the number of values is a multiple of
the block size. -/
theorem fillOf_eq_zero {n : Nat} : fillOf n = 0 ↔ n % 128 = 0 := by
  unfold fillOf
  omega

namespace BitPackEncoder

/-- After `flush` the values are in the buffer, and behind them the zeros of the last
block. -/
theorem Encodes.filled {e : BitPackEncoder} {values : List Nat} (h : e.Encodes values)
    (hzero : e.maxbits ≠ 0) :
    ∃ blocks, (∀ b ∈ blocks, Block e.maxbits b) ∧
      blocks.flatten = values ++ List.replicate (fillOf values.length) 0 ∧
      e.flush.buf = packBlocks e.maxbits blocks := by
  unfold Encodes at h
  rw [if_neg hzero] at h
  obtain ⟨hlen, hlt, blocks, hblocks, hvalues, hbuf⟩ := h
  have hflat : blocks.flatten.length = 128 * blocks.length := by
    have hall : blocks.map List.length = List.replicate blocks.length 128 :=
      List.eq_replicate_iff.mpr ⟨List.length_map _, fun x hx => by
        obtain ⟨b, hb, rfl⟩ := List.mem_map.mp hx
        exact (hblocks b hb).length⟩
    rw [List.length_flatten, hall, List.sum_replicate_nat, Nat.mul_comm]
  have hcount : values.length = 128 * blocks.length + e.inbuf.length := by
    rw [← hvalues, List.length_append, hflat]
  unfold BitPackEncoder.flush
  -- a buffer that is empty is not padded to a block of its own
  by_cases hempty : e.inbuf.length = 0
  · rw [if_pos hempty]
    have hfill : fillOf values.length = 0 := fillOf_eq_zero.mpr (by omega)
    rw [List.eq_nil_of_length_eq_zero hempty, List.append_nil] at hvalues
    exact ⟨blocks, hblocks, by rw [hfill, List.replicate_zero, List.append_nil, hvalues], hbuf⟩
  · have hfill : fillOf values.length = 128 - e.inbuf.length := by
      unfold fillOf
      omega
    rw [if_neg hempty, hfill]
    dsimp only
    refine ⟨blocks ++ [e.inbuf ++ List.replicate (128 - e.inbuf.length) 0], fun b hb => ?_, ?_, ?_⟩
    · rcases List.mem_append.mp hb with hold | hnew
      · exact hblocks b hold
      · rw [List.mem_singleton] at hnew
        exact hnew ▸ Block.filled (Nat.le_of_lt hlen) hlt
    · rw [List.flatten_append, List.flatten_singleton, ← List.append_assoc, hvalues]
    · rw [packBlocks_append, hbuf]
      rw [packBlocks, packBlocks, List.flatMap_singleton]

/-- A decoder over the buffer has the values and the zeros in front of it. How many zeros there
are is determined by the number of values. -/
theorem Encodes.remains {e : BitPackEncoder} {values : List Nat} {max_val : Nat}
    (h : e.Encodes values) (hbits : e.maxbits = bits max_val) (hmax : max_val < 2 ^ 32)
    (hne : max_val ≠ 0) {mem : Mapping} {data : Nat} (hmem : HoldsAt mem data e.flush.buf) :
    (BitPackDecoder.new data e.flush.buf.length max_val).Remains mem
      (values ++ List.replicate (fillOf values.length) 0) := by
  have hzero : bits max_val ≠ 0 := fun h0 => hne (bits_eq_zero.mp h0)
  have hmaxbits : (BitPackDecoder.new data e.flush.buf.length max_val).maxbits = bits max_val :=
    congrArg bits (Nat.mod_eq_of_lt hmax)
  obtain ⟨blocks, hblocks, hflat, hbuf⟩ := h.filled (hbits ▸ hzero)
  rw [hbits] at hblocks hbuf
  refine ⟨hmaxbits ▸ hzero, hmaxbits ▸ bits_le hmax, List.length_replicate, Nat.le_refl 128,
    blocks, hmaxbits.symm ▸ hblocks, ?_, ?_, ?_⟩
  · show (List.replicate 128 0).drop 128 ++ blocks.flatten = _
    rw [List.drop_of_length_le (by rw [List.length_replicate]), List.nil_append, hflat]
  · rw [hmaxbits, ← hbuf]
    exact hmem
  · rw [hmaxbits, ← hbuf]
    exact Nat.zero_add _

end BitPackEncoder

end CStable
