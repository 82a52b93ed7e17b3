import CStable.Proofs.EndOfColumn

/-!
# `CStable.Proofs.StreamBounds`: the bytes a stream takes

A stream of a column is given an address and a size, and checks every read against the
size alone. Here is which bytes it looks at while it does so:

* a bit-packed stream the whole blocks of the values that are asked for
  (`packedExtent`, `BitPackDecoder.Taken.next`), at most those that fit into its size
  (`wholeBlocks`);
* a stream of bytes those up to the position after each value
  (`BinaryMessageReader.Walks`), which never passes the size.

A read is a fault exactly when the bytes it takes are not all in the memory.
-/

set_option autoImplicit false

namespace CStable

open Support
open CxxM (exec exec_step exec_step_ok exec_step_error)

/-- So many bytes from an address on are mapped; no bytes are mapped everywhere. -/
def Inside (mem : Mapping) (address n_bytes : Nat) : Prop :=
  n_bytes = 0 ∨ address + n_bytes ≤ mem.length

instance (mem : Mapping) (address n_bytes : Nat) : Decidable (Inside mem address n_bytes) :=
  inferInstanceAs (Decidable (_ ∨ _))

/-- Fewer bytes from the same address on are mapped too. -/
theorem Inside.mono {mem : Mapping} {address n n' : Nat} (h : Inside mem address n)
    (hle : n' ≤ n) : Inside mem address n' := by
  unfold Inside at h ⊢
  omega

/-- A load of at least one byte either returns the bytes or is a fault. Here some of them are
not mapped. -/
theorem load_fault {mem : Mapping} {address n_bytes : Nat}
    (h : ¬address + n_bytes ≤ mem.length) : load mem address n_bytes = .error .fault :=
  if_neg h

/-- The bytes, when all of them are there. -/
theorem load_ok {mem : Mapping} {address n_bytes : Nat} (h : address + n_bytes ≤ mem.length) :
    load mem address n_bytes = .ok (readAt mem address n_bytes) :=
  if_pos h

/-! ### Bit-packed streams -/

/-- The number of values that `n` calls take from a bit-packed stream: its blocks of 128
values are those that lie within its size as a whole. -/
def packedCount (maxbits size n : Nat) : Nat :=
  if maxbits = 0 then n else min n (128 * (size / (16 * maxbits)))

/-- The bytes of the blocks with these values. -/
def packedExtent (maxbits size n : Nat) : Nat :=
  16 * maxbits * ((packedCount maxbits size n + 127) / 128)

/-- A value of a stream at the given address. -/
def packedValue (mem : Mapping) (data maxbits i : Nat) : Nat :=
  if maxbits = 0 then 0
  else (simdunpack (readAt mem (data + 16 * maxbits * (i / 128)) (16 * maxbits)) maxbits).getD
    (i % 128) 0

/-- One more call takes one more value, or the stream has ended. A stream of zero bits never
ends: it has no bytes to run out of. -/
theorem packedCount_succ (maxbits size n : Nat) :
    packedCount maxbits size (n + 1) = packedCount maxbits size n + 1 ∨
      maxbits ≠ 0 ∧ packedCount maxbits size n = 128 * (size / (16 * maxbits)) ∧
        packedCount maxbits size (n + 1) = packedCount maxbits size n := by
  unfold packedCount
  split_ifs with hzero
  · exact Or.inl rfl
  · rcases Nat.lt_or_ge n (128 * (size / (16 * maxbits))) with hlt | hge
    · exact Or.inl (by omega)
    · exact Or.inr ⟨hzero, by omega, by omega⟩

/-- Before the first call nothing is taken. -/
theorem packedCount_zero (maxbits size : Nat) : packedCount maxbits size 0 = 0 := by
  unfold packedCount
  split_ifs
  · rfl
  · exact Nat.zero_min _

/-- No value takes no bytes. -/
theorem packedExtent_zero (maxbits size : Nat) : packedExtent maxbits size 0 = 0 := by
  rw [packedExtent, packedCount_zero]
  rfl

/-- The bytes of the blocks that lie within the size as a whole. -/
def wholeBlocks (maxbits size : Nat) : Nat := 16 * maxbits * (size / (16 * maxbits))

/-- No block beyond these is taken, however many values are asked for. What the size leaves over
behind the last whole block is not looked at. -/
theorem packedExtent_le (maxbits size n : Nat) :
    packedExtent maxbits size n ≤ wholeBlocks maxbits size := by
  unfold packedExtent packedCount wholeBlocks
  by_cases hzero : maxbits = 0
  · simp [hzero]
  · rw [if_neg hzero]
    refine Nat.mul_le_mul_left _ ?_
    omega

/-- All of them are taken by as many calls as they have values. So the bound is reached, and the
condition on the blocks is exact. -/
theorem packedExtent_full {maxbits : Nat} (size : Nat) (hbits : maxbits ≠ 0) :
    packedExtent maxbits size (128 * (size / (16 * maxbits))) = wholeBlocks maxbits size := by
  rw [packedExtent, packedCount, if_neg hbits, Nat.min_self, wholeBlocks]
  congr 1
  omega

/-- The block of a value that is left lies within the size. This is the only place where the
size of the stream bounds its bytes. -/
theorem block_fits {maxbits size n : Nat} (hleft : n < 128 * (size / (16 * maxbits))) :
    16 * maxbits * (n / 128) + 16 * maxbits ≤ size := by
  have hlt : n / 128 + 1 ≤ size / (16 * maxbits) := by omega
  calc 16 * maxbits * (n / 128) + 16 * maxbits = 16 * maxbits * (n / 128 + 1) := by ring
    _ ≤ 16 * maxbits * (size / (16 * maxbits)) := Nat.mul_le_mul_left _ hlt
    _ ≤ size := Nat.mul_div_le _ _

namespace BitPackDecoder

/-- A decoder of a stream from which `n` values have been taken. -/
structure Taken (mem : Mapping) (data size maxbits n : Nat) (d : BitPackDecoder) : Prop where
  data_eq : d.data = data
  size_eq : d.size = size
  maxbits_eq : d.maxbits = maxbits
  pos_eq : maxbits ≠ 0 → d.pos = 16 * maxbits * ((n + 127) / 128)
  outbuf_pos_eq : maxbits ≠ 0 → d.outbuf_pos + 128 * ((n + 127) / 128) = n + 128
  outbuf_eq : maxbits ≠ 0 → n % 128 ≠ 0 →
    d.outbuf = simdunpack (readAt mem (data + 16 * maxbits * (n / 128)) (16 * maxbits)) maxbits

section

variable {mem : Mapping} {data size maxbits n : Nat} {d : BitPackDecoder}

/-- The constructor of a decoder takes nothing: its first call unpacks the first block. A stream
that is never asked may therefore lie anywhere. -/
theorem taken_new (mem : Mapping) (data size max_val : Nat) :
    Taken mem data size (bits (max_val % 2 ^ 32)) 0 (new data size max_val) where
  data_eq := rfl
  size_eq := rfl
  maxbits_eq := rfl
  pos_eq _ := by
    rw [show (0 + 127) / 128 = 0 from rfl, Nat.mul_zero]
    rfl
  outbuf_pos_eq _ := rfl
  outbuf_eq _ h := absurd rfl h

/-- A value that is left is read, unless its block is outside of the memory. The block is
unpacked with its first value and kept for the other 127. -/
theorem Taken.next_value (h : Taken mem data size maxbits n d)
    (hleft : maxbits ≠ 0 → n < 128 * (size / (16 * maxbits)))
    (hmem : Inside mem data (16 * maxbits * ((n + 1 + 127) / 128))) :
    ∃ d', d.next mem = .ok (packedValue mem data maxbits n, d') ∧
      Taken mem data size maxbits (n + 1) d' := by
  obtain ⟨rfl, rfl, rfl, hpos, hout, hbuf⟩ := h
  by_cases hzero : d.maxbits = 0
  · -- without bits no block is ever loaded
    refine ⟨d, ?_, rfl, rfl, rfl, fun hne => absurd hzero hne, fun hne => absurd hzero hne,
      fun hne => absurd hzero hne⟩
    rw [packedValue, if_pos hzero]
    exact fetch_none hzero true
  · have hpos := hpos hzero
    have hout := hout hzero
    have hbuf := hbuf hzero
    rw [packedValue, if_neg hzero]
    by_cases hblock : n % 128 = 0
    · -- the first value of a block
      have hq : (n + 127) / 128 = n / 128 := by omega
      have hq' : (n + 1 + 127) / 128 = n / 128 + 1 := by omega
      have hfits := block_fits (hleft hzero)
      rw [hq] at hpos hout
      rw [hq', Nat.mul_succ] at hmem
      have hload : load mem (d.data + d.pos) (16 * d.maxbits) =
          .ok (readAt mem (d.data + 16 * d.maxbits * (n / 128)) (16 * d.maxbits)) := by
        rw [hpos]
        refine load_ok ?_
        unfold Inside at hmem
        omega
      have hnext := fetch_block mem hzero (by omega) (by omega) true
      rw [hload] at hnext
      let block := readAt mem (d.data + 16 * d.maxbits * (n / 128)) (16 * d.maxbits)
      refine ⟨{ d with
          pos := d.pos + 16 * d.maxbits
          outbuf := simdunpack block d.maxbits
          outbuf_pos := 1 }, by rw [hblock]; exact hnext, rfl, rfl, rfl, fun _ => ?_,
        fun _ => ?_, fun _ _ => ?_⟩
      · rw [hq', hpos]
        exact (Nat.mul_succ _ _).symm
      · rw [hq']
        show 1 + 128 * (n / 128 + 1) = n + 1 + 128
        omega
      · rw [show (n + 1) / 128 = n / 128 by omega]
    · -- a value of the block that was unpacked last
      have hq : (n + 1 + 127) / 128 = (n + 127) / 128 := by omega
      have hnext : d.fetch mem true = _ := fetch_inside hzero (by omega) true
      have hindex : d.outbuf_pos = n % 128 := by omega
      refine ⟨{ d with outbuf_pos := d.outbuf_pos + 1 },
        by rw [← hbuf hblock, ← hindex]; exact hnext, rfl, rfl, rfl, fun _ => ?_, fun _ => ?_,
        fun _ hne => ?_⟩
      · rw [hq]
        exact hpos
      · rw [hq]
        show d.outbuf_pos + 1 + 128 * ((n + 127) / 128) = n + 1 + 128
        omega
      · rw [show (n + 1) / 128 = n / 128 by omega]
        exact hbuf hblock

/-- A block outside of the memory. The values before it were inside, so this call is the first
that needs the block. -/
theorem Taken.next_fault (h : Taken mem data size maxbits n d)
    (hleft : maxbits ≠ 0 → n < 128 * (size / (16 * maxbits)))
    (hmem : Inside mem data (16 * maxbits * ((n + 127) / 128)))
    (hout : ¬Inside mem data (16 * maxbits * ((n + 1 + 127) / 128))) :
    d.next mem = .error .fault := by
  obtain ⟨rfl, rfl, rfl, hpos, houtbuf, -⟩ := h
  have hzero : d.maxbits ≠ 0 := by
    intro hzero
    rw [hzero] at hout
    exact hout (Or.inl (by omega))
  have hblock : n % 128 = 0 := by
    -- the other values are in a block that is inside
    by_contra hne
    rw [show (n + 1 + 127) / 128 = (n + 127) / 128 by omega] at hout
    exact hout hmem
  have hpos := hpos hzero
  have houtbuf := houtbuf hzero
  have hq : (n + 127) / 128 = n / 128 := by omega
  have hq' : (n + 1 + 127) / 128 = n / 128 + 1 := by omega
  have hfits := block_fits (hleft hzero)
  rw [hq] at hpos houtbuf
  rw [hq', Nat.mul_succ] at hout
  unfold Inside at hout
  have hnext := fetch_block mem hzero (by omega) (by omega) true
  rw [load_fault (by omega)] at hnext
  exact hnext

/-- Behind the last block. The check is on the size that was announced, before any byte is
looked at. -/
theorem Taken.next_end (h : Taken mem data size maxbits n d) (hzero : maxbits ≠ 0)
    (hend : n = 128 * (size / (16 * maxbits))) :
    d.next mem = RAISE .kBufferOverflowError "read exceeds buffer boundary" := by
  obtain ⟨rfl, rfl, rfl, hpos, hout, -⟩ := h
  have hpos := hpos hzero
  have hout := hout hzero
  have hq : (n + 127) / 128 = d.size / (16 * d.maxbits) := by omega
  have hlt : d.size < 16 * d.maxbits * (d.size / (16 * d.maxbits)) + 16 * d.maxbits := by
    have := Nat.lt_mul_div_succ d.size (show 0 < 16 * d.maxbits by omega)
    rwa [Nat.mul_succ] at this
  rw [hq] at hpos hout
  exact fetch_end hzero (by omega) (by omega) true

/-- One call: a value, the end of the stream, or a block outside of the memory. The count and
the extent after the call say which of the three it is. -/
theorem Taken.next (h : Taken mem data size maxbits (packedCount maxbits size n) d)
    (hmem : Inside mem data (packedExtent maxbits size n)) :
    (packedCount maxbits size (n + 1) = packedCount maxbits size n ∧
      d.next mem = RAISE .kBufferOverflowError "read exceeds buffer boundary") ∨
    (packedCount maxbits size (n + 1) = packedCount maxbits size n + 1 ∧
      ¬Inside mem data (packedExtent maxbits size (n + 1)) ∧ d.next mem = .error .fault) ∨
    (packedCount maxbits size (n + 1) = packedCount maxbits size n + 1 ∧
      Inside mem data (packedExtent maxbits size (n + 1)) ∧
      ∃ d', d.next mem = .ok (packedValue mem data maxbits (packedCount maxbits size n), d') ∧
        Taken mem data size maxbits (packedCount maxbits size (n + 1)) d') := by
  -- the stream yields one more value, which may lie outside, or it is at its end
  rcases packedCount_succ maxbits size n with hsucc | ⟨hzero, hend, heq⟩
  · have hleft : maxbits ≠ 0 → packedCount maxbits size n < 128 * (size / (16 * maxbits)) := by
      intro hzero
      unfold packedCount at hsucc ⊢
      rw [if_neg hzero] at hsucc ⊢
      rw [if_neg hzero] at hsucc
      omega
    by_cases hin : Inside mem data (packedExtent maxbits size (n + 1))
    · refine Or.inr (Or.inr ⟨hsucc, hin, ?_⟩)
      rw [packedExtent, hsucc] at hin
      rw [hsucc]
      exact h.next_value hleft hin
    · refine Or.inr (Or.inl ⟨hsucc, hin, ?_⟩)
      rw [packedExtent, hsucc] at hin
      exact h.next_fault hleft hmem hin
  · exact Or.inl ⟨heq, h.next_end hzero hend⟩

end

end BitPackDecoder

/-! ### Streams of bytes -/

/-- The position after a read of so many bytes: past the size it raises and moves
nothing. -/
def afterBytes (width size pos : Nat) : Nat := if pos + width > size then pos else pos + width

/-- The position after a number is read, byte by byte. -/
def afterVarUIntFrom (mem : Mapping) (ptr size : Nat) : Nat → Nat → Nat
  | 0, pos => pos
  | fuel + 1, pos =>
    if pos + 1 > size then pos
    else if leNat (readAt mem (ptr + pos) 1) &&& 0x80 = 0 then pos + 1
    else afterVarUIntFrom mem ptr size fuel (pos + 1)

/-- The position after a number is read. -/
def afterVarUInt (mem : Mapping) (ptr size pos : Nat) : Nat :=
  afterVarUIntFrom mem ptr size (size - pos + 1) pos

/-- The position after a string is read: where its text does not fit, its length has
been read all the same. -/
def afterText (mem : Mapping) (ptr size pos : Nat) : Nat :=
  if pos + 4 > size then pos
  else afterBytes (leNat (readAt mem (ptr + pos) 4)) size (pos + 4)

namespace BinaryMessageReader

/-- A computation on a reader moves it to the given position; it is a fault exactly when
the bytes up to there are not all in the memory. -/
def Walks {α : Type} (mem : Mapping) (x : CxxM BinaryMessageReader α)
    (after : Nat → Nat → Nat → Nat) : Prop :=
  ∀ r : BinaryMessageReader, Inside mem r.ptr r.pos →
    (Inside mem r.ptr (after r.ptr r.size r.pos) ∧ NoFault (exec x r).1 ∧
      (exec x r).2 = { r with pos := after r.ptr r.size r.pos }) ∨
    (¬Inside mem r.ptr (after r.ptr r.size r.pos) ∧ (exec x r).1 = .error .fault)

variable {mem : Mapping}

/-- A read raises at the end of the region, and is a fault outside of the memory. The region is
what was announced, the memory what is there. -/
theorem read_cases (mem : Mapping) (r : BinaryMessageReader) (size : Nat) :
    (r.pos + size > r.size ∧
      r.read mem size = RAISE .kBufferOverflowError "requested read exceeds message bounds") ∨
    (r.pos + size ≤ r.size ∧ ¬r.ptr + r.pos + size ≤ mem.length ∧
      r.read mem size = .error .fault) ∨
    (r.pos + size ≤ r.size ∧ r.ptr + r.pos + size ≤ mem.length ∧
      r.read mem size = .ok (readAt mem (r.ptr + r.pos) size, { r with pos := r.pos + size })) := by
  unfold BinaryMessageReader.read
  by_cases hsize : r.pos + size > r.size
  · exact Or.inl ⟨hsize, if_pos hsize⟩
  · rw [if_neg hsize]
    by_cases hmem : r.ptr + r.pos + size ≤ mem.length
    · refine Or.inr (Or.inr ⟨Nat.not_lt.mp hsize, hmem, ?_⟩)
      rw [load_ok hmem]
      rfl
    · refine Or.inr (Or.inl ⟨Nat.not_lt.mp hsize, hmem, ?_⟩)
      rw [load_fault hmem]
      rfl

/-- Numbers of a fixed width. An exception leaves the reader where it was, since the whole width
is checked at once. -/
theorem walks_bytes {α : Type} {width : Nat} (hwidth : 0 < width)
    {f : BinaryMessageReader → Result (α × BinaryMessageReader)} {value : Bytes → α}
    (hf : ∀ r, f r = (r.read mem width).map fun p => (value p.1, p.2)) :
    Walks mem (CxxM.step f) fun _ => afterBytes width := by
  intro r hin
  beta_reduce
  unfold Inside at hin
  -- past the bound the reader raises and stays; outside the mapping it faults; else it moves on
  rcases read_cases mem r width with ⟨hsize, hread⟩ | ⟨hsize, hmem, hread⟩ | ⟨hsize, hmem, hread⟩
  · have hrun : exec (CxxM.step f) r = (RAISE .kBufferOverflowError
        "requested read exceeds message bounds", r) := exec_step_error (by rw [hf, hread]; rfl)
    have hafter : afterBytes width r.size r.pos = r.pos := if_pos hsize
    rw [hrun, hafter]
    exact Or.inl ⟨hin, .raise _ _, rfl⟩
  · have hrun : exec (CxxM.step f) r = (.error .fault, r) :=
      exec_step_error (by rw [hf, hread]; rfl)
    have hafter : afterBytes width r.size r.pos = r.pos + width := if_neg (Nat.not_lt.mpr hsize)
    rw [hrun, hafter]
    exact Or.inr ⟨by unfold Inside; omega, rfl⟩
  · have hrun : exec (CxxM.step f) r = (.ok (value (readAt mem (r.ptr + r.pos) width)),
        { r with pos := r.pos + width }) := exec_step_ok (by rw [hf, hread]; rfl)
    have hafter : afterBytes width r.size r.pos = r.pos + width := if_neg (Nat.not_lt.mpr hsize)
    rw [hrun, hafter]
    exact Or.inl ⟨by unfold Inside; omega, .ok _, rfl⟩

/-- The loop over the bytes of a number: a byte outside of the memory is a fault before
its continuation bit is looked at. -/
theorem walks_varUIntFrom (fuel i value : Nat) :
    ∀ r : BinaryMessageReader, r.size - r.pos < fuel → Inside mem r.ptr r.pos →
      (Inside mem r.ptr (afterVarUIntFrom mem r.ptr r.size fuel r.pos) ∧
        NoFault (exec (varUIntFrom mem fuel i value) r).1 ∧
        (exec (varUIntFrom mem fuel i value) r).2 =
          { r with pos := afterVarUIntFrom mem r.ptr r.size fuel r.pos }) ∨
      (¬Inside mem r.ptr (afterVarUIntFrom mem r.ptr r.size fuel r.pos) ∧
        (exec (varUIntFrom mem fuel i value) r).1 = .error .fault) := by
  induction fuel generalizing i value with
  | zero => exact fun r hfuel => absurd hfuel (Nat.not_lt_zero _)
  | succ fuel ih =>
    intro r hfuel hin
    unfold varUIntFrom afterVarUIntFrom
    rcases read_cases mem r 1 with ⟨hsize, hread⟩ | ⟨hsize, hmem, hread⟩ | ⟨hsize, hmem, hread⟩
    · rw [CxxM.exec_bind_error (exec_step_error hread), if_pos hsize]
      exact Or.inl ⟨hin, .raise _ _, rfl⟩
    · -- the byte is missing: nothing of the memory is behind the position
      have hbyte : readAt mem (r.ptr + r.pos) 1 = [] := by
        rw [readAt, List.drop_of_length_le (by omega)]
        rfl
      rw [CxxM.exec_bind_error (exec_step_error hread), if_neg (Nat.not_lt.mpr hsize), hbyte,
        if_pos (by rfl)]
      exact Or.inr ⟨by unfold Inside; omega, rfl⟩
    · rw [CxxM.exec_bind_ok (exec_step_ok hread), if_neg (Nat.not_lt.mpr hsize)]
      dsimp only
      by_cases hlast : leNat (readAt mem (r.ptr + r.pos) 1) &&& 0x80 = 0
      · rw [if_pos hlast, if_pos hlast]
        exact Or.inl ⟨by unfold Inside; omega, .ok _, rfl⟩
      · rw [if_neg hlast, if_neg hlast]
        exact ih _ _ { r with pos := r.pos + 1 } (by show r.size - (r.pos + 1) < fuel; omega)
          (Or.inr (by show r.ptr + (r.pos + 1) ≤ mem.length; omega))

/-- A number in LEB128. An exception leaves the reader behind the bytes that were read, so the
next call goes on from there. -/
theorem walks_varUInt : Walks mem (varUInt mem) (afterVarUInt mem) := fun r hin =>
  walks_varUIntFrom (r.size - r.pos + 1) 0 0 r (Nat.lt_succ_self _) hin

/-- A string: after an exception at its text the reader is behind its length, and the next call
takes the text for a length. -/
theorem walks_text : Walks mem (text mem) (afterText mem) := by
  intro r hin
  unfold text afterText
  have hlength : ∀ r : BinaryMessageReader, r.readUInt32 mem =
      (r.read mem 4).map fun p => (leNat p.1, p.2) := by
    intro r
    unfold BinaryMessageReader.readUInt32
    cases r.read mem 4 <;> rfl
  -- the length is past the bound, or outside the mapping, or read; then so is the text
  rcases read_cases mem r 4 with ⟨hsize, hread⟩ | ⟨hsize, hmem, hread⟩ | ⟨hsize, hmem, hread⟩
  · have hrun : r.readUInt32 mem = RAISE .kBufferOverflowError
        "requested read exceeds message bounds" := by
      rw [hlength, hread]
      rfl
    rw [CxxM.exec_bind_error (exec_step_error hrun), if_pos hsize]
    exact Or.inl ⟨hin, .raise _ _, rfl⟩
  · have hrun : r.readUInt32 mem = .error .fault := by
      rw [hlength, hread]
      rfl
    rw [CxxM.exec_bind_error (exec_step_error hrun), if_neg (Nat.not_lt.mpr hsize)]
    refine Or.inr ⟨fun hinside => ?_, rfl⟩
    have hle : r.pos + 4 ≤ afterBytes (leNat (readAt mem (r.ptr + r.pos) 4))
      r.size (r.pos + 4) := by
      unfold afterBytes
      split_ifs <;> omega
    unfold Inside at hinside
    omega
  · have hrun : r.readUInt32 mem = .ok (leNat (readAt mem (r.ptr + r.pos) 4),
        { r with pos := r.pos + 4 }) := by
      rw [hlength, hread]
      rfl
    rw [CxxM.exec_bind_ok (exec_step_ok hrun), if_neg (Nat.not_lt.mpr hsize)]
    generalize leNat (readAt mem (r.ptr + r.pos) 4) = data_len
    unfold afterBytes
    rcases read_cases mem { r with pos := r.pos + 4 } data_len with
      ⟨hsize', hread'⟩ | ⟨hsize', hmem', hread'⟩ | ⟨hsize', hmem', hread'⟩
    · rw [exec_step_error hread', if_pos hsize']
      exact Or.inl ⟨Or.inr (by omega), .raise _ _, rfl⟩
    · rw [exec_step_error hread', if_neg (Nat.not_lt.mpr hsize')]
      refine Or.inr ⟨?_, rfl⟩
      change ¬r.ptr + (r.pos + 4) + data_len ≤ mem.length at hmem'
      unfold Inside
      omega
    · rw [exec_step_ok hread', if_neg (Nat.not_lt.mpr hsize')]
      change r.ptr + (r.pos + 4) + data_len ≤ mem.length at hmem'
      exact Or.inl ⟨Or.inr (by omega), .ok _, rfl⟩

end BinaryMessageReader

/-! ### Positions within the size -/

/-- A read that would pass the size does not move. -/
theorem afterBytes_le {width size pos : Nat} (h : pos ≤ size) :
    afterBytes width size pos ≤ size := by
  unfold afterBytes
  split_ifs <;> omega

/-- The bytes of a number are read one by one, each of them within the size. By induction on the
bytes a number may have. -/
theorem afterVarUIntFrom_le {mem : Mapping} {ptr size fuel pos : Nat} (h : pos ≤ size) :
    afterVarUIntFrom mem ptr size fuel pos ≤ size := by
  induction fuel generalizing pos with
  | zero => exact h
  | succ fuel ih =>
    unfold afterVarUIntFrom
    split_ifs with hsize
    · exact h
    · omega
    · exact ih (by omega)

/-- The length and the text of a string are within the size. -/
theorem afterText_le {mem : Mapping} {ptr size pos : Nat} (h : pos ≤ size) :
    afterText mem ptr size pos ≤ size := by
  unfold afterText
  split_ifs with hsize
  · exact h
  · exact afterBytes_le (by omega)

/-- What one value keeps holds after any number of values. By induction on the number. -/
theorem iterate_le {f : Nat → Nat} {size : Nat} (hf : ∀ pos, pos ≤ size → f pos ≤ size) (n : Nat) :
    f^[n] 0 ≤ size := by
  induction n with
  | zero => exact Nat.zero_le _
  | succ n ih =>
    rw [Function.iterate_succ_apply']
    exact hf _ ih

/-- Values of a fixed width take their width each, as long as there is room. Behind that each
call raises and stays, so the position is this for every number of calls. -/
theorem iterate_afterBytes {width : Nat} (hwidth : 0 < width) (size n : Nat) :
    (afterBytes width size)^[n] 0 = width * min n (size / width) := by
  induction n with
  | zero => rw [Function.iterate_zero_apply, Nat.zero_min, Nat.mul_zero]
  | succ n ih =>
    rw [Function.iterate_succ_apply', ih, afterBytes]
    rcases Nat.lt_or_ge n (size / width) with hlt | hge
    · have hfits : width * n + width ≤ size := by
        calc width * n + width = width * (n + 1) := by ring
          _ ≤ width * (size / width) := Nat.mul_le_mul_left _ hlt
          _ ≤ size := Nat.mul_div_le _ _
      rw [Nat.min_eq_left (Nat.le_of_lt hlt), Nat.min_eq_left hlt, if_neg (by omega)]
      exact (Nat.mul_succ width n).symm
    · have hend : size < width * (size / width) + width := Nat.lt_mul_div_succ size hwidth
      rw [Nat.min_eq_right hge, Nat.min_eq_right (Nat.le_succ_of_le hge), if_pos hend]

end CStable
