import CStable.Proofs.DataBounds

/-!
# `CStable.Proofs.BodyBounds`: what a malformed body makes a reader look at

A column reader is given the address and the size of a body. The sizes of the three
streams are numbers of the body; nothing compares them with its size, and every later
check is against these numbers. Here the body is all the memory there is, so that an
access outside of it is a fault.

`AfterReads` is what a reader looks like that has read `n` times, by what that takes from
the three streams (`Proofs.StreamBounds`, `Proofs.DataBounds`). One more read is inside of
the body or a fault (`AfterReads.fetchNext`), and so no calls look outside exactly when
the streams stay inside for every number of reads (`neverLooksOutside_iff`).

That is not yet an answer, since the streams have to be decoded to say what they take.
`RegionsInside` asks for no more than the sizes: it is enough, and exact for columns
without levels (`neverLooksOutside_of_regions`).
-/

set_option autoImplicit false

namespace CStable

open Support
open CxxM (exec exec_step exec_step_ok exec_step_error)

namespace v1

/-! ### What reads take -/

/-- One of the four numbers in front of the streams of a body. -/
def bodyWord (body : Bytes) (i : Nat) : Nat := leNat (readAt body (8 * i) 8)

/-- The size of the repetition levels, as the body has it. -/
def rlvlSize (body : Bytes) : Nat := bodyWord body 1

/-- The size of the definition levels. -/
def dlvlSize (body : Bytes) : Nat := bodyWord body 2

/-- The size of the data. -/
def dataSize (body : Bytes) : Nat := bodyWord body 3

/-- The address of the definition levels, a pointer sum that may have wrapped. -/
def dlvlStart (body : Bytes) : Nat := pointerSum body (32 + rlvlSize body)

/-- The address of the data. -/
def dataStart (body : Bytes) : Nat := pointerSum body (32 + rlvlSize body + dlvlSize body)

/-- The repetition levels that `n` reads take. -/
def rlvlsTaken (body : Bytes) (r_max n : Nat) : Nat :=
  packedCount (bits (r_max % 2 ^ 32)) (rlvlSize body) n

/-- The definition levels: a read without a repetition level takes none. -/
def dlvlsTaken (body : Bytes) (r_max d_max n : Nat) : Nat :=
  packedCount (bits (d_max % 2 ^ 32)) (dlvlSize body) (rlvlsTaken body r_max n)

/-- The values: those of the entries at the maximal definition level. -/
def valuesAsked (body : Bytes) (r_max d_max n : Nat) : Nat :=
  (List.range (dlvlsTaken body r_max d_max n)).countP fun i =>
    packedValue body (dlvlStart body) (bits (d_max % 2 ^ 32)) i = d_max

/-- What `n` reads take from the three streams, by the sizes the body has for them, is
inside of the body. -/
structure ReadsInside (encoding : ColumnEncoding) (r_max d_max : Nat) (body : Bytes) (n : Nat) :
    Prop where
  rlvl : Inside body 32 (packedExtent (bits (r_max % 2 ^ 32)) (rlvlSize body) n)
  dlvl : Inside body (dlvlStart body)
    (packedExtent (bits (d_max % 2 ^ 32)) (dlvlSize body) (rlvlsTaken body r_max n))
  data : Inside body (dataStart body)
    (dataExtent body encoding (dataStart body) (dataSize body)
      (valuesAsked body r_max d_max n))

/-- No access of a reader over the body is outside of it, neither in the constructor nor in
any calls by a caller that catches exceptions. The body is all the memory there is. -/
def NeverLooksOutside (ops : FloatOps) (encoding : ColumnEncoding) (r_max d_max : Nat)
    (body : Bytes) : Prop :=
  NoFault (ColumnReader.new body encoding r_max d_max 0 body.length) ∧
    ∀ c, ColumnReader.new body encoding r_max d_max 0 body.length = .ok c →
      ∀ calls, ∀ p ∈ ColumnReader.transcript ops body calls c, NoFault p.2

namespace ColumnReader

section

variable {encoding : ColumnEncoding} {r_max d_max n : Nat} {body : Bytes} {c : ColumnReader}

/-- A reader over the body after `n` reads. -/
structure AfterReads (encoding : ColumnEncoding) (r_max d_max : Nat) (body : Bytes) (n : Nat)
    (c : ColumnReader) : Prop where
  d_max_eq : c.d_max = d_max
  encoding_eq : c.data_reader.encoding = encoding
  rlvl : c.rlvl_reader.Taken body 32 (rlvlSize body) (bits (r_max % 2 ^ 32))
    (rlvlsTaken body r_max n)
  dlvl : c.dlvl_reader.Taken body (dlvlStart body) (dlvlSize body) (bits (d_max % 2 ^ 32))
    (dlvlsTaken body r_max d_max n)
  data : c.data_reader.Asked body (dataStart body) (dataSize body)
    (valuesAsked body r_max d_max n)

/-- One more value is asked for where the next definition level is the maximal one. The
levels are those of the body itself, so the count depends on the bytes and not on the
reader's state. -/
theorem valuesAsked_succ
    (hcount : dlvlsTaken body r_max d_max (n + 1) = dlvlsTaken body r_max d_max n + 1) :
    valuesAsked body r_max d_max (n + 1) = valuesAsked body r_max d_max n +
      if packedValue body (dlvlStart body) (bits (d_max % 2 ^ 32))
        (dlvlsTaken body r_max d_max n) = d_max then 1 else 0 := by
  unfold valuesAsked
  rw [hcount, List.range_succ, List.countP_append, List.countP_singleton]
  simp only [decide_eq_true_eq]

/-! ### One more read -/

/-- What one more read does: it stays inside of the body and leaves a reader behind that
has read once more, or it is a fault and what it takes is not inside. -/
def ReadsOn (encoding : ColumnEncoding) (r_max d_max : Nat) (body : Bytes) (n : Nat)
    (c : ColumnReader) : Prop :=
  (ReadsInside encoding r_max d_max body (n + 1) ∧ NoFault (exec (fetchNext body) c).1 ∧
    (exec (fetchNext body) c).2.AfterReads encoding r_max d_max body (n + 1)) ∨
  (¬ReadsInside encoding r_max d_max body (n + 1) ∧
    (exec (fetchNext body) c).1 = .error .fault)

/-- Where the repetition levels have ended a read raises, and nothing moves. The definition
levels and the data are behind this check and are not asked. -/
theorem AfterReads.readsOn_rlvl_end (h : c.AfterReads encoding r_max d_max body n)
    (hin : ReadsInside encoding r_max d_max body n)
    (hcount : rlvlsTaken body r_max (n + 1) = rlvlsTaken body r_max n)
    (hend : c.rlvl_reader.next body = RAISE .kBufferOverflowError "read exceeds buffer boundary") :
    c.ReadsOn encoding r_max d_max body n := by
  have hdcount : dlvlsTaken body r_max d_max (n + 1) = dlvlsTaken body r_max d_max n := by
    rw [dlvlsTaken, dlvlsTaken, hcount]
  have hvcount : valuesAsked body r_max d_max (n + 1) = valuesAsked body r_max d_max n := by
    rw [valuesAsked, valuesAsked, hdcount]
  unfold ReadsOn
  rw [fetchNext_rlvl_error hend]
  refine Or.inl ⟨⟨?_, ?_, ?_⟩, .raise _ _, h.d_max_eq, h.encoding_eq, ?_, ?_, ?_⟩
  · have hextent := hin.rlvl
    rwa [packedExtent, ← rlvlsTaken, ← hcount] at hextent
  · rw [hcount]
    exact hin.dlvl
  · rw [hvcount]
    exact hin.data
  · rw [hcount]
    exact h.rlvl
  · rw [hdcount]
    exact h.dlvl
  · rw [hvcount]
    exact h.data

/-- Where the definition levels have ended a read raises too, and the repetition level is
gone all the same. -/
theorem AfterReads.readsOn_dlvl_end (h : c.AfterReads encoding r_max d_max body n)
    (hin : ReadsInside encoding r_max d_max body n)
    (hin' : Inside body 32 (packedExtent (bits (r_max % 2 ^ 32)) (rlvlSize body) (n + 1)))
    {v : Nat} {rr : BitPackDecoder} (hr : c.rlvl_reader.next body = .ok (v, rr))
    (hrr : rr.Taken body 32 (rlvlSize body) (bits (r_max % 2 ^ 32)) (rlvlsTaken body r_max (n + 1)))
    (hdcount : dlvlsTaken body r_max d_max (n + 1) = dlvlsTaken body r_max d_max n)
    (hend : c.dlvl_reader.next body = RAISE .kBufferOverflowError "read exceeds buffer boundary") :
    c.ReadsOn encoding r_max d_max body n := by
  have hvcount : valuesAsked body r_max d_max (n + 1) = valuesAsked body r_max d_max n := by
    rw [valuesAsked, valuesAsked, hdcount]
  unfold ReadsOn
  rw [fetchNext_dlvl_error hr hend]
  refine Or.inl ⟨⟨hin', ?_, ?_⟩, .raise _ _, h.d_max_eq, h.encoding_eq, hrr, ?_, ?_⟩
  · have hextent := hin.dlvl
    rwa [packedExtent, ← dlvlsTaken, ← hdcount] at hextent
  · rw [hvcount]
    exact hin.data
  · rw [hdcount]
    exact h.dlvl
  · rw [hvcount]
    exact h.data

/-- An entry whose levels have been read: the value, if it has one, decides. A null asks the
data stream for nothing, so its read cannot leave the body any more. -/
theorem AfterReads.readsOn_levels (h : c.AfterReads encoding r_max d_max body n)
    (hin : ReadsInside encoding r_max d_max body n)
    (hin' : Inside body 32 (packedExtent (bits (r_max % 2 ^ 32)) (rlvlSize body) (n + 1)))
    (hdin : Inside body (dlvlStart body)
      (packedExtent (bits (d_max % 2 ^ 32)) (dlvlSize body) (rlvlsTaken body r_max (n + 1))))
    {v : Nat} {rr dr : BitPackDecoder} (hr : c.rlvl_reader.next body = .ok (v, rr))
    (hrr : rr.Taken body 32 (rlvlSize body) (bits (r_max % 2 ^ 32)) (rlvlsTaken body r_max (n + 1)))
    (hdcount : dlvlsTaken body r_max d_max (n + 1) = dlvlsTaken body r_max d_max n + 1)
    (hd : c.dlvl_reader.next body = .ok (packedValue body (dlvlStart body)
      (bits (d_max % 2 ^ 32)) (dlvlsTaken body r_max d_max n), dr))
    (hdr : dr.Taken body (dlvlStart body) (dlvlSize body) (bits (d_max % 2 ^ 32))
      (dlvlsTaken body r_max d_max (n + 1))) :
    c.ReadsOn encoding r_max d_max body n := by
  have hmax := h.d_max_eq
  have henc := h.encoding_eq
  have hvcount := valuesAsked_succ hdcount
  unfold ReadsOn
  by_cases hvalue : packedValue body (dlvlStart body) (bits (d_max % 2 ^ 32))
      (dlvlsTaken body r_max d_max n) = d_max
  · -- a value is asked for
    rw [if_pos hvalue] at hvcount
    rw [hvalue, ← hmax] at hd
    rw [fetchNext_datum hr hd]
    have hdatain := hin.data
    rw [← henc] at hdatain
    rcases h.data.fetch hdatain with ⟨hin'', hfault, hasked, hclass⟩ | ⟨hout, hfault⟩
    · refine Or.inl ⟨⟨hin', hdin, ?_⟩, hfault.map, hmax, hclass.trans henc, hrr, hdr, ?_⟩
      · rw [hvcount, ← henc]
        exact hin''
      · rw [hvcount]
        exact hasked
    · refine Or.inr ⟨fun hinside => hout ?_, ?_⟩
      · have hextent := hinside.data
        rw [hvcount] at hextent
        rw [henc]
        exact hextent
      · dsimp only
        rw [hfault]
        rfl
  · -- a null takes nothing from the data
    rw [if_neg hvalue, Nat.add_zero] at hvcount
    rw [fetchNext_null hr hd (hmax ▸ hvalue)]
    refine Or.inl ⟨⟨hin', hdin, ?_⟩, .ok _, hmax, henc, hrr, hdr, ?_⟩
    · rw [hvcount]
      exact hin.data
    · rw [hvcount]
      exact h.data

/-- One more read, stream after stream: each of the two level streams has ended, leads
outside or yields a level. -/
theorem AfterReads.fetchNext (h : c.AfterReads encoding r_max d_max body n)
    (hin : ReadsInside encoding r_max d_max body n) : c.ReadsOn encoding r_max d_max body n := by
  rcases h.rlvl.next hin.rlvl with ⟨hcount, hend⟩ | ⟨-, hout, hfault⟩ | ⟨hcount, hin', rr, hr, hrr⟩
  · exact h.readsOn_rlvl_end hin hcount hend
  · unfold ReadsOn
    rw [fetchNext_rlvl_error hfault]
    exact Or.inr ⟨fun hinside => hout hinside.rlvl, rfl⟩
  -- a definition level for every repetition level
  have hcount : rlvlsTaken body r_max (n + 1) = rlvlsTaken body r_max n + 1 := hcount
  have hdtaken : dlvlsTaken body r_max d_max (n + 1) =
      packedCount (bits (d_max % 2 ^ 32)) (dlvlSize body) (rlvlsTaken body r_max n + 1) := by
    rw [dlvlsTaken, hcount]
  rcases h.dlvl.next hin.dlvl with ⟨hdcount, hend⟩ | ⟨-, hout, hfault⟩ |
    ⟨hdcount, hdin, dr, hd, hdr⟩
  · exact h.readsOn_dlvl_end hin hin' hr hrr (hdtaken.trans hdcount) hend
  · unfold ReadsOn
    rw [fetchNext_dlvl_error hr hfault]
    refine Or.inr ⟨fun hinside => hout ?_, rfl⟩
    rw [← hcount]
    exact hinside.dlvl
  · rw [← hcount] at hdin
    rw [← hdtaken] at hdr
    exact h.readsOn_levels hin hin' hdin hr hrr (hdtaken.trans hdcount) hd hdr

/-! ### The constructor -/

/-- One of the four numbers is read. They are the counts and sizes that place the three streams
behind them. -/
theorem readWord_ok {i : Nat} (h : 8 * i + 8 ≤ body.length) :
    (⟨0, body.length, 8 * i⟩ : BinaryMessageReader).readUInt64 body =
      .ok (bodyWord body i, ⟨0, body.length, 8 * (i + 1)⟩) := by
  rcases BinaryMessageReader.read_cases body ⟨0, body.length, 8 * i⟩ 8 with
    ⟨hsize, -⟩ | ⟨-, hmem, -⟩ | ⟨-, -, hread⟩
  · exact absurd h (Nat.not_le.mpr hsize)
  · exact absurd h (by rwa [Nat.zero_add] at hmem)
  · rw [DataReader.readUInt64_eq, hread, Nat.zero_add]
    rfl

/-- Or it is behind the end, and the constructor raises. This check is on the size of the body,
so it holds for these four numbers only. -/
theorem readWord_end {i : Nat} (h : ¬8 * i + 8 ≤ body.length) :
    (⟨0, body.length, 8 * i⟩ : BinaryMessageReader).readUInt64 body =
      RAISE .kBufferOverflowError "requested read exceeds message bounds" := by
  rw [DataReader.readUInt64_eq, BinaryMessageReader.read, if_pos (Nat.lt_of_not_le h)]
  rfl

/-- A body that is too short for the four numbers. The reader is not built, and no stream is
looked at. -/
theorem new_short (encoding : ColumnEncoding) (r_max d_max : Nat) (h : body.length < 32) :
    Raises (new body encoding r_max d_max 0 body.length) := by
  unfold new
  change Raises ((⟨0, body.length, 8 * 0⟩ : BinaryMessageReader).readUInt64 body >>= _)
  by_cases h₀ : 8 * 0 + 8 ≤ body.length
  · rw [readWord_ok h₀]
    change Raises ((⟨0, body.length, 8 * 1⟩ : BinaryMessageReader).readUInt64 body >>= _)
    by_cases h₁ : 8 * 1 + 8 ≤ body.length
    · rw [readWord_ok h₁]
      change Raises ((⟨0, body.length, 8 * 2⟩ : BinaryMessageReader).readUInt64 body >>= _)
      by_cases h₂ : 8 * 2 + 8 ≤ body.length
      · rw [readWord_ok h₂]
        change Raises ((⟨0, body.length, 8 * 3⟩ : BinaryMessageReader).readUInt64 body >>= _)
        rw [readWord_end (by omega)]
        exact ⟨_, rfl⟩
      · rw [readWord_end h₂]
        exact ⟨_, rfl⟩
    · rw [readWord_end h₁]
      exact ⟨_, rfl⟩
  · rw [readWord_end h₀]
    exact ⟨_, rfl⟩

/-- Otherwise it is the data stream that decides: the constructor of the bit-packed class reads
the maximum in front of its values, the others read nothing. -/
theorem new_eq (encoding : ColumnEncoding) (r_max d_max : Nat) (h : 32 ≤ body.length) :
    new body encoding r_max d_max 0 body.length =
      (DataReader.new body encoding (dataStart body) (dataSize body)).map
        fun data_reader =>
          { r_max, d_max
            vals_total := bodyWord body 0
            vals_read := 0
            rlvl_reader := BitPackDecoder.new 32 (rlvlSize body) r_max
            dlvl_reader := BitPackDecoder.new (dlvlStart body) (dlvlSize body) d_max
            data_reader } := by
  unfold new
  change (⟨0, body.length, 8 * 0⟩ : BinaryMessageReader).readUInt64 body >>= _ = _
  rw [readWord_ok (by omega)]
  change (⟨0, body.length, 8 * 1⟩ : BinaryMessageReader).readUInt64 body >>= _ = _
  rw [readWord_ok (by omega)]
  change (⟨0, body.length, 8 * 2⟩ : BinaryMessageReader).readUInt64 body >>= _ = _
  rw [readWord_ok (by omega)]
  change (⟨0, body.length, 8 * 3⟩ : BinaryMessageReader).readUInt64 body >>= _ = _
  rw [readWord_ok (by omega)]
  -- behind the four words the addresses may wrap; the first region cannot
  have hfirst : pointerSum body (0 + 32) = 32 := pointerSum_of_le (by omega)
  have hdlvl : pointerSum body (0 + 32 + bodyWord body 1) = dlvlStart body := by
    rw [Nat.zero_add]
    rfl
  have hdata : pointerSum body (0 + 32 + bodyWord body 1 + bodyWord body 2) = dataStart body := by
    rw [Nat.zero_add]
    rfl
  rw [Result.ok_bind]
  dsimp only
  rw [hfirst, hdlvl, hdata]
  change (DataReader.new body encoding (dataStart body) (dataSize body) >>=
    fun data_reader => _) = _
  cases DataReader.new body encoding (dataStart body) (dataSize body) <;> rfl

/-- The constructor over a body that has the four numbers. Either it returns a reader that has
taken nothing yet, or it looks outside on its own. -/
theorem new_full (encoding : ColumnEncoding) (r_max d_max : Nat) (h : 32 ≤ body.length) :
    (ReadsInside encoding r_max d_max body 0 ∧
      ∃ c, new body encoding r_max d_max 0 body.length = .ok c ∧
        c.AfterReads encoding r_max d_max body 0) ∨
    (¬ReadsInside encoding r_max d_max body 0 ∧
      new body encoding r_max d_max 0 body.length = .error .fault) := by
  have hrlvls : rlvlsTaken body r_max 0 = 0 := packedCount_zero _ _
  have hdlvls : dlvlsTaken body r_max d_max 0 = 0 := by
    rw [dlvlsTaken, hrlvls, packedCount_zero]
  have hvalues : valuesAsked body r_max d_max 0 = 0 := by
    rw [valuesAsked, hdlvls]
    rfl
  rw [new_eq encoding r_max d_max h]
  rcases DataReader.new_asked body encoding (dataStart body)
    (dataSize body) with ⟨hin, d, hd, hasked, henc⟩ | ⟨hout, hfault⟩
  · rw [hd]
    refine Or.inl ⟨⟨Or.inl (packedExtent_zero _ _), ?_, ?_⟩, _, rfl, rfl, henc, ?_, ?_, ?_⟩
    · rw [hrlvls]
      exact Or.inl (packedExtent_zero _ _)
    · rw [hvalues]
      exact hin
    · rw [hrlvls]
      exact BitPackDecoder.taken_new _ _ _ _
    · rw [hdlvls]
      exact BitPackDecoder.taken_new _ _ _ _
    · rw [hvalues]
      exact hasked
  · rw [hfault]
    refine Or.inr ⟨fun hinside => hout ?_, rfl⟩
    have hdata := hinside.data
    rwa [hvalues] at hdata

/-! ### Any calls -/

/-- The reader after any reads over a body that holds what they take. `nextRepetitionLevel` is
left out: it peeks, and does not move the reader. -/
theorem AfterReads.afterCalls (ops : FloatOps)
    (hin : ∀ n, ReadsInside encoding r_max d_max body n) {calls : List ReaderCall}
    (hcalls : ∀ k ∈ calls, k ≠ .nextRepetitionLevel) :
    ∀ {c : ColumnReader} {n : Nat}, c.AfterReads encoding r_max d_max body n →
      (afterCalls ops body calls c).AfterReads encoding r_max d_max body (n + calls.length) := by
  induction calls with
  | nil => exact fun h => h
  | cons k ks ih =>
    intro c n h
    have hstep : (exec (call ops body k) c).2.AfterReads encoding r_max d_max body (n + 1) := by
      rw [exec_call ops body (hcalls k List.mem_cons_self)]
      rcases h.fetchNext (hin n) with ⟨-, -, hafter⟩ | ⟨hout, -⟩
      · exact hafter
      · exact absurd (hin (n + 1)) hout
    have hrest := ih (fun k' hk' => hcalls k' (List.mem_cons_of_mem k hk')) hstep
    rw [List.length_cons, show n + (ks.length + 1) = n + 1 + ks.length by omega]
    exact hrest

end

/-- The answers of a transcript are those of the calls after the calls in front of them. By
induction on the calls. -/
theorem mem_transcript {ops : FloatOps} {mem : Mapping} {calls : List ReaderCall} :
    ∀ {c : ColumnReader} {p : ReaderCall × Result Answer}, p ∈ transcript ops mem calls c →
      ∃ before, p.2 = (exec (call ops mem p.1) (afterCalls ops mem before c)).1 := by
  induction calls with
  | nil => exact fun hp => absurd hp List.not_mem_nil
  | cons k ks ih =>
    intro c p hp
    rcases List.mem_cons.mp hp with rfl | htail
    · exact ⟨[], rfl⟩
    · obtain ⟨before, hanswer⟩ := ih htail
      exact ⟨k :: before, hanswer⟩

/-- And every call after any calls is one of a transcript. So a statement about all transcripts
is one about each call after any calls. -/
theorem transcript_mem (ops : FloatOps) (mem : Mapping) (before : List ReaderCall)
    (k : ReaderCall) (c : ColumnReader) :
    (k, (exec (call ops mem k) (afterCalls ops mem before c)).1) ∈
      transcript ops mem (before ++ [k]) c := by
  induction before generalizing c with
  | nil => exact List.mem_cons_self
  | cons k' ks ih => exact List.mem_cons_of_mem _ (ih _)

/-- A reader that can read on without a fault can be peeked at without one: the peek unpacks the
block that the read would. -/
theorem peek_noFault {mem : Mapping} {c : ColumnReader}
    (h : NoFault (exec (fetchNext mem) c).1) : NoFault (c.rlvl_reader.peek mem) := by
  intro hpeek
  refine h ?_
  have hnext : c.rlvl_reader.next mem = .error .fault := by
    unfold BitPackDecoder.peek at hpeek
    unfold BitPackDecoder.next
    by_cases hzero : c.rlvl_reader.maxbits = 0
    · rw [BitPackDecoder.fetch_none hzero] at hpeek
      cases hpeek
    · by_cases hpos : c.rlvl_reader.outbuf_pos = 128
      · by_cases hsize : c.rlvl_reader.pos + 16 * c.rlvl_reader.maxbits > c.rlvl_reader.size
        · rw [BitPackDecoder.fetch_end hzero hpos hsize] at hpeek
          cases hpeek
        · rw [BitPackDecoder.fetch_block mem hzero hpos hsize] at hpeek ⊢
          cases hload : load mem (c.rlvl_reader.data + c.rlvl_reader.pos)
            (16 * c.rlvl_reader.maxbits) with
          | error e =>
            rw [hload] at hpeek
            cases hpeek
            rfl
          | ok block =>
            rw [hload] at hpeek
            cases hpeek
      · rw [BitPackDecoder.fetch_inside hzero hpos] at hpeek
        cases hpeek
  rw [fetchNext_rlvl_error hnext]

end ColumnReader

/-- The streams of the body, as it announces them, hold everything that any number of
reads takes from them inside of the body. -/
def StreamsInside (encoding : ColumnEncoding) (r_max d_max : Nat) (body : Bytes) : Prop :=
  body.length < 32 ∨ ∀ n, ReadsInside encoding r_max d_max body n

open CStable.v1.ColumnReader in
/-- A reader looks outside of a body exactly when the streams lead outside, for which they
have to be decoded: the definition levels say how many values are asked for, and the bytes
of a number or of a string where it ends. -/
theorem neverLooksOutside_iff {ops : FloatOps} (hstod : ∀ s, NoFault (ops.stod s))
    (encoding : ColumnEncoding) (r_max d_max : Nat) (body : Bytes) :
    NeverLooksOutside ops encoding r_max d_max body ↔
      StreamsInside encoding r_max d_max body := by
  by_cases hshort : body.length < 32
  · obtain ⟨e, hraise⟩ := new_short encoding r_max d_max hshort
    refine ⟨fun _ => Or.inl hshort, fun _ => ⟨?_, fun c hc => ?_⟩⟩
    · rw [hraise]
      intro h
      cases h
    · rw [hraise] at hc
      cases hc
  have hfull := new_full encoding r_max d_max (Nat.not_lt.mp hshort)
  constructor
  · -- reads one after the other: each of them shows that the next one is inside
    rintro ⟨hnew, hcalls⟩
    rcases hfull with ⟨hin, c, hc, hafter⟩ | ⟨-, hfault⟩
    · refine Or.inr fun n => ?_
      have hrun : ReadsInside encoding r_max d_max body n ∧ (ColumnReader.afterCalls ops body
          (List.replicate n .skipValue) c).AfterReads encoding r_max d_max body n := by
        induction n with
        | zero => exact ⟨hin, hafter⟩
        | succ n ih =>
          obtain ⟨hin, hafter⟩ := ih
          have hanswer := hcalls c hc _ _ (transcript_mem ops body (List.replicate n .skipValue)
            .skipValue c)
          have hstate : ColumnReader.afterCalls ops body (List.replicate (n + 1) .skipValue) c =
              (exec (fetchNext body) (ColumnReader.afterCalls ops body
                (List.replicate n .skipValue) c)).2 := by
            rw [List.replicate_succ', ColumnReader.afterCalls, List.foldl_append]
            exact congrArg Prod.snd (exec_call ops body (by simp) _)
          rcases hafter.fetchNext hin with ⟨hin', -, hafter'⟩ | ⟨-, hfault⟩
          · exact ⟨hin', hstate ▸ hafter'⟩
          · rw [exec_call ops body (by simp), hfault] at hanswer
            exact absurd rfl hanswer
      exact hrun.1
    · exact absurd hfault hnew
  · intro hinside
    have hin := hinside.resolve_left hshort
    rcases hfull with ⟨-, c, hc, hafter⟩ | ⟨hout, -⟩
    · refine ⟨by rw [hc]; exact .ok c, fun c' hc' calls p hp => ?_⟩
      obtain rfl : c = c' := Except.ok.inj (hc.symm.trans hc')
      obtain ⟨before, hanswer⟩ := mem_transcript hp
      -- the calls of `nextRepetitionLevel` can be left out
      have halike := (PeekedAlike.transcript ops before (rfl : PeekedAlike body c c)).2
      have hreads := hafter.afterCalls ops hin (reads_filter before)
      rw [hanswer, (halike.call ops p.1).1]
      rcases hreads.fetchNext (hin _) with ⟨-, hfault, -⟩ | ⟨hout, -⟩
      · by_cases hk : p.1 = .nextRepetitionLevel
        · rw [hk, exec_nextRepetitionLevel]
          exact (peek_noFault hfault).map.map
        · rw [exec_call ops body hk]
          exact hfault.bind fun e he => answerOf_noFault hstod p.1 fun v hv =>
            kind_of_fetchNext he hv
      · exact absurd (hin _) hout
    · exact absurd (hin 0) hout

/-! ### Regions inside of the body -/

/-- Everything the streams can take by their sizes is in the body: the whole blocks of the
levels and what the class can ask for of the data. The addresses are pointer sums, so a
region that wraps around and is inside again counts as inside. A body that is too short
for its four numbers is refused by the constructor. -/
def RegionsInside (encoding : ColumnEncoding) (r_max d_max : Nat) (body : Bytes) : Prop :=
  body.length < 32 ∨
    (Inside body 32 (wholeBlocks (bits (r_max % 2 ^ 32)) (rlvlSize body)) ∧
      Inside body (dlvlStart body) (wholeBlocks (bits (d_max % 2 ^ 32)) (dlvlSize body)) ∧
      Inside body (dataStart body) (dataRegion body encoding (dataStart body) (dataSize body)))

instance (encoding : ColumnEncoding) (r_max d_max : Nat) (body : Bytes) :
    Decidable (RegionsInside encoding r_max d_max body) :=
  inferInstanceAs (Decidable (_ ∨ _))

/-- Whatever the levels are, reads take no more than the regions. This is where the bytes of the
streams drop out of the condition. -/
theorem RegionsInside.streamsInside {encoding : ColumnEncoding} {r_max d_max : Nat} {body : Bytes}
    (h : RegionsInside encoding r_max d_max body) : StreamsInside encoding r_max d_max body := by
  rcases h with hshort | ⟨hrlvl, hdlvl, hdata⟩
  · exact Or.inl hshort
  · exact Or.inr fun n => ⟨hrlvl.mono (packedExtent_le _ _ _), hdlvl.mono (packedExtent_le _ _ _),
      hdata.mono (dataExtent_le _ _ _ _ _)⟩

/-- Without levels every read asks for a value, so that reads take all of the regions if
the values have one width. -/
theorem StreamsInside.regionsInside {encoding : ColumnEncoding} {body : Bytes}
    (hleb128 : encoding ≠ .UINT64_LEB128) (hstring : encoding ≠ .STRING_PLAIN)
    (h : StreamsInside encoding 0 0 body) : RegionsInside encoding 0 0 body := by
  rcases h with hshort | hin
  · exact Or.inl hshort
  have hnone : bits (0 % 2 ^ 32) = 0 := rfl
  -- without levels every entry asks for a value, so enough of them reach the end of the data
  have hasked : ∀ n, valuesAsked body 0 0 n = n := by
    intro n
    have htaken : dlvlsTaken body 0 0 n = n := by
      unfold dlvlsTaken rlvlsTaken packedCount
      rw [hnone, if_pos rfl, if_pos rfl]
    unfold valuesAsked
    rw [htaken]
    have hall : ∀ i ∈ List.range n,
        decide (packedValue body (dlvlStart body) (bits (0 % 2 ^ 32)) i = 0) = true := fun i _ =>
      decide_eq_true (if_pos hnone)
    rw [List.countP_eq_length.mpr hall, List.length_range]
  obtain ⟨n, hn⟩ := exists_dataExtent hleb128 hstring body (dataStart body) (dataSize body)
  have hdata := (hin n).data
  rw [hasked, hn] at hdata
  refine Or.inr ⟨Or.inl ?_, Or.inl ?_, hdata⟩ <;>
    rw [hnone, wholeBlocks, Nat.mul_zero, Nat.zero_mul]

/-- It is enough that the sizes add up to no more than the body has, with room for the
maximum of a bit-packed column: what a body that was not tampered with looks like. -/
theorem regionsInside_of_sizes {encoding : ColumnEncoding} {body : Bytes} (r_max d_max : Nat)
    (hsizes : 32 + rlvlSize body + dlvlSize body + dataSize body ≤ body.length)
    (hmax : encoding = .UINT32_BITPACKED → 4 ≤ dataSize body) :
    RegionsInside encoding r_max d_max body := by
  -- the regions lie in the body, so no address has wrapped
  have hdlvl : dlvlStart body = 32 + rlvlSize body := pointerSum_of_le (by omega)
  have hdata : dataStart body = 32 + rlvlSize body + dlvlSize body := pointerSum_of_le (by omega)
  have hblocks : ∀ maxbits size, wholeBlocks maxbits size ≤ size := fun _ _ => Nat.mul_div_le _ _
  have hregion : dataRegion body encoding (dataStart body) (dataSize body) ≤ dataSize body := by
    cases encoding with
    | BOOLEAN_BITPACKED => exact hblocks _ _
    | UINT32_BITPACKED =>
      have hword : dataSize body < 2 ^ 64 := by
        have hlt := leNat_lt (readAt body (8 * 3) 8)
        rwa [length_readAt (by omega)] at hlt
      have hfour := hmax rfl
      have hwrap : (dataSize body + 2 ^ 64 - 4) % 2 ^ 64 = dataSize body - 4 := by omega
      have hle := hblocks (bits (leNat (readAt body (dataStart body) 4) % 2 ^ 32))
        (dataSize body - 4)
      rw [dataRegion, hwrap]
      omega
    | UINT32_PLAIN => exact Nat.mul_div_le _ _
    | UINT64_PLAIN => exact Nat.mul_div_le _ _
    | UINT64_LEB128 => exact Nat.le_refl _
    | FLOAT_IEEE754 => exact Nat.mul_div_le _ _
    | STRING_PLAIN => exact Nat.le_refl _
  have hrblocks := hblocks (bits (r_max % 2 ^ 32)) (rlvlSize body)
  have hdblocks := hblocks (bits (d_max % 2 ^ 32)) (dlvlSize body)
  refine Or.inr ⟨Or.inr ?_, Or.inr ?_, Or.inr ?_⟩ <;> omega

/-- No access of a reader, by any calls, is outside of a body whose regions are inside of
it, whatever else is in the body. For a column without levels whose values all have one
width that is the exact condition. -/
theorem neverLooksOutside_of_regions {ops : FloatOps} (hstod : ∀ s, NoFault (ops.stod s))
    (encoding : ColumnEncoding) (body : Bytes) :
    (∀ r_max d_max, RegionsInside encoding r_max d_max body →
      NeverLooksOutside ops encoding r_max d_max body) ∧
    (encoding ≠ .UINT64_LEB128 → encoding ≠ .STRING_PLAIN →
      (NeverLooksOutside ops encoding 0 0 body ↔ RegionsInside encoding 0 0 body)) :=
  ⟨fun r_max d_max h => (neverLooksOutside_iff hstod encoding r_max d_max body).mpr
      h.streamsInside,
    fun hleb128 hstring => (neverLooksOutside_iff hstod encoding 0 0 body).trans
      ⟨StreamsInside.regionsInside hleb128 hstring, RegionsInside.streamsInside⟩⟩

/-- A body of one value that is there, and one whose value would be behind its end. Both
announce eight bytes of data. -/
theorem neverLooksOutside_of_regions_one_value :
    let ops : FloatOps := { noFloats with stod := fun _ => RAISE .stdInvalidArgument "stod" }
    let counts := appendUInt64 1 ++ appendUInt64 0 ++ appendUInt64 0 ++ appendUInt64 8
    NeverLooksOutside ops .UINT64_PLAIN 0 1 (counts ++ appendUInt64 7) ∧
      ¬NeverLooksOutside ops .UINT64_PLAIN 0 0 counts := by
  intro ops counts
  have hstod : ∀ s, NoFault (ops.stod s) := fun _ => .raise _ _
  have hsizes : RegionsInside .UINT64_PLAIN 0 1 (counts ++ appendUInt64 7) :=
    regionsInside_of_sizes 0 1 (by decide +kernel) fun h => by cases h
  refine ⟨(neverLooksOutside_of_regions hstod .UINT64_PLAIN (counts ++ appendUInt64 7)).1 0 1
    hsizes, fun h => ?_⟩
  have hin := ((neverLooksOutside_of_regions hstod .UINT64_PLAIN counts).2
    ColumnEncoding.noConfusion
    ColumnEncoding.noConfusion).mp h
  exact absurd hin (by decide +kernel)

/-- The same body with eight as the size of the data: they are read from behind the body. The
constructor checks the four numbers and not what they say. -/
theorem not_neverLooksOutside_data_size :
    let body := appendUInt64 1 ++ appendUInt64 0 ++ appendUInt64 0 ++ appendUInt64 8
    body.length = 32 ∧ ¬NeverLooksOutside noFloats .UINT64_PLAIN 0 0 body := by
  refine ⟨rfl, fun h => ?_⟩
  refine h.2 _ rfl [.readUnsignedInt] _ List.mem_cons_self ?_
  decide +kernel

end v1

end CStable
