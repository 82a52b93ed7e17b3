import CStable.Proofs.Replay

/-!
# `CStable.Proofs.FullBlocks`: what a commit does to the writers of the columns

A commit pads the blocks the streams of a column have begun to their end. Where none is
begun it changes nothing (`FullBlocks.commit`), and a second commit never does
(`commit_commit`). Bodies only grow (`bodySize_le_callAll`, `bodySize_le_commit`).

* `v1.ColumnWriter.FullBlocks`: the column has no block begun.
* `Replayed.fullBlocks_of_dvd`: so it is when the numbers of its entries and of its values
  are multiples of 128.
-/

set_option autoImplicit false

namespace CStable

open Support

/-! ### What a commit does to the writers -/

namespace BitPackEncoder

/-- Where no values wait there is nothing to flush. The source checks the buffer first. -/
theorem flush_of_empty {e : BitPackEncoder} (h : e.inbuf = []) : e.flush = e := by
  unfold flush
  rw [if_pos (List.length_eq_zero_iff.mpr h)]

/-- After a flush no values wait: the block that was begun is padded and put out. -/
theorem inbuf_flush (e : BitPackEncoder) : e.flush.inbuf = [] := by
  unfold flush
  split_ifs with hempty
  · exact List.eq_nil_of_length_eq_zero hempty
  · rfl

/-- A second flush finds nothing, so that a commit can be repeated. -/
theorem flush_flush (e : BitPackEncoder) : e.flush.flush = e.flush :=
  flush_of_empty e.inbuf_flush

/-- A flush adds a block to the stream or nothing. Streams only grow, so a committed body is at
least as long as its file was before. -/
theorem size_le_flush (e : BitPackEncoder) : e.size ≤ e.flush.size := by
  unfold flush
  split_ifs
  · exact Nat.le_refl _
  · rw [size, size, List.length_append]
    exact Nat.le_add_right _ _

/-- So does another value, which completes a block or waits. -/
theorem size_le_encode (e : BitPackEncoder) (value : Nat) : e.size ≤ (e.encode value).size := by
  unfold encode
  dsimp only
  split_ifs
  · exact Nat.le_refl _
  · exact size_le_flush ⟨e.maxbits, e.inbuf ++ [value % 2 ^ 32], e.buf⟩
  · exact Nat.le_refl _

/-- How many values of a block are waiting after `n` values. -/
def Waiting (e : BitPackEncoder) (n : Nat) : Prop :=
  e.inbuf.length = if e.maxbits = 0 then 0 else n % 128

/-- A new encoder has no values waiting. -/
theorem waiting_new (max_val : Nat) : (new max_val).Waiting 0 := by
  unfold Waiting
  split_ifs <;> rfl

/-- With one more value the values that wait are counted up, modulo the block. A value that
completes a block leaves none waiting. -/
theorem Waiting.encode {e : BitPackEncoder} {n : Nat} (h : e.Waiting n) (value : Nat) :
    (e.encode value).Waiting (n + 1) := by
  have hmax := maxbits_encode e value
  unfold Waiting at h ⊢
  rw [hmax]
  unfold BitPackEncoder.encode
  dsimp only
  by_cases hzero : e.maxbits = 0
  · rw [if_pos hzero] at h ⊢
    rw [if_pos hzero]
    exact h
  · rw [if_neg hzero] at h ⊢
    rw [if_neg hzero, List.length_append, List.length_singleton, h]
    by_cases hfull : n % 128 + 1 = 128
    · rw [if_pos hfull, inbuf_flush, List.length_nil]
      omega
    · rw [if_neg hfull, List.length_append, List.length_singleton, h]
      omega

/-- At full blocks no values wait. -/
theorem Waiting.empty {e : BitPackEncoder} {n : Nat} (h : e.Waiting n) (hn : 128 ∣ n) :
    e.inbuf = [] := by
  unfold Waiting at h
  rw [Nat.mod_eq_zero_of_dvd hn, ite_self] at h
  exact List.eq_nil_of_length_eq_zero h

end BitPackEncoder

namespace v1

/-- The values a data stream holds back until their block is complete. -/
def DataWriter.waiting : DataWriter → List Nat
  | boolean e => e.inbuf
  | bitPackedInt _ e => e.inbuf
  | _ => []

/-- A commit without waiting values does nothing to the data. -/
theorem DataWriter.commit_of_waiting {dw : DataWriter} (h : dw.waiting = []) :
    dw.commit = dw := by
  cases dw with
  | boolean e => exact congrArg boolean (BitPackEncoder.flush_of_empty h)
  | bitPackedInt max_value e =>
    exact congrArg (bitPackedInt max_value) (BitPackEncoder.flush_of_empty h)
  | _ => rfl

/-- After a commit of the data another one does nothing. -/
theorem DataWriter.commit_commit (dw : DataWriter) : dw.commit.commit = dw.commit := by
  cases dw with
  | boolean e => exact congrArg boolean e.flush_flush
  | bitPackedInt max_value e => exact congrArg (bitPackedInt max_value) e.flush_flush
  | _ => rfl

/-- A commit never makes the data smaller. -/
theorem DataWriter.size_le_commit (dw : DataWriter) : dw.size ≤ dw.commit.size := by
  cases dw with
  | boolean e => exact e.size_le_flush
  | bitPackedInt max_value e => exact Nat.add_le_add_left e.size_le_flush 4
  | _ => exact Nat.le_refl _

/-- A value never makes the data smaller. -/
theorem DataWriter.size_le_addDatum {dw dw' : DataWriter} {data : Bytes}
    (h : dw.addDatum data = .ok dw') : dw.size ≤ dw'.size := by
  cases dw
  case boolean e =>
    dsimp only [addDatum] at h
    split_ifs at h <;> cases h <;> exact e.size_le_encode _
  case bitPackedInt max_value e =>
    dsimp only [addDatum] at h
    split_ifs at h <;> cases h
    exact Nat.add_le_add_left (e.size_le_encode _) 4
  case string w =>
    cases h
    simp only [size, List.length_append]
    omega
  all_goals
    dsimp only [addDatum] at h
    split_ifs at h <;> cases h
    simp only [size, List.length_append]
    omega

/-- What waits of `n` values that were stored. -/
def DataWriter.Waits (dw : DataWriter) (n : Nat) : Prop :=
  match dw with
  | boolean e => e.Waiting n
  | bitPackedInt _ e => e.Waiting n
  | _ => True

/-- With one more value the classes that store blocks count it up; the others have nothing
waiting ever. -/
theorem DataWriter.Waits.addDatum {dw dw' : DataWriter} {data : Bytes} {n : Nat}
    (h : dw.Waits n) (hadd : dw.addDatum data = .ok dw') : dw'.Waits (n + 1) := by
  cases dw
  case string w =>
    cases hadd
    trivial
  case boolean e =>
    dsimp only [DataWriter.addDatum] at hadd
    split_ifs at hadd <;> cases hadd <;> exact BitPackEncoder.Waiting.encode h _
  case bitPackedInt max_value e =>
    dsimp only [DataWriter.addDatum] at hadd
    split_ifs at hadd <;> cases hadd
    exact BitPackEncoder.Waiting.encode h _
  all_goals
    dsimp only [DataWriter.addDatum] at hadd
    split_ifs at hadd <;> cases hadd
    trivial

/-- A new writer has no values waiting. -/
theorem DataWriter.waits_new (encoding : ColumnEncoding) (type : UInt8) :
    (ColumnWriter.newDataWriter encoding type).Waits 0 := by
  cases encoding
  case BOOLEAN_BITPACKED => exact BitPackEncoder.waiting_new _
  case UINT32_BITPACKED => exact BitPackEncoder.waiting_new _
  all_goals trivial

/-- At a multiple of the block no values wait, in any of the classes. The classes that are not
bit-packed have no blocks, and never wait. -/
theorem DataWriter.Waits.empty {dw : DataWriter} {n : Nat} (h : dw.Waits n) (hn : 128 ∣ n) :
    dw.waiting = [] := by
  cases dw
  case boolean e => exact BitPackEncoder.Waiting.empty h hn
  case bitPackedInt max_value e => exact BitPackEncoder.Waiting.empty h hn
  all_goals rfl

namespace ColumnWriter

/-- No stream of the column has begun a block. -/
structure FullBlocks (w : ColumnWriter) : Prop where
  rlvls : w.rlvl_writer.inbuf = []
  dlvls : w.dlvl_writer.inbuf = []
  data : w.data_writer.waiting = []

/-- A commit leaves a column without begun blocks as it is, so the column can be continued
behind it as if there had been no commit. -/
theorem FullBlocks.commit {w : ColumnWriter} (h : w.FullBlocks) : w.commit = w := by
  rw [ColumnWriter.commit, BitPackEncoder.flush_of_empty h.rlvls,
    BitPackEncoder.flush_of_empty h.dlvls, DataWriter.commit_of_waiting h.data]

/-- A second commit changes nothing, because the first has left no block begun. This holds
without any call in between. -/
theorem commit_commit (w : ColumnWriter) : w.commit.commit = w.commit := by
  simp only [commit, BitPackEncoder.flush_flush, DataWriter.commit_commit]

/-- A commit never makes the body smaller. -/
theorem bodySize_le_commit (w : ColumnWriter) : w.bodySize ≤ w.commit.bodySize := by
  have hr := w.rlvl_writer.size_le_flush
  have hd := w.dlvl_writer.size_le_flush
  have hdata := w.data_writer.size_le_commit
  simp only [bodySize, commit]
  omega

/-- Nor does a call, as it only appends to the streams. -/
theorem bodySize_le_call {w w' : ColumnWriter} {c : WriteCall} (h : w.call c = .ok w') :
    w.bodySize ≤ w'.bodySize := by
  have hr := w.rlvl_writer.size_le_encode c.rlvl
  have hd := w.dlvl_writer.size_le_encode c.dlvl
  unfold call at h
  split at h
  · cases h
    simp only [bodySize, writeNull, addLevels]
    omega
  · obtain ⟨dw, hdw, hret⟩ := Result.bind_eq_ok.mp h
    have hdata := DataWriter.size_le_addDatum hdw
    cases hret
    simp only [bodySize, addLevels]
    omega

/-- A body never shrinks, whatever calls are made. By induction on the calls. -/
theorem bodySize_le_callAll (calls : List WriteCall) : ∀ w : ColumnWriter,
    w.bodySize ≤ (w.callAll calls).1.bodySize := by
  induction calls with
  | nil => exact fun w => Nat.le_refl _
  | cons c calls ih =>
    intro w
    rw [callAll]
    cases hcall : w.call c with
    | ok w' => exact Nat.le_trans (bodySize_le_call hcall) (ih w')
    | error e => exact ih w

/-- What waits of a number of entries and of the values among them. -/
structure Waits (w : ColumnWriter) (entries values : Nat) : Prop where
  rlvls : w.rlvl_writer.Waiting entries
  dlvls : w.dlvl_writer.Waiting entries
  data : w.data_writer.Waits values

/-- A call counts up the entries, and the values if it is not a null. The level streams wait by
the first count, the data by the second. -/
theorem Waits.call {w w' : ColumnWriter} {entries values : Nat} {c : WriteCall}
    (h : w.Waits entries values) (hcall : w.call c = .ok w') :
    w'.Waits (entries + 1) (values + if datum c.arg = none then 0 else 1) := by
  unfold ColumnWriter.call at hcall
  split at hcall
  · next hnull =>
    cases hcall
    rw [if_pos hnull]
    exact ⟨h.rlvls.encode _, h.dlvls.encode _, h.data⟩
  · next data hdatum =>
    obtain ⟨dw, hdw, hret⟩ := Result.bind_eq_ok.mp hcall
    cases hret
    rw [if_neg (by rw [hdatum]; exact Option.some_ne_none data)]
    exact ⟨h.rlvls.encode _, h.dlvls.encode _, h.data.addDatum hdw⟩

/-- The values among calls. -/
def values (calls : List WriteCall) : List WriteCall :=
  calls.filter fun c => (datum c.arg).isSome

/-- The values of a run of calls are counted call by call. -/
theorem length_values_cons (c : WriteCall) (calls : List WriteCall) :
    (values (c :: calls)).length =
      (if datum c.arg = none then 0 else 1) + (values calls).length := by
  unfold values
  cases hdatum : datum c.arg with
  | none =>
    rw [List.filter_cons_of_neg (by rw [hdatum]; exact Bool.false_ne_true), if_pos rfl,
      Nat.zero_add]
  | some data =>
    rw [List.filter_cons_of_pos (by rw [hdatum]; rfl), if_neg (Option.some_ne_none data),
      List.length_cons, Nat.add_comm]

/-- A run of calls counts the entries and values that were accepted. By induction on the calls;
a rejected one counts nothing. -/
theorem Waits.callAll {calls : List WriteCall} : ∀ {w : ColumnWriter} {n m : Nat},
    w.Waits n m → (w.callAll calls).1.Waits (n + (w.callAll calls).2.length)
      (m + (values (w.callAll calls).2).length) := by
  induction calls with
  | nil => exact fun h => h
  | cons c calls ih =>
    intro w n m h
    rw [ColumnWriter.callAll]
    cases hcall : w.call c with
    | error e => exact ih h
    | ok w' =>
      have hrest := ih (h.call hcall)
      dsimp only
      rwa [List.length_cons, length_values_cons, Nat.add_comm (w'.callAll calls).2.length,
        ← Nat.add_assoc, ← Nat.add_assoc]

end ColumnWriter

end v1

namespace CSTableWriter

/-- A column whose numbers of entries and of values are multiples of the length of a block
has no block begun. -/
theorem Replayed.fullBlocks_of_dvd {t : CSTableWriter} (h : t.Replayed) {i : Nat}
    {slot : ColumnSlot} {w : v1.ColumnWriter} (hslot : t.column_writers[i]? = some slot)
    (hw : slot.writer = .v1 w) (hentries : 128 ∣ slot.history.length)
    (hvalues : 128 ∣ (v1.ColumnWriter.values slot.history).length) : w.FullBlocks := by
  obtain ⟨col, -, w₀, hopen, hreplay⟩ :=
    exists_of_mem_right h.slots (List.mem_of_getElem? hslot)
  have hwaits₀ : w₀.Waits 0 0 := by
    unfold openColumnV1 at hopen
    split at hopen
    · cases hopen
      exact ⟨BitPackEncoder.waiting_new _, BitPackEncoder.waiting_new _,
        v1.DataWriter.waits_new _ _⟩
    · cases hopen
  have hwaits := @v1.ColumnWriter.Waits.callAll slot.history w₀ 0 0 hwaits₀
  have hwriter : (w₀.callAll slot.history).1 = w := by
    have heq := congrArg ColumnSlot.writer hreplay
    rw [hw] at heq
    exact ColumnWriter.v1.inj heq
  have hhistory : (w₀.callAll slot.history).2 = slot.history := congrArg ColumnSlot.history hreplay
  rw [hwriter, hhistory, Nat.zero_add, Nat.zero_add] at hwaits
  exact ⟨hwaits.rlvls.empty hentries, hwaits.dlvls.empty hentries, hwaits.data.empty hvalues⟩

end CSTableWriter

end CStable
