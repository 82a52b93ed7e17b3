import CStable.Proofs.Replay
import CStable.Proofs.TableV1
import CStable.Support.Pieces

/-!
# `CStable.Proofs.BodyBytes`: which bytes of a column body are written

`commitV1` gives every column a buffer of `bodySize()` bytes that is not initialised,
and the column writes its body to the front of it. Three of the seven classes count more
data bytes than they write (`CountsMore`), so that the end of the buffer goes to the file
as it was.

* `bodyDetermined_iff`: for one writer, whatever has been written.
* `sameFiles_iff`: for the file of a table.
-/

set_option autoImplicit false

namespace CStable

open Support Support.Pieces

namespace v1

/-! ### One body -/

/-- The storage types whose classes count more data bytes than they write. -/
def CountsMore (encoding : ColumnEncoding) : Prop :=
  encoding = .UINT32_PLAIN ∨ encoding = .UINT64_PLAIN ∨ encoding = .FLOAT_IEEE754

/-- The bytes of the body are determined by the writer: a header, the level streams and as
many data bytes as the header says, which fill every buffer of the size of the body. -/
structure BodyDetermined (w : ColumnWriter) : Prop where
  length : w.body.length = w.bodySize
  parts : ∃ header, header.length = 32 ∧
    w.body = header ++ w.rlvl_writer.buf ++ w.dlvl_writer.buf ++ w.data_writer.bytes ∧
    header.drop 24 = appendUInt64 w.data_writer.size ∧
    w.data_writer.bytes.length = w.data_writer.size
  write : ∀ buf : Bytes, buf.length = w.bodySize → w.write buf = .ok w.body

/-- The bytes that are counted are written by all but three classes. -/
theorem DataWriter.length_bytes_iff (dw : DataWriter) :
    dw.bytes.length = dw.size ↔ ¬CountsMore dw.encoding := by
  unfold CountsMore
  cases dw with
  | boolean e => simp [encoding, bytes, size, BitPackEncoder.size]
  | bitPackedInt max_value e =>
    simp [encoding, bytes, size, BitPackEncoder.size]
  | uint32 type w => simp [encoding, bytes, size]
  | uint64 type w => simp [encoding, bytes, size]
  | leb128 type w => simp [encoding, bytes, size]
  | double w => simp [encoding, bytes, size]
  | string w => simp [encoding, bytes, size]

/-- The levels write as many bytes as they count. So only the data stream can make the
difference between a body and its size. -/
theorem ColumnWriter.length_body_iff (w : ColumnWriter) :
    w.body.length = w.bodySize ↔ w.data_writer.bytes.length = w.data_writer.size := by
  simp only [body, bodySize, List.length_append, length_appendUInt64, BitPackEncoder.size]
  omega

/-- A stream that writes all it counts leaves no byte of the buffer as it was. -/
theorem bodyDetermined_of_length {w : ColumnWriter}
    (h : w.data_writer.bytes.length = w.data_writer.size) : BodyDetermined w := by
  have hlength := w.length_body_iff.mpr h
  refine ⟨hlength, ⟨appendUInt64 w.num_vals ++ appendUInt64 w.rlvl_writer.size ++
    appendUInt64 w.dlvl_writer.size ++ appendUInt64 w.data_writer.size, ?_, rfl, ?_, h⟩,
    fun buf hbuf => ?_⟩
  · simp only [List.length_append, length_appendUInt64]
  · exact List.drop_left' (by simp only [List.length_append, length_appendUInt64])
  · rw [← hlength] at hbuf
    unfold ColumnWriter.write
    rw [hbuf, if_neg (Nat.lt_irrefl _), ← hbuf, List.drop_length, List.append_nil]

/-- Whatever has been written to a column, the bytes of its body are determined exactly
when its class is none of the three. -/
theorem bodyDetermined_iff (r_max d_max : Nat) (dw : DataWriter) (calls : List WriteCall) :
    BodyDetermined ((ColumnWriter.new r_max d_max dw).callAll calls).1.commit ↔
      ¬CountsMore dw.encoding := by
  have hencoding : ((ColumnWriter.new r_max d_max dw).callAll calls).1.commit.data_writer.encoding =
      dw.encoding :=
    (ColumnWriter.encoding_commit _).trans (ColumnWriter.encoding_callAll calls _)
  rw [← hencoding, ← DataWriter.length_bytes_iff]
  exact ⟨fun h => (ColumnWriter.length_body_iff _).mp h.length, bodyDetermined_of_length⟩

end v1

/-! ### Files -/

namespace CSTableWriter

/-- A table of v0.1.0 with nothing in its file, whose columns have writers of the class of
their storage type. -/
structure ClassesV1 (t : CSTableWriter) : Prop where
  version : t.version = .v0_1_0
  file : t.file = []
  slots : List.Forall₂ (fun col slot => ∃ w, slot.writer = .v1 w ∧
    ColumnEncoding.ofCode? col.storage_type = some w.data_writer.encoding)
    t.columns t.column_writers

/-- The columns have writers of the class of their storage type, whatever has been written. -/
theorem Replayed.classesV1 {t : CSTableWriter} (h : t.Replayed) (hversion : t.version = .v0_1_0) :
    t.ClassesV1 := by
  refine ⟨hversion, h.file, h.slots.imp fun col slot hslot => ?_⟩
  obtain ⟨w, hw, hslot⟩ := hslot
  refine ⟨(w.callAll slot.history).1, congrArg ColumnSlot.writer hslot.symm, ?_⟩
  rw [v1.ColumnWriter.encoding_callAll]
  unfold openColumnV1 at hw
  split at hw
  · next encoding hencoding =>
    cases hw
    rw [hencoding]
    exact congrArg some (v1.DataWriter.encoding_new encoding col.logical_type).symm
  · cases hw

/-- Each column of a table that was reached is of the class its config names. No operation
changes the class. -/
theorem Reached.classesV1 {mem : Uninit} {t : CSTableWriter} (h : Reached mem t)
    (hversion : t.version = .v0_1_0) : ClassesV1 t :=
  (h.replayed hversion).classesV1 hversion

/-- The writers of the columns, in order. -/
theorem ClassesV1.writers {t : CSTableWriter} (h : ClassesV1 t) : ∃ ws, t.WritersV1 ws ∧
    List.Forall₂ (fun col w => ColumnEncoding.ofCode? col.storage_type =
      some w.data_writer.encoding) t.columns ws := by
  unfold WritersV1
  have hslots := h.slots
  generalize t.columns = columns at hslots
  generalize t.column_writers = slots at hslots
  induction hslots with
  | nil => exact ⟨[], rfl, .nil⟩
  | cons hslot _ ih =>
    obtain ⟨w, hw, hencoding⟩ := hslot
    obtain ⟨ws, hws, hall⟩ := ih
    exact ⟨w :: ws, by rw [List.map_cons, List.map_cons, hw, hws], .cons hencoding hall⟩

/-- The bytes of the bodies of a commit. -/
def bodyBytes (mem : Uninit) (i : Nat) (cols : List (ColumnConfig × v1.ColumnWriter)) : Bytes :=
  ((bodyWrites mem i cols).map FileWrite.toWrite).flatMap Write.data

/-- The bodies of the columns follow each other in the file. The bound keeps the buffer of the
first one at its declared size. -/
theorem bodyBytes_cons (mem : Uninit) (i : Nat) {p : ColumnConfig × v1.ColumnWriter}
    (cols : List (ColumnConfig × v1.ColumnWriter)) (h : p.2.body.length ≤ p.1.body_size) :
    bodyBytes mem i (p :: cols) = bodyBuffer mem i p ++ bodyBytes mem (i + 1) cols := by
  unfold bodyBytes
  rw [bodyWrites, List.map_cons, List.flatMap_cons, FileWrite.toWrite,
    FileWrite.pageData_of_length_eq (length_bodyBuffer mem i h)]

/-- The bodies are the same whatever the buffers hold exactly when they fill them. -/
theorem bodyBytes_same_iff {cols : List (ColumnConfig × v1.ColumnWriter)}
    (hfit : ∀ p ∈ cols, p.2.body.length ≤ p.1.body_size) : ∀ i : Nat,
    (∀ mem mem' : Uninit, bodyBytes mem i cols = bodyBytes mem' i cols) ↔
      ∀ p ∈ cols, p.2.body.length = p.1.body_size := by
  induction cols with
  | nil => exact fun i => ⟨fun _ p hp => absurd hp List.not_mem_nil, fun _ _ _ => rfl⟩
  | cons p cols ih =>
    intro i
    have hp := hfit p List.mem_cons_self
    have hcols := ih (fun q hq => hfit q (List.mem_cons_of_mem p hq)) (i + 1)
    have hsplit : ∀ mem mem' : Uninit, bodyBytes mem i (p :: cols) = bodyBytes mem' i (p :: cols) ↔
        bodyBuffer mem i p = bodyBuffer mem' i p ∧
          bodyBytes mem (i + 1) cols = bodyBytes mem' (i + 1) cols := by
      intro mem mem'
      rw [bodyBytes_cons mem i cols hp, bodyBytes_cons mem' i cols hp]
      refine ⟨fun h => List.append_inj h ?_, fun h => by rw [h.1, h.2]⟩
      rw [length_bodyBuffer mem i hp, length_bodyBuffer mem' i hp]
    rw [List.forall_mem_cons, ← hcols]
    constructor
    · intro h
      refine ⟨?_, fun mem mem' => ((hsplit mem mem').mp (h mem mem')).2⟩
      -- a byte that is left of a buffer of zeros is not one of a buffer of ones
      by_contra hne
      let filled (byte : UInt8) : Uninit :=
        ⟨fun _ _ => byte, fun _ => 0, ⟨0, [], 0, 0, 0, 0, 0, 0⟩, 0⟩
      have hbuf : ∀ byte : UInt8, (filled byte).buffer i p.1.body_size =
          List.replicate p.1.body_size byte := by
        intro byte
        show (List.range p.1.body_size).map (fun _ => byte) = _
        rw [List.map_const', List.length_range]
      have hdrop := List.append_cancel_left ((hsplit (filled 0) (filled 1)).mp (h _ _)).1
      rw [hbuf, hbuf, List.drop_replicate, List.drop_replicate] at hdrop
      obtain ⟨n, hn⟩ : ∃ n, p.1.body_size - p.2.body.length = n + 1 :=
        Nat.exists_eq_succ_of_ne_zero (by omega)
      rw [hn, List.replicate_succ, List.replicate_succ] at hdrop
      exact absurd (List.cons.inj hdrop).1 (by decide)
    · rintro ⟨hfull, hrest⟩ mem mem'
      refine (hsplit mem mem').mpr ⟨?_, hrest mem mem'⟩
      unfold bodyBuffer
      rw [hfull, List.drop_of_length_le (Nat.le_of_eq (Uninit.length_buffer mem i _)),
        List.drop_of_length_le (Nat.le_of_eq (Uninit.length_buffer mem' i _))]

/-- Commits of the table write the same file, whatever the buffers of the bodies hold. -/
def SameFiles (t : CSTableWriter) : Prop :=
  ∀ (mem mem' : Uninit) (t₁ t₂ : CSTableWriter), t.commit mem = .ok t₁ → t.commit mem' = .ok t₂ →
    contents t₁.file = contents t₂.file

/-- Whether a commit succeeds does not depend on what the buffers hold. -/
theorem commitV1_succeeds {mem : Uninit} (mem' : Uninit) {t t' : CSTableWriter}
    {ws : List v1.ColumnWriter} (hws : t.WritersV1 ws) (h : t.commitV1 mem = .ok t') :
    ∃ t'', t.commitV1 mem' = .ok t'' := by
  unfold commitV1 at h ⊢
  rw [commitColumns_eq hws, Result.ok_bind] at h ⊢
  obtain ⟨pm, hheader, h⟩ := Result.bind_eq_ok.mp h
  obtain ⟨pm', hbodies, -⟩ := Result.bind_eq_ok.mp h
  obtain ⟨hbelow, -⟩ := (writeBodies_eq_ok placedColumns_fit).mp hbodies
  exact ⟨_, Result.bind_eq_ok.mpr ⟨pm, hheader, Result.bind_eq_ok.mpr
    ⟨_, (writeBodies_eq_ok placedColumns_fit).mpr ⟨hbelow, rfl⟩, rfl⟩⟩⟩

/-- No column of the table is of a class that counts more bytes than it writes. -/
def AllCounted (t : CSTableWriter) : Prop :=
  ∀ c ∈ t.columns, ∀ e, v1.CountsMore e → c.storage_type ≠ e.code

/-- The bodies fill their buffers exactly when the classes of the columns count what they
write. -/
theorem placed_full_iff {t : CSTableWriter} {ws : List v1.ColumnWriter}
    (hall : List.Forall₂ (fun col w => ColumnEncoding.ofCode? col.storage_type =
      some w.data_writer.encoding) t.columns ws) :
    (∀ p ∈ t.placedColumns ws, p.2.body.length = p.1.body_size) ↔ t.AllCounted := by
  have hlen : t.columns.length = ws.length := hall.length_eq
  -- a writer says the size of what it writes unless its class counts bytes it never appends
  have hclass : ∀ c w, (c, w) ∈ t.columns.zip ws →
      (w.commit.body.length = w.commit.bodySize ↔
        ∀ e, v1.CountsMore e → c.storage_type ≠ e.code) := by
    intro c w hcw
    have hencoding := List.forall₂_zip hall hcw
    rw [v1.ColumnWriter.length_body_iff, v1.DataWriter.length_bytes_iff,
      v1.ColumnWriter.encoding_commit]
    rw [ColumnEncoding.ofCode?_eq_some.mp hencoding]
    refine ⟨fun hnot e he heq => hnot ?_, fun hnot he => hnot _ he rfl⟩
    rw [ColumnEncoding.code_injective heq]
    exact he
  constructor
  · intro hfull c hc
    obtain ⟨w, hcw⟩ : ∃ w, (c, w) ∈ t.columns.zip ws := by
      obtain ⟨i, hi, rfl⟩ := List.mem_iff_getElem.mp hc
      have hiw : i < ws.length := hlen ▸ hi
      refine ⟨ws[i], List.mem_iff_getElem.mpr ⟨i, ?_, List.getElem_zip⟩⟩
      rw [List.length_zip]
      omega
    obtain ⟨p, hp, hcol, hw⟩ := exists_of_mem_left (placedColumns_spec t ws) hcw
    have hpfull := hfull p hp
    rw [placedColumns_size p hp, hw] at hpfull
    exact (hclass c w hcw).mp hpfull
  · intro hnone p hp
    obtain ⟨⟨c, w⟩, hcw, hcol, hw⟩ := exists_of_mem_right (placedColumns_spec t ws) hp
    rw [placedColumns_size p hp, hw]
    exact (hclass c w hcw).mpr (hnone c (List.of_mem_zip hcw).1)

/-- The file of a table is the same whatever the buffers of its bodies hold exactly when
none of its columns is of the three classes. -/
theorem sameFiles_iff {mem m : Uninit} {t t' : CSTableWriter} (h : Reached mem t)
    (hversion : t.version = .v0_1_0) (hcommit : t.commit m = .ok t') :
    SameFiles t ↔ t.AllCounted := by
  have hclasses := h.classesV1 hversion
  obtain ⟨ws, hws, hall⟩ := hclasses.writers
  have hlen : t.columns.length = ws.length := hall.length_eq
  have hcommit' : ∀ mem', t.commit mem' = t.commitV1 mem' := fun mem' => by
    rw [commit, hversion]
  -- memory shows only in the bodies; the header is written from the state
  have hcontents : ∀ (mem' : Uninit) (t'' : CSTableWriter), t.commit mem' = .ok t'' →
      contents t''.file = headerV1 t.num_rows ((t.placedColumns ws).map Prod.fst) ++
        bodyBytes mem' 0 (t.placedColumns ws) := by
    intro mem' t'' hok
    rw [hcommit'] at hok
    have hspec := commitV1_spec hws hlen hok
    rw [hspec.contents hlen hclasses.file, hspec.columns]
    rfl
  rw [← placed_full_iff hall, ← bodyBytes_same_iff placedColumns_fit 0]
  constructor
  · intro hfiles mem₁ mem₂
    rw [hcommit'] at hcommit
    obtain ⟨t₁, ht₁⟩ := commitV1_succeeds mem₁ hws hcommit
    obtain ⟨t₂, ht₂⟩ := commitV1_succeeds mem₂ hws hcommit
    rw [← hcommit'] at ht₁ ht₂
    have heq := hfiles mem₁ mem₂ t₁ t₂ ht₁ ht₂
    rw [hcontents mem₁ t₁ ht₁, hcontents mem₂ t₂ ht₂] at heq
    exact List.append_cancel_left heq
  · intro hbodies mem₁ mem₂ t₁ t₂ ht₁ ht₂
    rw [hcontents mem₁ t₁ ht₁, hcontents mem₂ t₂ ht₂, hbodies mem₁ mem₂]

/-- The bytes of a body are determined by what was written exactly when the class of the
column is none of the three, and so are the files of tables. -/
theorem bodyBytes_determined_iff (r_max d_max : Nat) (dw : v1.DataWriter)
    (calls : List WriteCall) :
    (v1.BodyDetermined ((v1.ColumnWriter.new r_max d_max dw).callAll calls).1.commit ↔
      ¬v1.CountsMore dw.encoding) ∧
    ∀ (mem m : Uninit) (t t' : CSTableWriter), Reached mem t → t.version = .v0_1_0 →
      t.commit m = .ok t' →
      (SameFiles t ↔ ∀ c ∈ t.columns, ∀ e, v1.CountsMore e → c.storage_type ≠ e.code) :=
  ⟨v1.bodyDetermined_iff r_max d_max dw calls,
    fun _ _ _ _ h hversion hcommit => sameFiles_iff h hversion hcommit⟩

/-- One value in a column of a class that counts what it writes, and one in a column of a
class that does not. -/
theorem bodyBytes_determined_iff_one_value :
    let mem : Uninit := zeroUninit
    ∃ t u, createFile mem .insertion .v0_1_0
        [.leaf [0x61] ⟨.UNSIGNED_INT, by decide⟩ .UINT64_LEB128 false false] = .ok t ∧
      createFile mem .insertion .v0_1_0
        [.leaf [0x61] ⟨.FLOAT, by decide⟩ .FLOAT_IEEE754 false false] = .ok u ∧
      SameFiles (t.after [.write [0x61] ⟨0, 0, .unsignedInt 300⟩, .addRow]) ∧
      ¬SameFiles (u.after [.write [0x61] ⟨0, 0, .float 1⟩, .addRow]) := by
  intro mem
  have hiff : ∀ (schema : TableSchema) (t : CSTableWriter) (ops : List TableOp),
      createFile mem .insertion .v0_1_0 schema = .ok t → (t.after ops).version = .v0_1_0 →
      (∃ t', (t.after ops).commit mem = .ok t') →
      (SameFiles (t.after ops) ↔ ∀ c ∈ (t.after ops).columns, ∀ e, v1.CountsMore e →
        c.storage_type ≠ e.code) := by
    rintro schema t ops hcreate hversion ⟨t', hcommit⟩
    exact (bodyBytes_determined_iff 0 0 (v1.ColumnWriter.newDataWriter .UINT64_LEB128 2) []).2
      mem mem (t.after ops) t' (Reached.createFile hcreate).after hversion hcommit
  obtain ⟨t, ht⟩ : ∃ t, createFile mem .insertion .v0_1_0
      [.leaf [0x61] ⟨.UNSIGNED_INT, by decide⟩ .UINT64_LEB128 false false] = .ok t := ⟨_, rfl⟩
  obtain ⟨u, hu⟩ : ∃ u, createFile mem .insertion .v0_1_0
      [.leaf [0x61] ⟨.FLOAT, by decide⟩ .FLOAT_IEEE754 false false] = .ok u := ⟨_, rfl⟩
  have hcounted := hiff _ t [.write [0x61] ⟨0, 0, .unsignedInt 300⟩, .addRow] ht
  have hmore := hiff _ u [.write [0x61] ⟨0, 0, .float 1⟩, .addRow] hu
  refine ⟨t, u, ht, hu, ?_, ?_⟩
  · cases ht
    refine (hcounted rfl (Result.exists_eq_ok (by decide +kernel))).mpr fun c hc e he => ?_
    obtain rfl := List.mem_singleton.mp hc
    rcases he with rfl | rfl | rfl <;> decide
  · cases hu
    exact fun hsame => (hmore rfl (Result.exists_eq_ok (by decide +kernel))).mp hsame _
      List.mem_cons_self .FLOAT_IEEE754 (Or.inr (Or.inr rfl)) rfl

/-- A column of 32-bit integers with one value: the body is four bytes short, and they
keep what the buffer held. -/
theorem not_bodyDetermined_uint32 :
    let w := ((v1.ColumnWriter.new 0 0 (v1.ColumnWriter.newDataWriter .UINT32_PLAIN
      ColumnType.UNSIGNED_INT.code)).callAll [⟨0, 0, .unsignedInt 7⟩]).1.commit
    ¬v1.BodyDetermined w ∧ w.bodySize = 40 ∧ w.body.length = 36 ∧
      w.write (List.replicate 40 0) ≠ w.write (List.replicate 40 1) := by
  intro w
  exact ⟨fun h => absurd h.length (by decide), by decide, by decide, by decide⟩

end CSTableWriter

end CStable
