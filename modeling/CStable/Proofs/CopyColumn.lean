import CStable.Proofs.TypedViews

/-!
# `CStable.Proofs.CopyColumn`: copying columns concatenates them

`copyValue` reads an entry through the function of its class and writes it with
the function of the same name. `copyColumn` calls it until the reader is at its
end, `copyColumns` does so for one reader after the other.

One copy adds the entry that was read (`copyValue_spec`): the class decodes what
its write function has encoded, so the entry is the one its own write call leaves
(`exists_copyCall`). The loops follow by induction on the entries and on the
readers.
-/

set_option autoImplicit false

namespace CStable

open Support

namespace v1

/-! ### The loops of a caller -/

/-- `while (!reader->eofReached()) reader->copyValue(writer)`, with the number of
rounds that are left as fuel. -/
def copyRest (ops : FloatOps) (mem : Mapping) :
    Nat → ColumnReader → ColumnWriter → Result ColumnWriter
  | 0, _, writer => .ok writer
  | n + 1, reader, writer =>
    if reader.eofReached then .ok writer
    else do
      let (reader, writer) ← reader.copyValue ops mem writer
      copyRest ops mem n reader writer

/-- The loop, for a whole reader: every round reads one of the values it counts. -/
def copyColumn (ops : FloatOps) (mem : Mapping) (reader : ColumnReader) (writer : ColumnWriter) :
    Result ColumnWriter :=
  copyRest ops mem (reader.vals_total - reader.vals_read) reader writer

/-- A reader with its memory, and the entries it holds. -/
structure Source where
  mem : Mapping
  reader : ColumnReader
  entries : List Entry

/-- The loop for each reader in turn. -/
def copyColumns (ops : FloatOps) : List Source → ColumnWriter → Result ColumnWriter
  | [], writer => .ok writer
  | s :: ss, writer => do
    let writer ← copyColumn ops s.mem s.reader writer
    copyColumns ops ss writer

/-! ### One value -/

/-- The entry is one a column of the encoding and the level maxima can hold. -/
def ValidEntry (encoding : ColumnEncoding) (r_max d_max : Nat) (e : Entry) : Prop :=
  ∃ c, entryOf encoding r_max d_max c = some e

/-- What the read function of a class, and with it `copyValue`, makes of the value
of its encoding. -/
def copyArg : ColumnEncoding → Datum → WriteArg
  | .BOOLEAN_BITPACKED, .unsignedInt x => .boolean (decide (x > 0))
  | _, .unsignedInt x => .unsignedInt (UInt64.ofNat x)
  | _, .float x => .float (UInt64.ofNat x)
  | _, .string s => .string s

/-- The call that copies an entry. -/
def copiedCall (encoding : ColumnEncoding) (e : Entry) : WriteCall :=
  ⟨e.rlvl, e.dlvl, (e.value.map (copyArg encoding)).getD .null⟩

/-- Writing back what was read leaves the same value. The copy uses the type of the class, so
nothing is converted on the way. -/
theorem nativeDatum_copyArg {encoding : ColumnEncoding} {arg : WriteArg} {v : Datum}
    (h : nativeDatum encoding arg = some v) :
    nativeDatum encoding (copyArg encoding v) = some v := by
  -- only the classes that keep 32 bits or a 32-bit length have a bound to carry over
  cases nativeValue_of_nativeDatum h with
  | boolean value => cases value <;> rfl
  | bitPackedInt hlt | uint32 hlt =>
    simp [nativeDatum, copyArg]
    omega
  | uint64 value | leb128 value | double value => simp [nativeDatum, copyArg]
  | string hlt =>
    simp [nativeDatum, copyArg]
    omega

/-- The copy of a valid entry is the entry. Its levels are handed on as they were read. -/
theorem ValidEntry.copiedCall {encoding : ColumnEncoding} {r_max d_max : Nat} {e : Entry}
    (h : ValidEntry encoding r_max d_max e) :
    entryOf encoding r_max d_max (copiedCall encoding e) = some e := by
  obtain ⟨c, hc⟩ := h
  obtain ⟨hr, hd, hle, hkind⟩ := entryOf_eq_some hc
  obtain ⟨rlvl, dlvl, value⟩ := e
  dsimp only at hr hd hkind
  subst hr hd
  unfold entryOf v1.copiedCall
  rw [if_pos hle]
  rcases hkind with ⟨-, hlt, hnone⟩ | ⟨hmax, v, hv, hsome⟩
  · subst hnone
    dsimp only [Option.map_none, Option.getD_none]
    rw [if_pos hlt]
  · subst hsome
    have hback := nativeDatum_copyArg hv
    dsimp only [Option.map_some, Option.getD_some]
    cases hcopy : copyArg encoding v with
    | null =>
      rw [hcopy] at hback
      cases encoding <;> cases hback
    | _ =>
      dsimp only
      rw [if_pos hmax, ← hcopy, hback]
      rfl

/-- The value that the class of a column stores is of the kind of that class. -/
theorem nativeDatum_kind {encoding : ColumnEncoding} {arg : WriteArg} {v : Datum}
    (h : nativeDatum encoding arg = some v) : v.OfKind encoding := by
  cases nativeValue_of_nativeDatum h with
  | double value => exact .float
  | string hlt => exact .string
  | _ => exact .integer ⟨nofun, nofun⟩

/-- An entry that fits a column holds a value of the column's kind, or no value. -/
theorem ValidEntry.kind {encoding : ColumnEncoding} {r_max d_max : Nat} {e : Entry}
    (h : ValidEntry encoding r_max d_max e) : ∀ v, e.value = some v → v.OfKind encoding := by
  intro v hv
  obtain ⟨c, hc⟩ := h
  obtain ⟨-, -, -, ⟨-, -, hnone⟩ | ⟨-, w, hw, hsome⟩⟩ := entryOf_eq_some hc
  · rw [hnone] at hv
    cases hv
  · rw [hsome] at hv
    cases hv
    exact nativeDatum_kind hw

/-- The bit pattern of a float. -/
def Datum.toBits : Datum → Nat
  | .float x => x
  | _ => 0

/-- The bytes of a string. -/
def Datum.toBytes : Datum → Bytes
  | .string s => s
  | _ => []

/-- The call made for a view of an entry. -/
theorem copyCall_view {α : Type} {encoding : ColumnEncoding} {d_max : Nat} {e : Entry}
    {write : α → WriteArg} {f : Datum → α} {default : α} (hdef : e.value.isSome ↔ e.dlvl = d_max)
    (hwrite : ∀ v, e.value = some v → write (f v) = copyArg encoding v) :
    ColumnReader.copyCall d_max write
        ⟨e.rlvl, e.dlvl, (e.value.map f).getD default, e.value.isSome⟩ = copiedCall encoding e := by
  obtain ⟨rlvl, dlvl, value⟩ := e
  unfold ColumnReader.copyCall v1.copiedCall
  cases value with
  | none =>
    have hne : dlvl ≠ d_max := fun heq => absurd (hdef.mpr heq) (by simp)
    simp [hne]
  | some v =>
    have heq : dlvl = d_max := hdef.mp rfl
    simp [heq, hwrite v rfl]

/-- `copyValue` makes that call. -/
theorem ColumnReader.copyValue_eq {ops : FloatOps} {mem : Mapping} {r r' : ColumnReader}
    {e : Entry} (h : r.readNext mem = .ok (e, r'))
    (hkind : ∀ v, e.value = some v → v.OfKind r.data_reader.encoding) (w : ColumnWriter) :
    r.copyValue ops mem w =
      w.call (copiedCall r.data_reader.encoding e) >>= fun w' => .ok (r', w') := by
  have hdef := (reads_readNext h).defined
  -- the read, with the conversion of the class, and the call made for its view
  have hcopy : ∀ {α : Type} {convert : ColumnEncoding → Datum → Result α} {f : Datum → α}
      {write : α → WriteArg} {default : α},
      (∀ v, v.OfKind r.data_reader.encoding → convert r.data_reader.encoding v = .ok (f v) ∧
        write (f v) = copyArg r.data_reader.encoding v) →
      (r.readAs mem convert default >>= fun p =>
        w.call (copyCall r.d_max write p.1) >>= fun w' => Except.ok (p.2, w')) =
      w.call (copiedCall r.data_reader.encoding e) >>= fun w' => .ok (r', w') := by
    intro α convert f write default hconvert
    rw [readAs_ok (f := f) default h fun v hv => (hconvert v (hkind v hv)).1, Result.ok_bind,
      copyCall_view hdef fun v hv => (hconvert v (hkind v hv)).2]
  unfold copyValue
  cases hdr : r.data_reader with
  | boolean d =>
    rw [hdr] at hcopy
    refine hcopy (f := fun v => decide (v.toNat > 0)) fun v hv => ?_
    cases hv
    exact ⟨rfl, rfl⟩
  | double d =>
    rw [hdr] at hcopy
    refine hcopy (f := Datum.toBits) fun v hv => ?_
    cases hv with
    | integer hint => exact absurd rfl hint.1
    | float => exact ⟨rfl, rfl⟩
  | string d =>
    rw [hdr] at hcopy
    refine hcopy (f := Datum.toBytes) fun v hv => ?_
    cases hv with
    | integer hint => exact absurd rfl hint.2
    | string => exact ⟨rfl, rfl⟩
  | _ =>
    rw [hdr] at hcopy
    refine hcopy (f := Datum.toNat) fun v hv => ?_
    cases hv
    exact ⟨rfl, rfl⟩

/-! ### One copy and all copies -/

/-- The copy of a column so far: what a writer of the encoding and the level maxima
has recorded. -/
structure CopyInto (encoding : ColumnEncoding) (r_max d_max : Nat) (w : ColumnWriter)
    (entries : List Entry) : Prop where
  records : w.Records entries
  encoding : w.data_writer.encoding = encoding
  r_max : w.r_max = r_max
  d_max : w.d_max = d_max
  defaultMax : w.data_writer.DefaultMax

variable {encoding : ColumnEncoding} {r_max d_max : Nat}

/-- One `copyValue` adds the entry it has read. -/
theorem CopyInto.copyValue (ops : FloatOps) {mem : Mapping} {r r' : ColumnReader} {e : Entry}
    {w : ColumnWriter} {entries : List Entry} (hw : CopyInto encoding r_max d_max w entries)
    (hr_max : r_max < 2 ^ 32) (hd_max : d_max < 2 ^ 32)
    (henc : r.data_reader.encoding = encoding) (hread : r.readNext mem = .ok (e, r'))
    (hvalid : ValidEntry encoding r_max d_max e) :
    ∃ w', r.copyValue ops mem w = .ok (r', w') ∧
      CopyInto encoding r_max d_max w' (entries ++ [e]) := by
  obtain ⟨w', hcall, hrec, hrm, hdm, henc', hmax⟩ := hw.records.call (hw.r_max.symm ▸ hr_max)
    (hw.d_max.symm ▸ hd_max) hw.defaultMax (by
      rw [hw.encoding, hw.r_max, hw.d_max]
      exact hvalid.copiedCall)
  refine ⟨w', ?_, hrec, henc'.trans hw.encoding, hrm.trans hw.r_max, hdm.trans hw.d_max, hmax⟩
  rw [ColumnReader.copyValue_eq hread (henc ▸ hvalid.kind), henc, hcall, Result.ok_bind]

/-- A reader that holds entries counts at least as many values. -/
theorem ColumnReader.ReadsExactly.length_le {mem : Mapping} {entries : List Entry} :
    ∀ {r : ColumnReader}, r.ReadsExactly mem entries →
      entries.length ≤ r.vals_total - r.vals_read := by
  induction entries with
  | nil =>
    intro r _
    exact Nat.zero_le _
  | cons e entries ih =>
    intro r hreads
    obtain ⟨heof, r', hread, hrest⟩ := hreads
    have hlt : ¬ r.vals_read ≥ r.vals_total := of_decide_eq_false heof
    have hstep := reads_readNext hread
    have hlen := ih hrest
    rw [hstep.vals_total, hstep.vals_read] at hlen
    rw [List.length_cons]
    omega

/-- The loop over a reader, by induction on the entries it holds. -/
theorem CopyInto.copyRest (ops : FloatOps) {mem : Mapping} (hr_max : r_max < 2 ^ 32)
    (hd_max : d_max < 2 ^ 32) {read : List Entry} :
    ∀ {n : Nat} {r : ColumnReader} {w : ColumnWriter} {entries : List Entry},
      CopyInto encoding r_max d_max w entries → r.data_reader.encoding = encoding →
      r.ReadsExactly mem read → (∀ e ∈ read, ValidEntry encoding r_max d_max e) →
      read.length ≤ n →
      ∃ w', v1.copyRest ops mem n r w = .ok w' ∧
        CopyInto encoding r_max d_max w' (entries ++ read) := by
  induction read with
  | nil =>
    intro n r w entries hw _ hreads _ _
    -- nothing is left, and the loop ends whatever rounds it had
    have heof : r.eofReached = true := hreads
    rw [List.append_nil]
    cases n with
    | zero => exact ⟨w, rfl, hw⟩
    | succ n =>
      refine ⟨w, ?_, hw⟩
      unfold v1.copyRest
      rw [if_pos heof]
  | cons e read ih =>
    intro n r w entries hw henc hreads hvalid hlen
    obtain ⟨heof, r', hread, hrest⟩ := hreads
    cases n with
    | zero => exact absurd hlen (Nat.not_succ_le_zero _)
    | succ n =>
      obtain ⟨w₁, hcopy, hw₁⟩ := hw.copyValue ops hr_max hd_max henc hread
        (hvalid e List.mem_cons_self)
      have henc' := (ColumnReader.reads_readNext hread).encoding.trans henc
      obtain ⟨w', hloop, hw'⟩ := ih hw₁ henc' hrest
        (fun e' he' => hvalid e' (List.mem_cons_of_mem e he')) (Nat.le_of_succ_le_succ hlen)
      refine ⟨w', ?_, by rwa [List.append_cons]⟩
      unfold v1.copyRest
      rw [if_neg (by rw [heof]; exact Bool.false_ne_true), hcopy, Result.ok_bind]
      exact hloop

/-- A reader of the encoding and the level maxima that holds valid entries. -/
structure Source.Valid (encoding : ColumnEncoding) (r_max d_max : Nat) (s : Source) : Prop where
  encoding_eq : s.reader.data_reader.encoding = encoding
  r_max_eq : s.reader.r_max = r_max
  d_max_eq : s.reader.d_max = d_max
  reads : s.reader.ReadsExactly s.mem s.entries
  entries : ∀ e ∈ s.entries, ValidEntry encoding r_max d_max e

/-- All readers, one after the other. -/
theorem CopyInto.copyColumns (ops : FloatOps) (hr_max : r_max < 2 ^ 32) (hd_max : d_max < 2 ^ 32)
    {sources : List Source} :
    ∀ {w : ColumnWriter} {entries : List Entry}, CopyInto encoding r_max d_max w entries →
      (∀ s ∈ sources, s.Valid encoding r_max d_max) →
      ∃ w', v1.copyColumns ops sources w = .ok w' ∧
        CopyInto encoding r_max d_max w' (entries ++ sources.flatMap Source.entries) := by
  induction sources with
  | nil =>
    intro w entries hw _
    refine ⟨w, rfl, ?_⟩
    rw [List.flatMap_nil, List.append_nil]
    exact hw
  | cons s ss ih =>
    intro w entries hw hsources
    have hs := hsources s List.mem_cons_self
    obtain ⟨w₁, hcopy, hw₁⟩ := hw.copyRest ops hr_max hd_max hs.encoding_eq hs.reads
      hs.entries hs.reads.length_le
    obtain ⟨w', hrest, hw'⟩ := ih hw₁ fun s' hs' => hsources s' (List.mem_cons_of_mem s hs')
    refine ⟨w', ?_, by rwa [List.flatMap_cons, ← List.append_assoc]⟩
    unfold v1.copyColumns copyColumn
    rw [hcopy, Result.ok_bind]
    exact hrest

/-- Copying columns of one encoding and the same level maxima into a new column of
the same: after its commit the column reads back the entries of the first reader,
then those of the second, and so on. -/
theorem copyColumns_concat (ops : FloatOps) (encoding : ColumnEncoding) (type : UInt8)
    (r_max d_max : Nat) (sources : List Source) (hr_max : r_max < 2 ^ 32) (hd_max : d_max < 2 ^ 32)
    (hsources : ∀ s ∈ sources, s.Valid encoding r_max d_max)
    (hcount : (sources.flatMap Source.entries).length < 2 ^ 64) :
    ∃ w, copyColumns ops sources
        (ColumnWriter.new r_max d_max (ColumnWriter.newDataWriter encoding type)) = .ok w ∧
      (w.commit.bodySize < 2 ^ 64 → ∀ mem address, HoldsAt mem address w.commit.body →
        ∃ r, ColumnReader.new mem encoding r_max d_max address w.commit.bodySize = .ok r ∧
          r.ReadsExactly mem (sources.flatMap Source.entries)) := by
  have hfresh : CopyInto encoding r_max d_max
      (ColumnWriter.new r_max d_max (ColumnWriter.newDataWriter encoding type)) [] :=
    ⟨ColumnWriter.records_new hr_max hd_max encoding type, DataWriter.encoding_new encoding type,
      rfl, rfl, DataWriter.defaultMax_new encoding type⟩
  obtain ⟨w, hcopy, hw⟩ := hfresh.copyColumns ops hr_max hd_max hsources
  rw [List.nil_append] at hw
  refine ⟨w, hcopy, fun hsize mem address hmem => ?_⟩
  obtain ⟨r, hnew, hdelivers⟩ := hw.records.delivers (hw.r_max.symm ▸ hr_max)
    (hw.d_max.symm ▸ hd_max) hcount hmem hsize
  rw [hw.encoding, hw.r_max, hw.d_max] at hnew
  exact ⟨r, hnew, hdelivers.readsExactly⟩

/-- A column of a value and a null, copied twice. -/
theorem copyColumns_concat_twice :
    let entries : List Entry := [⟨0, 1, some (.unsignedInt 7)⟩, ⟨0, 0, none⟩]
    ∃ mem r w, copyColumns noFloats [⟨mem, r, entries⟩, ⟨mem, r, entries⟩]
        (ColumnWriter.new 0 1 (ColumnWriter.newDataWriter .UINT64_PLAIN 2)) = .ok w ∧
      (w.commit.bodySize < 2 ^ 64 → ∀ mem address, HoldsAt mem address w.commit.body →
        ∃ r, ColumnReader.new mem .UINT64_PLAIN 0 1 address w.commit.bodySize = .ok r ∧
          r.ReadsExactly mem (entries ++ entries)) := by
  intro entries
  have hcalls : ∀ c ∈ ([⟨0, 1, .unsignedInt 7⟩, ⟨0, 0, .null⟩] : List WriteCall),
      UnsignedCall 0 1 c := by simp [UnsignedCall]
  obtain ⟨mem, r, hreads, henc, hr, hd⟩ : ∃ mem r, ColumnReader.ReadsExactly mem r entries ∧
      r.data_reader.encoding = .UINT64_PLAIN ∧ r.r_max = 0 ∧ r.d_max = 1 := by
    obtain ⟨r, hnew, hreads, henc⟩ := (IntegerClass.uint64 2).reads_back (by norm_num)
      (by norm_num) hcalls (by norm_num) (by decide +kernel) (by simp; decide)
      ⟨[], [], (List.append_nil _).symm, rfl⟩
    exact ⟨_, r, hreads, henc, (ColumnReader.new_spec hnew).2⟩
  have hvalid : Source.Valid .UINT64_PLAIN 0 1 ⟨mem, r, entries⟩ := by
    refine ⟨henc, hr, hd, hreads, fun e he => ?_⟩
    simp only [entries, List.mem_cons, List.not_mem_nil, or_false] at he
    rcases he with rfl | rfl
    · exact ⟨⟨0, 1, .unsignedInt 7⟩, rfl⟩
    · exact ⟨⟨0, 0, .null⟩, rfl⟩
  obtain ⟨w, hcopy, hback⟩ := copyColumns_concat noFloats .UINT64_PLAIN 2 0 1
    [⟨mem, r, entries⟩, ⟨mem, r, entries⟩] (by norm_num) (by norm_num)
    (by simpa using hvalid) (by simp [entries])
  exact ⟨mem, r, w, hcopy, by simpa using hback⟩

end v1

end CStable
