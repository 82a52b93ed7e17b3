import CStable.Proofs.CopyColumn
import CStable.Proofs.SameTables

/-!
# `CStable.Proofs.MergedTables`: copying tables into one

A client merges tables of one message schema by copying every column of each with
`copyValue` into the column of the same name of a new table, and adding the rows
(`mergeTables`). `copyValue` makes the call that has written the value, so the columns end
where the calls of all records would have taken them: the merged table is committed to the
file of the table to which all records were added directly (`mergedFile`).
-/

set_option autoImplicit false

namespace CStable

open TableSchema (fromProtobuf)

/-! ### One column -/

namespace v1

/-- The copy of an entry is the call that has written it, byte for byte. The call may have been
of another type, and the copy is of the class's own. -/
theorem sameBytes_copiedCall {encoding : ColumnEncoding} {r_max d_max : Nat} {c : WriteCall}
    {e : Entry} (h : entryOf encoding r_max d_max c = some e) :
    SameBytes c (copiedCall encoding e) := by
  obtain ⟨hr, hd, -, hkind⟩ := entryOf_eq_some h
  refine ⟨hr.symm, hd.symm, ?_⟩
  unfold copiedCall
  rcases hkind with ⟨harg, -, hnone⟩ | ⟨-, v, hv, hsome⟩
  · rw [harg, hnone]
    rfl
  · rw [hsome]
    obtain ⟨rlvl, dlvl, arg⟩ := c
    -- only the calls of the class have a value, and they store all of it
    cases nativeValue_of_nativeDatum hv with
    | boolean value => cases value <;> rfl
    | string hlt => rfl
    | _ => simp [copyArg, ColumnWriter.datum]

/-- Copying a reader is making the calls of its entries. By induction on the entries, with a
round of the loop for each. -/
theorem copyRest_eq (ops : FloatOps) {mem : Mapping} {entries : List Entry} :
    ∀ {n : Nat} {r : ColumnReader} (w : ColumnWriter), r.ReadsExactly mem entries →
      (∀ e ∈ entries, ∀ v, e.value = some v → v.OfKind r.data_reader.encoding) →
      entries.length ≤ n →
      copyRest ops mem n r w =
        (entries.map (copiedCall r.data_reader.encoding)).foldlM ColumnWriter.call w := by
  -- the loop stops at the end of the reader, which is the end of its entries
  induction entries with
  | nil =>
    intro n r w hreads _ _
    have heof : r.eofReached = true := hreads
    cases n with
    | zero => rfl
    | succ n =>
      unfold copyRest
      rw [if_pos heof]
      rfl
  | cons e entries ih =>
    intro n r w hreads hkind hlen
    obtain ⟨heof, r', hread, hrest⟩ := hreads
    cases n with
    | zero => exact absurd hlen (Nat.not_succ_le_zero _)
    | succ n =>
      have henc := (ColumnReader.reads_readNext hread).encoding
      have hrec := fun w' => ih w' hrest
        (fun e' he' => henc ▸ hkind e' (List.mem_cons_of_mem e he')) (Nat.le_of_succ_le_succ hlen)
      rw [henc] at hrec
      rw [copyRest, if_neg (by rw [heof]; exact Bool.false_ne_true),
        ColumnReader.copyValue_eq hread (hkind e List.mem_cons_self), List.map_cons,
        List.foldlM_cons]
      cases w.call (copiedCall r.data_reader.encoding e) with
      | error err => rfl
      | ok w' => exact hrec w'

/-- Calls with the same bytes take a column to the same state, or raise in both cases. By
induction on the calls. -/
theorem foldlM_call_congr {calls calls' : List WriteCall}
    (h : List.Forall₂ SameBytes calls calls') :
    ∀ w : ColumnWriter, calls.foldlM ColumnWriter.call w = calls'.foldlM ColumnWriter.call w := by
  induction h with
  | nil => exact fun _ => rfl
  | @cons c c' cs cs' hc _ ih =>
    intro w
    rw [List.foldlM_cons, List.foldlM_cons, hc.call_eq w]
    exact congrArg _ (funext ih)

/-- Calls a column takes do not raise, so a loop over them is the run of the calls. -/
theorem foldlM_call_eq {calls : List WriteCall} :
    ∀ {w : ColumnWriter}, (∀ c ∈ calls, RecordShredder.Takes w.data_writer.encoding c.arg) →
      calls.foldlM ColumnWriter.call w = .ok (w.callAll calls).1 := by
  induction calls with
  | nil => exact fun _ => rfl
  | cons c calls ih =>
    intro w h
    obtain ⟨w', hw'⟩ := RecordShredder.call_ok (h c List.mem_cons_self) c.rlvl c.dlvl
    have hcall : w.call c = .ok w' := hw'
    have henc := ColumnWriter.encoding_call hcall
    rw [List.foldlM_cons, ColumnWriter.callAll, hcall]
    exact ih fun c' hc' => henc.symm ▸ h c' (List.mem_cons_of_mem c hc')

/-- A copy makes the calls whose entries the reader holds, up to calls with the same bytes. The
caller's loop reads to the end, and the end is known from the entries. -/
theorem copyColumn_eq (ops : FloatOps) {mem : Mapping} {r : ColumnReader} {entries : List Entry}
    {calls : List WriteCall} {r_max d_max : Nat} (hreads : r.ReadsExactly mem entries)
    (hcalls : List.Forall₂
      (fun c e => entryOf r.data_reader.encoding r_max d_max c.native = some e) calls entries)
    {w : ColumnWriter} (hw : w.data_writer.encoding = r.data_reader.encoding) :
    copyColumn ops mem r w = .ok (w.callAll calls).1 := by
  have hsame : List.Forall₂ SameBytes calls
      (entries.map (copiedCall r.data_reader.encoding)) := by
    refine List.forall₂_map_right_iff.mpr (hcalls.imp fun c e he => ?_)
    obtain ⟨hr, hd, hdatum⟩ := sameBytes_native c
    obtain ⟨hr', hd', hdatum'⟩ := sameBytes_copiedCall he
    exact ⟨hr.trans hr', hd.trans hd', hdatum.trans hdatum'⟩
  have hkind : ∀ e ∈ entries, ∀ v, e.value = some v → v.OfKind r.data_reader.encoding := by
    intro e he
    obtain ⟨c, -, hc⟩ := Support.exists_of_mem_right hcalls he
    exact ValidEntry.kind ⟨_, hc⟩
  have htakes : ∀ c ∈ calls, RecordShredder.Takes w.data_writer.encoding c.arg := by
    intro c hc str hstr
    obtain ⟨e, -, he⟩ := Support.exists_of_mem_left hcalls hc
    obtain ⟨-, -, -, ⟨harg, -⟩ | ⟨-, v, hv, -⟩⟩ := entryOf_eq_some he
    · rw [WriteCall.native, hstr] at harg
      cases harg
    · rw [WriteCall.native, hstr] at hv
      rw [hw]
      generalize r.data_reader.encoding = encoding at hv ⊢
      cases encoding <;> first | rfl | cases hv
  unfold copyColumn
  rw [copyRest_eq ops w hreads hkind hreads.length_le, ← foldlM_call_congr hsame,
    foldlM_call_eq htakes]

end v1

/-! ### The columns of a table -/

namespace CSTableWriter

/-- `copyValue` up to the end of the column a table has under a name, into the column writer
of that name. The calls it makes on the column writer are not calls of the client. -/
def copyColumn (ops : FloatOps) (table : CSTableReader) (t : CSTableWriter) (name : Bytes) :
    Result CSTableWriter := do
  let i ← t.getColumnWriter name
  let slot ← t.slot i
  let reader ← table.getColumnReader name
  match reader, slot.writer with
  | .v1 r, .v1 w => do
    let w ← v1.copyColumn ops table.mmap r w
    .ok { t with column_writers := t.column_writers.set i { slot with writer := .v1 w } }
  | _, _ => .error .fault

/-- All columns of a table, and its rows. -/
def copyTable (ops : FloatOps) (t : CSTableWriter) (table : CSTableReader) :
    Result CSTableWriter := do
  let t ← (t.columns.map ColumnConfig.column_name).foldlM (copyColumn ops table) t
  .ok (t.addRows table.numRecords)

/-- One table after the other. -/
def mergeTables (ops : FloatOps) (tables : List CSTableReader) (t : CSTableWriter) :
    Result CSTableWriter :=
  tables.foldlM (copyTable ops) t

/-- The tables differ at most in the calls that have been made on their columns. -/
structure SameWriters (t u : CSTableWriter) : Prop where
  version : t.version = u.version
  columns : t.columns = u.columns
  num_rows : t.num_rows = u.num_rows
  pages : t.pages = u.pages
  writers : t.column_writers.map ColumnSlot.writer = u.column_writers.map ColumnSlot.writer

/-- What a commit does with a column and its writer. -/
def commitWriter (col : ColumnConfig) : ColumnWriter → Result (ColumnConfig × v1.ColumnWriter)
  | .v1 w => .ok ({ col with body_size := w.commit.bodySize }, w.commit)
  | .v2 _ => .error .fault

/-- Tables with the same writers, the other way around. -/
theorem SameWriters.symm {t u : CSTableWriter} (h : SameWriters t u) : SameWriters u t :=
  ⟨h.version.symm, h.columns.symm, h.num_rows.symm, h.pages.symm, h.writers.symm⟩

/-- A commit looks at the column writers, and not at the calls that led to them. -/
theorem SameWriters.commitColumns_eq {t u : CSTableWriter} (h : SameWriters t u) :
    t.commitColumns = u.commitColumns := by
  have hzip : ∀ t : CSTableWriter, t.commitColumns =
      (t.columns.zip (t.column_writers.map ColumnSlot.writer)).mapM fun p =>
        commitWriter p.1 p.2 := by
    intro t
    rw [List.zip_map_right, List.mapM_map]
    rfl
  rw [hzip, hzip, h.columns, h.writers]

/-- So tables with the same writers are committed to the same file. The rows and the columns are
part of `SameWriters`, since the header holds them. -/
theorem SameWriters.commit {mem : Uninit} {t t' u : CSTableWriter} (h : SameWriters t u)
    (hversion : t.version = .v0_1_0) (hcommit : t.commit mem = .ok t') :
    ∃ u', u.commit mem = .ok u' ∧ u'.file = t'.file := by
  have hsize : t.headerSizeV1 = u.headerSizeV1 := by
    unfold headerSizeV1
    rw [h.columns, h.num_rows]
  unfold CSTableWriter.commit at hcommit ⊢
  rw [← h.version, hversion]
  rw [hversion] at hcommit
  obtain ⟨cols, hcols, hcommit⟩ := Result.bind_eq_ok.mp hcommit
  obtain ⟨pm, hheader, hcommit⟩ := Result.bind_eq_ok.mp hcommit
  obtain ⟨pm', hbodies, hret⟩ := Result.bind_eq_ok.mp hcommit
  cases hret
  rw [h.commitColumns_eq] at hcols
  rw [h.num_rows, h.pages, hsize] at hheader
  rw [hsize] at hbodies
  exact ⟨_, Result.bind_eq_ok.mpr ⟨cols, hcols, Result.bind_eq_ok.mpr ⟨pm, hheader,
    Result.bind_eq_ok.mpr ⟨pm', hbodies, rfl⟩⟩⟩, rfl⟩

/-- A column that takes calls ends in a state that only depends on the one it was in. -/
theorem writer_replay_congr {slot slot' : ColumnSlot} (h : slot.writer = slot'.writer)
    (calls : List WriteCall) : (slot.replay calls).writer = (slot'.replay calls).writer := by
  unfold ColumnSlot.replay
  rw [h]
  cases hw : slot'.writer with
  | v1 w => rfl
  | v2 w => exact h

/-- The same calls keep the writers of two tables the same. This is the step by which a merged
table follows the one written directly. -/
theorem SameWriters.replay {t u : CSTableWriter} (h : SameWriters t u) (rows : UInt64)
    (calls : Nat → List WriteCall) : SameWriters (t.replay rows calls) (u.replay rows calls) := by
  refine ⟨h.version, h.columns, congrArg (· + rows) h.num_rows, h.pages, ?_⟩
  refine List.ext_getElem? fun i => ?_
  have hi := congrArg (·[i]?) h.writers
  simp only [List.getElem?_map] at hi
  simp only [CSTableWriter.replay, List.getElem?_map, List.getElem?_mapIdx, Option.map_map]
  cases hslot : t.column_writers[i]? with
  | none =>
    rw [hslot] at hi
    rw [Option.map_eq_none_iff.mp hi.symm]
  | some slot =>
    rw [hslot] at hi
    obtain ⟨slot', hslot', hsame⟩ := Option.map_eq_some_iff.mp hi.symm
    rw [hslot']
    exact congrArg some (writer_replay_congr hsame.symm (calls i))

/-- Tables with the same writers as one in between. -/
theorem SameWriters.trans {t u v : CSTableWriter} (h : SameWriters t u) (h' : SameWriters u v) :
    SameWriters t v :=
  ⟨h.version.trans h'.version, h.columns.trans h'.columns, h.num_rows.trans h'.num_rows,
    h.pages.trans h'.pages, h.writers.trans h'.writers⟩

/-- The columns at a position have the same writer. -/
theorem SameWriters.getElem? {t u : CSTableWriter} (h : SameWriters t u) {i : Nat}
    {slot : ColumnSlot} (hslot : u.column_writers[i]? = some slot) :
    ∃ slot', t.column_writers[i]? = some slot' ∧ slot'.writer = slot.writer := by
  have hi := congrArg (·[i]?) h.writers
  simp only [List.getElem?_map, hslot, Option.map_some] at hi
  exact Option.map_eq_some_iff.mp hi

/-- The column of a table under a name, in a column writer of its encoding, makes the calls. -/
def Copies (ops : FloatOps) (table : CSTableReader) (name : Bytes) (encoding : ColumnEncoding)
    (calls : List WriteCall) : Prop :=
  ∃ r, table.getColumnReader name = .ok (.v1 r) ∧ ∀ w : v1.ColumnWriter,
    w.data_writer.encoding = encoding →
      v1.copyColumn ops table.mmap r w = .ok (w.callAll calls).1

/-- Every column of the writer has a counterpart in the table, which makes the calls for its
position. -/
def CopiesAll (ops : FloatOps) (table : CSTableReader) (calls : Nat → List WriteCall)
    (t : CSTableWriter) : Prop :=
  ∀ (i : Nat) (col : ColumnConfig), t.columns[i]? = some col →
    ∃ slot w, t.column_writers[i]? = some slot ∧ slot.writer = .v1 w ∧
      Copies ops table col.column_name w.data_writer.encoding (calls i)

/-- The calls for the columns whose names are in the list. -/
def callsAt (calls : Nat → List WriteCall) (names : List Bytes) (t : CSTableWriter) (i : Nat) :
    List WriteCall :=
  if (t.columns[i]?.map ColumnConfig.column_name).any names.contains then calls i else []

/-- Copying one column of a table: the column of the name makes the calls that the source column
has the entries of, and the others stay as they are. What is still to be copied is not touched,
so the loop over the columns can go on. -/
theorem copyColumn_spec {ops : FloatOps} {table : CSTableReader} {calls : Nat → List WriteCall}
    {t : CSTableWriter} (hnames : (t.columns.map ColumnConfig.column_name).Nodup)
    (hcopies : CopiesAll ops table calls t) {name : Bytes}
    (hname : name ∈ t.columns.map ColumnConfig.column_name) :
    ∃ t', copyColumn ops table t name = .ok t' ∧ CopiesAll ops table calls t' ∧
      SameWriters t' (t.replay 0 (callsAt calls [name] t)) := by
  obtain ⟨col, hmem, rfl⟩ := List.mem_map.mp hname
  obtain ⟨i, hcol⟩ := List.mem_iff_getElem?.mp hmem
  obtain ⟨slot, w, hslot, hw, r, hr, hcopy⟩ := hcopies i col hcol
  have hfind := (getColumnWriter_eq_ok hnames hcol col.column_name).mpr rfl
  -- names are distinct, so the calls under this name are those of the one column
  have hcalls : callsAt calls [col.column_name] t = fun j => if i = j then calls i else [] := by
    funext j
    unfold callsAt
    by_cases hij : i = j
    · subst hij
      rw [hcol]
      simp
    · rw [if_neg hij]
      cases hj : t.columns[j]? with
      | none => rfl
      | some col' =>
        have hne : col'.column_name ≠ col.column_name := by
          intro heq
          have hj' := (getColumnWriter_eq_ok hnames hj col.column_name).mpr heq.symm
          exact hij (Except.ok.inj (hfind.symm.trans hj'))
        simp [hne]
  let copied : ColumnSlot := ⟨.v1 (w.callAll (calls i)).1, slot.history⟩
  have hlt : i < t.column_writers.length := (List.getElem?_eq_some_iff.mp hslot).1
  refine ⟨{ t with column_writers := t.column_writers.set i copied }, ?_, ?_, ?_⟩
  · unfold copyColumn CSTableWriter.slot
    rw [hfind, Result.ok_bind, hslot]
    dsimp only
    rw [Result.ok_bind, hr, Result.ok_bind, hw]
    dsimp only
    rw [hcopy w rfl]
    rfl
  · -- the column keeps its encoding
    intro j col' hcol'
    by_cases hij : i = j
    · subst hij
      cases hcol.symm.trans hcol'
      refine ⟨copied, _, List.getElem?_set_self hlt, rfl, ?_⟩
      rw [v1.ColumnWriter.encoding_callAll]
      exact ⟨r, hr, hcopy⟩
    · show ∃ slot w, (t.column_writers.set i copied)[j]? = some slot ∧ _
      rw [List.getElem?_set_ne hij]
      exact hcopies j col' hcol'
  · refine ⟨rfl, rfl, (UInt64.add_zero _).symm, rfl, ?_⟩
    show (t.column_writers.set i copied).map ColumnSlot.writer =
      (t.column_writers.mapIdx fun j slot => slot.replay (callsAt calls [col.column_name] t j)).map
        ColumnSlot.writer
    rw [hcalls, mapIdx_replay_single, List.modify_eq_set_getElem?, hslot]
    show _ = (t.column_writers.set i (slot.replay (calls i))).map _
    rw [List.map_set, List.map_set]
    refine congrArg (List.set _ i) ?_
    unfold ColumnSlot.replay
    rw [hw]

/-- Copying some of the columns, by induction on their names. Columns that were copied already
have made their calls. -/
theorem foldlM_copyColumn {ops : FloatOps} {table : CSTableReader} {calls : Nat → List WriteCall}
    {names : List Bytes} :
    ∀ {t : CSTableWriter}, names.Nodup → (t.columns.map ColumnConfig.column_name).Nodup →
      CopiesAll ops table calls t → names ⊆ t.columns.map ColumnConfig.column_name →
      ∃ t', names.foldlM (copyColumn ops table) t = .ok t' ∧
        SameWriters t' (t.replay 0 (callsAt calls names t)) := by
  induction names with
  | nil =>
    intro t _ _ _ _
    refine ⟨t, rfl, ?_⟩
    have hnone : callsAt calls [] t = fun _ => [] := by
      funext i
      unfold callsAt
      cases t.columns[i]? <;> rfl
    rw [hnone, replay_rows]
    exact ⟨rfl, rfl, (UInt64.add_zero _).symm, rfl, rfl⟩
  | cons name names ih =>
    intro t hnodup hnames hcopies hsub
    obtain ⟨hnot, hnodup⟩ := List.nodup_cons.mp hnodup
    obtain ⟨t₁, hcopy, hcopies₁, hsame₁⟩ := copyColumn_spec hnames hcopies
      (hsub List.mem_cons_self)
    have hcolumns : t₁.columns = t.columns := hsame₁.columns
    obtain ⟨t', hrest, hsame⟩ := ih hnodup (hcolumns ▸ hnames) hcopies₁
      (hcolumns ▸ List.subset_of_cons_subset hsub)
    refine ⟨t', ?_, ?_⟩
    · rw [List.foldlM_cons, hcopy]
      exact hrest
    · have hcalls : callsAt calls (name :: names) t =
          fun i => callsAt calls [name] t i ++ callsAt calls names t₁ i := by
        funext i
        unfold callsAt
        rw [hcolumns]
        cases t.columns[i]? with
        | none => rfl
        | some col =>
          -- the name of the column is the first one, or one of the others, or neither
          by_cases hhead : col.column_name = name
          · simp [hhead, hnot]
          · simp [hhead]
      have hall := hsame₁.replay 0 (callsAt calls names t₁)
      rw [replay_replay, ← hcalls, UInt64.add_zero] at hall
      exact hsame.trans hall

/-- Copying a table makes the calls of every column and adds the rows. The columns are found by
name, and names are distinct. -/
theorem copyTable_spec {ops : FloatOps} {table : CSTableReader} {calls : Nat → List WriteCall}
    {t : CSTableWriter} (hnames : (t.columns.map ColumnConfig.column_name).Nodup)
    (hcopies : CopiesAll ops table calls t) (hlength : t.column_writers.length = t.columns.length) :
    ∃ t', copyTable ops t table = .ok t' ∧ SameWriters t' (t.replay table.numRecords calls) := by
  obtain ⟨t₁, hcopy, hsame⟩ := foldlM_copyColumn hnames hnames hcopies (List.Subset.refl _)
  refine ⟨t₁.addRows table.numRecords, ?_, ?_⟩
  · unfold copyTable
    rw [hcopy]
    rfl
  · have hall := hsame.replay table.numRecords fun _ => []
    rw [replay_rows, replay_replay, UInt64.zero_add] at hall
    have hslots : (t.column_writers.mapIdx fun i slot => slot.replay
        (callsAt calls (t.columns.map ColumnConfig.column_name) t i ++ [])) =
        t.column_writers.mapIdx fun i slot => slot.replay (calls i) := by
      refine List.ext_getElem? fun i => ?_
      rw [List.getElem?_mapIdx, List.getElem?_mapIdx]
      cases hi : t.column_writers[i]? with
      | none => rfl
      | some slot =>
        have hlt : i < t.columns.length :=
          hlength ▸ (List.getElem?_eq_some_iff.mp hi).1
        have hcol := List.getElem?_eq_getElem hlt
        -- all columns were copied, so every column has its calls
        have hat : callsAt calls (t.columns.map ColumnConfig.column_name) t i = calls i := by
          unfold callsAt
          rw [hcol]
          exact if_pos (List.contains_iff_mem.mpr (List.mem_map_of_mem (List.getElem_mem hlt)))
        rw [hat, List.append_nil]
    refine ⟨hall.version, hall.columns, hall.num_rows, hall.pages, hall.writers.trans ?_⟩
    exact congrArg (List.map ColumnSlot.writer) hslots

/-- The calls that have been made on the column at a position since the table was another one. -/
def newCalls (t t' : CSTableWriter) (i : Nat) : List WriteCall :=
  ((t'.column_writers[i]?.map ColumnSlot.history).getD []).drop
    ((t.column_writers[i]?.map ColumnSlot.history).getD []).length

/-- Replaying the calls that were accepted is replaying all, because a call that raises changes
nothing. -/
theorem replay_newCalls {t : CSTableWriter} (h : t.AllV1) (rows : UInt64)
    (calls : Nat → List WriteCall) :
    t.replay rows (newCalls t (t.replay rows calls)) = t.replay rows calls := by
  have hslots : (t.column_writers.mapIdx fun i slot =>
      slot.replay (newCalls t (t.replay rows calls) i)) =
      t.column_writers.mapIdx fun i slot => slot.replay (calls i) := by
    refine List.ext_getElem? fun i => ?_
    rw [List.getElem?_mapIdx, List.getElem?_mapIdx]
    cases hslot : t.column_writers[i]? with
    | none => rfl
    | some slot =>
      obtain ⟨w, hw⟩ := h slot (List.mem_of_getElem? hslot)
      have hnew : newCalls t (t.replay rows calls) i = (w.callAll (calls i)).2 := by
        unfold newCalls
        simp only [CSTableWriter.replay, List.getElem?_mapIdx, hslot, Option.map_some,
          Option.getD_some]
        rw [slot.replay_history hw, List.drop_left]
      rw [Option.map_some, Option.map_some, hnew, slot.replay_accepted hw]
  unfold CSTableWriter.replay at hslots ⊢
  rw [hslots]

/-- A table that writes lead to is one that replays calls of the table they started from. So the
calls are all there is to know of a run of writes. -/
theorem keptByWrites_replay (t₀ : CSTableWriter) :
    KeptByWrites fun t => t.AllV1 ∧ ∃ rows calls, t = t₀.replay rows calls where
  writeColumn := by
    rintro i c t ⟨hall, rows, calls, rfl⟩
    rw [writeColumn_eq hall]
    exact ⟨hall.replay _ _, _, _, replay_replay ..⟩
  addRow := by
    rintro t ⟨hall, rows, calls, rfl⟩
    refine ⟨hall, rows + 1, calls, ?_⟩
    unfold addRow CSTableWriter.replay
    rw [UInt64.add_assoc]
  addRows := by
    rintro t n ⟨hall, rows, calls, rfl⟩
    refine ⟨hall, rows + n, calls, ?_⟩
    unfold addRows CSTableWriter.replay
    rw [UInt64.add_assoc]

end CSTableWriter

/-! ### Tables of records -/

namespace RecordMaterializer

open CSTableWriter (Copies CopiesAll SameWriters newCalls copyTable mergeTables)
open RecordShredder (RecordContains RecordsWritten HoldsCalls leafCalls)

/-- The table was opened from a file that the records were written to, through a table with a
schema made from the message schema. -/
inductive OpenedFrom (schema : MessageSchema) (records : List MessageObject)
    (table : CSTableReader) : Prop where
  | file (mem mem' : Uninit) (order order' : HashOrder) (t t' t'' : CSTableWriter)
    (hcreate : CSTableWriter.createFile mem order' .v0_1_0 (fromProtobuf order schema) = .ok t)
    (hexec : CxxM.exec (RecordShredder.addRecords t.schema
      (records.map fun record => (record, schema))) t = (.ok (), t'))
    (hcommit : t'.commit mem = .ok t'')
    (hopen : CSTableReader.openFile mem' (contents t''.file) = .ok table)

/-- A column of the opened file makes the calls of the records on its leaf. Copying the file is
therefore adding its records. -/
theorem OpenedFrom.copies {schema : MessageSchema} {records : List MessageObject}
    {table : CSTableReader} (h : OpenedFrom schema records table)
    (hdistinct : AtEveryLevel DistinctFields schema)
    (hnames : ((messageLeaves schema).map (MessageLeaf.name · [])).Nodup)
    (hconform : ∀ record ∈ records, Conforms schema record)
    (hstrings : ∀ record ∈ records, StringsFit record) :
    table.numRecords = UInt64.ofNat records.length ∧
      ∀ m ∈ messageLeaves schema, ∃ cs, List.Forall₂ (RecordContains m) records cs ∧
        ∀ ops, Copies ops table (m.name []) m.path.encoding (cs.flatMap (leafCalls m)) := by
  obtain ⟨mem, mem', order, order', t, t', t'', hcreate, hexec, hcommit, hopen⟩ := h
  obtain ⟨u, hexec', hwritten, hversion, hreplayed, hcolumns, hrows⟩ :=
    exists_recordTable hdistinct hnames hcreate hconform
  -- shredding is a function: the table at hand is the one the spec describes
  obtain rfl : t' = u := (Prod.mk.inj (hexec.symm.trans hexec')).2
  have hnative := nativeHistory_recordsWritten hwritten hstrings
  obtain ⟨table', hopen', hnum, hopens, -⟩ := hreplayed.exists_table mem' hversion hwritten.names
    (hreplayed.levelsFit hversion (levels_le_name hwritten) hcommit) hnative hcommit
  obtain rfl : table = table' := Except.ok.inj (hopen.symm.trans hopen')
  refine ⟨hnum.trans hrows, fun m hm => ?_⟩
  obtain ⟨i, hi⟩ := List.mem_iff_getElem?.mp (hwritten.paths.mem_iff.mpr (List.mem_map_of_mem hm))
  obtain ⟨slot, hslot, -, cs, hcs, hhistory⟩ := hwritten.slots m hm i hi
  have hcol : t'.columns[i]? = some ((m.path.flat [] 0 0).config mem i) := by
    rw [hwritten.own.getElem?_columns, hi]
    rfl
  refine ⟨cs, hcs, fun ops => ?_⟩
  obtain ⟨c, cr, hfound, hencoding, -, hreads⟩ := (hopens i _ slot hcol hslot).found
  have hcode : ColumnEncoding.ofCode? ((m.path.flat [] 0 0).config mem i).storage_type =
      some m.path.encoding := ColumnEncoding.ofCode?_code _
  have henc : cr.data_reader.encoding = m.path.encoding :=
    Option.some.inj (hencoding.symm.trans hcode)
  have hentries := List.forall₂_map_left_iff.mp
    (CSTableWriter.forall₂_nativeEntry hencoding (hnative i _ slot hcol hslot))
  refine ⟨cr, ?_, fun w hw => ?_⟩
  · have hname : table.find (m.name []) = some (c, .v1 cr) := hfound
    unfold CSTableReader.getColumnReader
    rw [hname]
  · rw [← hhistory]
    exact v1.copyColumn_eq ops hreads hentries (hw.trans henc.symm)

/-- Adding the records of two lists is adding those of one list and then the others. -/
theorem exec_addRecords_append {schema_ : TableSchema}
    {records records' : List (MessageObject × MessageSchema)} :
    ∀ {t t' : CSTableWriter},
      CxxM.exec (RecordShredder.addRecords schema_ records) t = (.ok (), t') →
      CxxM.exec (RecordShredder.addRecords schema_ (records ++ records')) t =
        CxxM.exec (RecordShredder.addRecords schema_ records') t' := by
  induction records with
  | nil =>
    intro t t' h
    cases h
    rfl
  | cons record records ih =>
    intro t t' h
    rw [List.cons_append, RecordShredder.addRecords, CxxM.exec_bind]
    rw [RecordShredder.addRecords, CxxM.exec_bind] at h
    rcases hrun : CxxM.exec (RecordShredder.addRecordFromProtobuf schema_ record.1 record.2) t with
      ⟨result, t₁⟩
    rw [hrun] at h
    cases result with
    | error e => cases h
    | ok u => exact ih h

/-- The calls of the new records on the column of a leaf. The history of the column holds those
of the old records in front. -/
theorem newCalls_eq {mem : Uninit} {schema : MessageSchema} {u u' : CSTableWriter}
    {written records : List MessageObject} (hdistinct : AtEveryLevel DistinctFields schema)
    (h : RecordsWritten mem schema u written)
    (h' : RecordsWritten mem schema u' (written ++ records))
    (hschema : u'.schema = u.schema) {m : MessageLeaf} (hm : m ∈ messageLeaves schema) {i : Nat}
    (hi : (schemaPaths u.schema)[i]? = some m.path)
    {cs : List (Support.Striping.Nest ScalarValue m.path.hops)}
    (hcs : List.Forall₂ (RecordContains m) records cs) :
    newCalls u u' i = cs.flatMap (leafCalls m) := by
  obtain ⟨slot, hslot, -, cs₁, hcs₁, hhistory⟩ := h.slots m hm i hi
  obtain ⟨slot', hslot', -, cs₂, hcs₂, hhistory'⟩ := h'.slots m hm i (hschema.symm ▸ hi)
  unfold newCalls
  rw [hslot, hslot', Option.map_some, Option.map_some, Option.getD_some, Option.getD_some, hhistory,
    hhistory']
  -- the calls of the old records come first
  have hold := (List.forall₂_take_append _ _ _ hcs₂.flip).flip
  have hnew := (List.forall₂_drop_append _ _ _ hcs₂.flip).flip
  rw [← List.take_append_drop written.length cs₂, List.flatMap_append,
    flatMap_leafCalls_unique hdistinct hm hold hcs₁, List.drop_left]
  exact flatMap_leafCalls_unique hdistinct hm hnew hcs

/-- Accepted records have taken every column where the new calls in its history take it. Nothing
else about the records is kept in the table. -/
theorem addRecords_replay {schema_ : TableSchema} {records : List (MessageObject × MessageSchema)}
    {t t' : CSTableWriter} (hall : t.AllV1)
    (h : CxxM.exec (RecordShredder.addRecords schema_ records) t = (.ok (), t')) :
    t'.AllV1 ∧ t'.schema = t.schema ∧
      t.replay (UInt64.ofNat records.length) (newCalls t t') = t' := by
  have hkept := preserves_addRecords (CSTableWriter.keptByWrites_replay t) schema_ records t
    ⟨hall, 0, fun _ => [], by rw [CSTableWriter.replay_rows]; unfold CSTableWriter.addRows; simp⟩
  rw [h] at hkept
  obtain ⟨hall', rows, calls, hreplay⟩ := hkept
  have hreplay : t' = t.replay rows calls := hreplay
  have hrows : rows = UInt64.ofNat records.length := by
    obtain ⟨-, -, -, hframe⟩ := addRecords_frame h
    rw [hreplay] at hframe
    exact (UInt64.add_right_inj _).mp hframe
  refine ⟨hall', by rw [hreplay]; rfl, ?_⟩
  rw [← hrows, hreplay]
  exact CSTableWriter.replay_newCalls hall rows calls

/-- One more table: copying it has the effect of adding its records, as far as the writers
go. -/
theorem copyTable_records (ops : FloatOps) {mem : Uninit} {schema : MessageSchema}
    {t u : CSTableWriter} {written records : List MessageObject} {table : CSTableReader}
    (hdistinct : AtEveryLevel DistinctFields schema)
    (hnames : ((messageLeaves schema).map (MessageLeaf.name · [])).Nodup)
    (hsame : SameWriters t u) (hu : RecordsWritten mem schema u written) (hall : u.AllV1)
    (hopened : OpenedFrom schema records table)
    (hconform : ∀ record ∈ records, Conforms schema record)
    (hstrings : ∀ record ∈ records, StringsFit record) :
    ∃ u' t', CxxM.exec (RecordShredder.addRecords u.schema
        (records.map fun record => (record, schema))) u = (.ok (), u') ∧
      copyTable ops t table = .ok t' ∧ SameWriters t' u' ∧ u'.schema = u.schema ∧
      RecordsWritten mem schema u' (written ++ records) ∧ u'.AllV1 := by
  obtain ⟨u', hexec, hu'⟩ := RecordShredder.addRecords_conforming hdistinct hu hconform
  obtain ⟨hrows, hcopies⟩ := hopened.copies hdistinct hnames hconform hstrings
  obtain ⟨hall', hschema, hself⟩ := addRecords_replay hall hexec
  rw [List.length_map, ← hrows] at hself
  -- the columns of the table make the calls of its records
  have hall₁ : CopiesAll ops table (newCalls u u') t := by
    intro i col hcol
    rw [hsame.columns, hu.own.getElem?_columns] at hcol
    obtain ⟨p, hp, rfl⟩ := Option.map_eq_some_iff.mp hcol
    obtain ⟨m, hm, rfl⟩ := List.mem_map.mp (hu.paths.mem_iff.mp (List.mem_of_getElem? hp))
    obtain ⟨slot, hslot, ⟨w, hw, hencoding⟩, -⟩ := hu.slots m hm i hp
    obtain ⟨cs, hcs, hcopy⟩ := hcopies m hm
    obtain ⟨slot', hslot', hw'⟩ := hsame.getElem? hslot
    refine ⟨slot', w, hslot', hw'.trans hw, ?_⟩
    rw [hencoding, newCalls_eq hdistinct hu hu' hschema hm hp hcs]
    exact hcopy ops
  have hlength : t.column_writers.length = t.columns.length := by
    have hlen := congrArg List.length hsame.writers
    rw [List.length_map, List.length_map] at hlen
    rw [hlen, hsame.columns, hu.own.length]
  obtain ⟨t', hcopied, hsame'⟩ := CSTableWriter.copyTable_spec (hsame.columns ▸ hu.names) hall₁
    hlength
  have hdirect := hsame.replay table.numRecords (newCalls u u')
  rw [hself] at hdirect
  exact ⟨u', t', hexec, hcopied, hsame'.trans hdirect, hschema, hu', hall'⟩

/-- One table after the other, by induction on the tables. The records of all of them are in the
columns, in their order. -/
theorem mergeTables_records (ops : FloatOps) {mem : Uninit} {schema : MessageSchema}
    (hdistinct : AtEveryLevel DistinctFields schema)
    (hnames : ((messageLeaves schema).map (MessageLeaf.name · [])).Nodup)
    {lists : List (List MessageObject)} {tables : List CSTableReader}
    (hopened : List.Forall₂ (OpenedFrom schema) lists tables)
    (hconform : ∀ records ∈ lists, ∀ record ∈ records, Conforms schema record)
    (hstrings : ∀ records ∈ lists, ∀ record ∈ records, StringsFit record) :
    ∀ {t u : CSTableWriter} {written : List MessageObject}, SameWriters t u →
      RecordsWritten mem schema u written → u.AllV1 →
      ∃ u' t', CxxM.exec (RecordShredder.addRecords u.schema
          (lists.flatten.map fun record => (record, schema))) u = (.ok (), u') ∧
        mergeTables ops tables t = .ok t' ∧ SameWriters t' u' := by
  induction hopened with
  | nil => exact fun hsame _ _ => ⟨_, _, rfl, rfl, hsame⟩
  | @cons records table lists tables htable _ ih =>
    intro t u written hsame hu hall
    obtain ⟨u₁, t₁, hexec, hcopy, hsame₁, hschema, hu₁, hall₁⟩ := copyTable_records ops hdistinct
      hnames hsame hu hall htable (hconform records List.mem_cons_self)
      (hstrings records List.mem_cons_self)
    obtain ⟨u', t', hrest, hmerge, hsame'⟩ := ih
      (fun records' h => hconform records' (List.mem_cons_of_mem records h))
      (fun records' h => hstrings records' (List.mem_cons_of_mem records h)) hsame₁ hu₁ hall₁
    rw [hschema] at hrest
    refine ⟨u', t', ?_, ?_, hsame'⟩
    · rw [List.flatten_cons, List.map_append, exec_addRecords_append hexec]
      exact hrest
    · unfold mergeTables at hmerge ⊢
      rw [List.foldlM_cons, hcopy]
      exact hmerge

/-- Tables that were opened from files of records of one schema, in whatever order the
columns are in each, are merged to the file of a table to which all records were added
directly. The two tables are created and committed at different times, so that memory holds
different things. -/
theorem mergedFile (ops : FloatOps) {mem mem' : Uninit} {order order' : HashOrder}
    {schema : MessageSchema} {t t₂ : CSTableWriter} {lists : List (List MessageObject)}
    {tables : List CSTableReader} (hdistinct : AtEveryLevel DistinctFields schema)
    (hnames : ((messageLeaves schema).map (MessageLeaf.name · [])).Nodup)
    (hdoubles : NoDoubles schema)
    (hcreate : CSTableWriter.createFile mem order' .v0_1_0 (fromProtobuf order schema) = .ok t)
    (hcreate₂ : CSTableWriter.createFile mem' order' .v0_1_0 (fromProtobuf order schema) = .ok t₂)
    (hopened : List.Forall₂ (OpenedFrom schema) lists tables)
    (hconform : ∀ records ∈ lists, ∀ record ∈ records, Conforms schema record)
    (hstrings : ∀ records ∈ lists, ∀ record ∈ records, StringsFit record) :
    ∃ u t', CxxM.exec (RecordShredder.addRecords t.schema
          (lists.flatten.map fun record => (record, schema))) t = (.ok (), u) ∧
      mergeTables ops tables t₂ = .ok t' ∧
      ∀ u', u.commit mem = .ok u' → ∃ t'', t'.commit mem' = .ok t'' ∧
        contents t''.file = contents u'.file := by
  have hall : ∀ record ∈ lists.flatten, Conforms schema record := by
    intro record hrecord
    obtain ⟨records, hrecords, hmem⟩ := List.mem_flatten.mp hrecord
    exact hconform records hrecords record hmem
  obtain ⟨u, hexec, -⟩ := exists_recordTable hdistinct hnames hcreate hall
  obtain ⟨u₂, hexec₂, -, hversion₂, -⟩ := exists_recordTable hdistinct hnames hcreate₂ hall
  obtain ⟨v, t', hexec', hmerge, hsame⟩ := mergeTables_records ops hdistinct hnames hopened hconform
    hstrings (⟨rfl, rfl, rfl, rfl, rfl⟩ : SameWriters t₂ t₂)
    (RecordShredder.recordsWritten_createFile hnames hcreate₂)
    (CSTableWriter.createFile_replayed hcreate₂).allV1
  obtain rfl : u₂ = v := (Prod.mk.inj (hexec₂.symm.trans hexec')).2
  refine ⟨u, t', hexec, hmerge, fun u' hcommit => ?_⟩
  obtain ⟨v', hv', hfile⟩ := commit_records hdistinct hnames hdoubles hcreate hcreate₂ hall hexec
    hexec₂ hcommit
  obtain ⟨t'', hcommit', hfile'⟩ := hsame.symm.commit hversion₂ hv'
  exact ⟨t'', hcommit', (congrArg contents hfile').trans hfile⟩

/-- The table of the sample, opened. -/
theorem exists_openedSample {records : List MessageObject}
    (h : records = sampleRecords ∨ records = swappedRecords) :
    ∃ table, OpenedFrom sampleSchema records table := by
  obtain ⟨t, t', t'', ht, hexec, hcommit⟩ := sampleFile (Or.inl rfl) h
  have hconform : ∀ record ∈ records, Conforms sampleSchema record := by
    rcases h with rfl | rfl
    · exact sampleRecords_conform
    · exact swappedRecords_conform
  have hstrings : ∀ record ∈ records, StringsFit record := by
    rcases h with rfl | rfl
    · exact sampleRecords_strings
    · exact swappedRecords_strings
  obtain ⟨u, hexec', -, hfile⟩ := exists_recordFile v1.noFloats
    zeroUninit sampleSchema_distinct (by decide) ht hconform hstrings
  obtain rfl : t' = u := (Prod.mk.inj (hexec.symm.trans hexec')).2
  obtain ⟨table, hopen, -⟩ := hfile t'' hcommit
  exact ⟨table, .file _ _ _ _ t t' t'' ht hexec hcommit hopen⟩

/-- The table of the sample, merged with the one of its other order, and committed where memory
holds something else. -/
theorem mergedFile_sample :
    let mem : Uninit := zeroUninit
    let mem' : Uninit := oneUninit
    let order : HashOrder := ⟨id, fun _ => .refl _⟩
    ∃ table table' t t₂ u u' t' t'', OpenedFrom sampleSchema sampleRecords table ∧
      OpenedFrom sampleSchema swappedRecords table' ∧
      CSTableWriter.createFile mem order .v0_1_0 (fromProtobuf order sampleSchema) = .ok t ∧
      CSTableWriter.createFile mem' order .v0_1_0 (fromProtobuf order sampleSchema) = .ok t₂ ∧
      CxxM.exec (RecordShredder.addRecords t.schema
        ((sampleRecords ++ swappedRecords).map fun record => (record, sampleSchema))) t =
          (.ok (), u) ∧
      mergeTables v1.noFloats [table, table'] t₂ = .ok t' ∧ u.commit mem = .ok u' ∧
      t'.commit mem' = .ok t'' ∧ contents t''.file = contents u'.file := by
  intro mem mem' order
  obtain ⟨table, htable⟩ := exists_openedSample (Or.inl rfl)
  obtain ⟨table', htable'⟩ := exists_openedSample (Or.inr rfl)
  obtain ⟨t, ht⟩ : ∃ t, CSTableWriter.createFile mem order .v0_1_0
      (fromProtobuf order sampleSchema) = .ok t := ⟨_, rfl⟩
  obtain ⟨t₂, ht₂⟩ : ∃ t₂, CSTableWriter.createFile mem' order .v0_1_0
      (fromProtobuf order sampleSchema) = .ok t₂ := ⟨_, rfl⟩
  have hlists : ∀ records ∈ [sampleRecords, swappedRecords],
      records = sampleRecords ∨ records = swappedRecords := by
    intro records h
    simpa only [List.mem_cons, List.not_mem_nil, or_false] using h
  obtain ⟨u, t', hexec, hmerge, hcommit⟩ := mergedFile v1.noFloats sampleSchema_distinct (by decide)
    sampleSchema_noDoubles ht ht₂ (.cons htable (.cons htable' .nil))
    (fun records hrecords => by
      rcases hlists records hrecords with rfl | rfl
      · exact sampleRecords_conform
      · exact swappedRecords_conform)
    (fun records hrecords => by
      rcases hlists records hrecords with rfl | rfl
      · exact sampleRecords_strings
      · exact swappedRecords_strings)
  rw [List.flatten_cons, List.flatten_cons, List.flatten_nil, List.append_nil] at hexec
  obtain ⟨u', hu'⟩ : ∃ u', u.commit mem = .ok u' := by
    obtain rfl : (CxxM.exec (RecordShredder.addRecords t.schema
        ((sampleRecords ++ swappedRecords).map fun record => (record, sampleSchema))) t).2 = u :=
      congrArg Prod.snd hexec
    cases ht
    exact Result.exists_eq_ok (by decide +kernel)
  obtain ⟨t'', ht'', hfile⟩ := hcommit u' hu'
  exact ⟨table, table', t, t₂, u, u', t', t'', htable, htable', ht, ht₂, hexec, hmerge, hu', ht'',
    hfile⟩

end RecordMaterializer

end CStable
