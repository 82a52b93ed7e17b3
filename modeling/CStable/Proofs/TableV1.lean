import CStable.CSTableReader
import CStable.Proofs.HeaderV1
import CStable.Proofs.V1Column
import Mathlib.Data.List.Nodup

/-!
# `CStable.Proofs.TableV1`: writing, committing and opening a v0.1.0 table

From the creation of a table on every column records the entries of the calls
made to it (`Recorded`, kept by each operation). The commit lays the bodies out
behind the header (`Proofs.CommitV1`), and a column reader over its region of the
file finds what the column had recorded (`openColumnV1_ok`).
-/

set_option autoImplicit false

namespace CStable

open Support

/-- A loop over a list succeeds when every round does. -/
theorem Result.mapM_ok {α β : Type} {f : α → Result β} {P : α → β → Prop} {xs : List α}
    (h : ∀ x ∈ xs, ∃ y, f x = .ok y ∧ P x y) : ∃ ys, xs.mapM f = .ok ys ∧ List.Forall₂ P xs ys := by
  induction xs with
  | nil => exact ⟨[], rfl, .nil⟩
  | cons x xs ih =>
    obtain ⟨y, hy, hP⟩ := h x List.mem_cons_self
    obtain ⟨ys, hys, hall⟩ := ih fun x' hx' => h x' (List.mem_cons_of_mem x hx')
    refine ⟨y :: ys, ?_, .cons hP hall⟩
    rw [List.mapM_cons, hy, Result.ok_bind, hys]
    rfl

namespace CSTableWriter

/-! ### Entries -/

/-- The entry a call leaves in a column: none if the call is not one for the
column. -/
def columnEntry (col : ColumnConfig) (c : WriteCall) : Option v1.Entry :=
  (ColumnEncoding.ofCode? col.storage_type).bind fun encoding =>
    v1.entryOf encoding col.rlevel_max col.dlevel_max c

/-- The entry an operation leaves in a column. -/
def writtenEntry (col : ColumnConfig) : TableOp → Option v1.Entry
  | .write name c => if name = col.column_name then columnEntry col c else none
  | .addRow => none
  | .addRows _ => none

/-- The entries a run writes to a column. -/
def entriesOf (col : ColumnConfig) (ops : List TableOp) : List v1.Entry :=
  ops.filterMap (writtenEntry col)

/-- The rows a run adds. -/
def rowsAdded : List TableOp → UInt64
  | [] => 0
  | .addRow :: ops => 1 + rowsAdded ops
  | .addRows num_rows :: ops => num_rows + rowsAdded ops
  | .write _ _ :: ops => rowsAdded ops

/-- Every write is a call of the class of its column, with levels and a value
in its range. -/
def ValidOps (columns : List ColumnConfig) (ops : List TableOp) : Prop :=
  ∀ name c, .write name c ∈ ops →
    ∃ col ∈ columns, col.column_name = name ∧ (columnEntry col c).isSome

/-! ### The state of the columns -/

/-- A column that has recorded the entries. -/
def RecordsSlot (col : ColumnConfig) (slot : ColumnSlot) (entries : List v1.Entry) : Prop :=
  ∃ w, slot.writer = .v1 w ∧ w.r_max = col.rlevel_max ∧ w.d_max = col.dlevel_max ∧
    ColumnEncoding.ofCode? col.storage_type = some w.data_writer.encoding ∧
    w.data_writer.DefaultMax ∧ w.Records entries

/-- A v0.1.0 table with nothing written to its file whose columns have recorded
the entries. -/
structure Recorded (t : CSTableWriter) (entries : ColumnConfig → List v1.Entry) : Prop where
  version : t.version = .v0_1_0
  file : t.file = []
  length : t.column_writers.length = t.columns.length
  slots : ∀ (i : Nat) (col : ColumnConfig), t.columns[i]? = some col →
    ∃ slot, t.column_writers[i]? = some slot ∧ RecordsSlot col slot (entries col)

/-- The writer of a column is found by its name. -/
theorem getColumnWriter_eq {t : CSTableWriter} {col : ColumnConfig}
    (hnames : (t.columns.map ColumnConfig.column_name).Nodup) (hcol : col ∈ t.columns) :
    ∃ i, t.getColumnWriter col.column_name = .ok i ∧ t.columns[i]? = some col ∧
      ∀ (j : Nat) (c : ColumnConfig), t.columns[j]? = some c →
        c.column_name = col.column_name → j = i := by
  have hunique : ∀ (i j : Nat) (c d : ColumnConfig), t.columns[i]? = some c →
      t.columns[j]? = some d → c.column_name = d.column_name → i = j := by
    intro i j c d hi hj heq
    have hil : i < (t.columns.map ColumnConfig.column_name).length := by
      rw [List.length_map]
      exact (List.getElem?_eq_some_iff.mp hi).1
    refine (List.getElem?_inj hil hnames).mp ?_
    rw [List.getElem?_map, List.getElem?_map, hi, hj, Option.map_some, Option.map_some, heq]
  obtain ⟨k, hk⟩ := List.mem_iff_getElem?.mp hcol
  obtain ⟨hkl, hkc⟩ := List.getElem?_eq_some_iff.mp hk
  have hfind : t.columns.findIdx? (fun c => c.column_name == col.column_name) = some k := by
    refine List.findIdx?_eq_some_iff_getElem.mpr ⟨hkl, ?_, fun j hj => ?_⟩
    · rw [hkc]
      exact beq_self_eq_true _
    · have hjl : j < t.columns.length := Nat.lt_trans hj hkl
      rw [beq_eq_false_iff_ne.mpr]
      · exact Bool.false_ne_true
      · intro heq
        have hjk := hunique j k _ col (List.getElem?_eq_getElem hjl) hk heq
        omega
  refine ⟨k, ?_, hk, fun j c hj heq => hunique j k c col hj hk heq⟩
  unfold getColumnWriter
  rw [hfind]

/-! ### Creation -/

/-- Opening the columns of a version 0.1.0 table makes one writer for each, of the class its
config names, and touches no page. -/
theorem openColumns_v1_spec {columns : List ColumnConfig} {s s' : PageStore}
    {slots : List ColumnSlot} (h : openColumns .v0_1_0 s columns = .ok (slots, s')) :
    s' = s ∧ List.Forall₂ (fun c slot => ∃ encoding, ColumnEncoding.ofCode? c.storage_type =
      some encoding ∧ slot = ⟨.v1 (v1.ColumnWriter.new c.rlevel_max c.dlevel_max
        (v1.ColumnWriter.newDataWriter encoding c.logical_type)), []⟩) columns slots := by
  induction columns generalizing slots with
  | nil =>
    cases h
    exact ⟨rfl, .nil⟩
  | cons c cs ih =>
    obtain ⟨w, hcol, h₁⟩ := Result.bind_eq_ok.mp h
    obtain ⟨⟨writers, s₂⟩, hrest, hret⟩ := Result.bind_eq_ok.mp
      ((Result.ok_bind _ _).symm.trans h₁)
    cases hret
    obtain ⟨rfl, hall⟩ := ih hrest
    unfold openColumnV1 at hcol
    split at hcol
    · next encoding henc =>
      cases hcol
      exact ⟨rfl, .cons ⟨encoding, henc, rfl⟩ hall⟩
    · cases hcol

/-- A new v0.1.0 table has recorded nothing. -/
theorem new_v1_spec {schema : TableSchema} {columns : List ColumnConfig} {t : CSTableWriter}
    (h : new .v0_1_0 schema (PageManager.new .v0_1_0 [] 0) columns = .ok t)
    (hr : ∀ c ∈ columns, c.rlevel_max < 2 ^ 32) (hd : ∀ c ∈ columns, c.dlevel_max < 2 ^ 32) :
    t.columns = columns ∧ t.num_rows = 0 ∧ t.Recorded fun _ => [] := by
  obtain ⟨⟨writers, pages⟩, hopen, hret⟩ := Result.bind_eq_ok.mp h
  cases hret
  obtain ⟨rfl, hall⟩ := openColumns_v1_spec hopen
  refine ⟨rfl, rfl, rfl, rfl, hall.length_eq.symm, fun i c hi => ?_⟩
  obtain ⟨hil, hic⟩ := List.getElem?_eq_some_iff.mp hi
  have hmem : c ∈ columns := List.mem_iff_getElem?.mpr ⟨i, hi⟩
  have hwl : i < writers.length := hall.length_eq ▸ hil
  obtain ⟨encoding, henc, hslot⟩ := List.forall₂_iff_get.mp hall |>.2 i hil hwl
  refine ⟨writers[i], List.getElem?_eq_getElem hwl, ?_⟩
  rw [List.get_eq_getElem, hic] at henc
  rw [List.get_eq_getElem, List.get_eq_getElem, hic] at hslot
  rw [hslot]
  refine ⟨_, rfl, rfl, rfl, ?_, v1.DataWriter.defaultMax_new encoding c.logical_type,
    v1.ColumnWriter.records_new (hr c hmem) (hd c hmem) encoding _⟩
  rw [henc]
  exact congrArg some (v1.DataWriter.encoding_new encoding c.logical_type).symm

/-! ### Operations -/

/-- A write that passes on what a valid one does is accepted and recorded in its
column, and nowhere else. -/
theorem Recorded.write {t : CSTableWriter} {entries : ColumnConfig → List v1.Entry}
    (h : t.Recorded entries) (hnames : (t.columns.map ColumnConfig.column_name).Nodup)
    (hr : ∀ c ∈ t.columns, c.rlevel_max < 2 ^ 32) (hd : ∀ c ∈ t.columns, c.dlevel_max < 2 ^ 32)
    {col : ColumnConfig} (hcol : col ∈ t.columns) {c₀ c : WriteCall} (hsame : v1.SameBytes c₀ c)
    (hentry : (columnEntry col c).isSome) :
    ∃ t', CxxM.exec (apply (.write col.column_name c₀)) t = (.ok (), t') ∧
      t'.columns = t.columns ∧ t'.num_rows = t.num_rows ∧
      t'.Recorded fun col' => entries col' ++ entriesOf col' [.write col.column_name c] := by
  obtain ⟨e, he⟩ := Option.isSome_iff_exists.mp hentry
  obtain ⟨encoding, henc, hentry⟩ := Option.bind_eq_some_iff.mp he
  obtain ⟨i, hget, hi, hunique⟩ := getColumnWriter_eq hnames hcol
  obtain ⟨slot, hslot, w, hw, hrm, hdm, hencw, hmax, hrec⟩ := h.slots i col hi
  rw [henc] at hencw
  have hencw' : encoding = w.data_writer.encoding := Option.some.inj hencw
  obtain ⟨w', hcall, hrec', hrm', hdm', henc', hmax'⟩ := hrec.call (hrm ▸ hr col hcol)
    (hdm ▸ hd col hcol) hmax (by rw [← hencw', hrm, hdm]; exact hentry)
  refine ⟨{ t with column_writers := t.column_writers.set i ⟨.v1 w', slot.history ++ [c₀]⟩ },
    ?_, rfl, rfl, ⟨h.version, h.file, ?_, fun j col' hj => ?_⟩⟩
  · rw [exec_apply_write, hget]
    dsimp only
    unfold CxxM.exec writeColumn CSTableWriter.slot
    rw [hslot]
    dsimp only
    rw [hw]
    dsimp only
    rw [hsame.call_eq, hcall]
  · rw [List.length_set]
    exact h.length
  · have hil : i < t.column_writers.length := (List.getElem?_eq_some_iff.mp hslot).1
    -- the column the call goes to gains its entry; the others keep theirs
    by_cases hij : i = j
    · subst hij
      rw [hi] at hj
      cases hj
      refine ⟨_, List.getElem?_set_self hil, w', rfl, hrm'.trans hrm, hdm'.trans hdm, ?_, hmax',
        ?_⟩
      · rw [henc, hencw', henc']
      · have hwritten : entriesOf col [.write col.column_name c] = [e] :=
          List.filterMap_cons_some ((if_pos rfl).trans he)
        rw [hwritten]
        exact hrec'
    · obtain ⟨slot', hslot', hrec''⟩ := h.slots j col' hj
      refine ⟨slot', by rw [List.getElem?_set_ne hij, hslot'], ?_⟩
      have hne : col.column_name ≠ col'.column_name := fun heq =>
        hij (hunique j col' hj heq.symm).symm
      have hnone : entriesOf col' [.write col.column_name c] = [] :=
        List.filterMap_cons_none (if_neg hne)
      rw [hnone, List.append_nil]
      exact hrec''

/-- A run of valid operations: every operation succeeds, the rows are counted and
the entries recorded. -/
theorem Recorded.after {t : CSTableWriter} {entries : ColumnConfig → List v1.Entry}
    {ops : List TableOp} (h : t.Recorded entries)
    (hnames : (t.columns.map ColumnConfig.column_name).Nodup)
    (hr : ∀ c ∈ t.columns, c.rlevel_max < 2 ^ 32) (hd : ∀ c ∈ t.columns, c.dlevel_max < 2 ^ 32)
    (hvalid : ValidOps t.columns ops) :
    (t.after ops).columns = t.columns ∧ (t.after ops).num_rows = t.num_rows + rowsAdded ops ∧
      (t.after ops).Recorded fun col => entries col ++ entriesOf col ops := by
  induction ops generalizing t entries with
  | nil =>
    refine ⟨rfl, (UInt64.add_zero _).symm, ?_⟩
    have hnil : (fun col => entries col ++ entriesOf col []) = entries :=
      funext fun col => List.append_nil _
    rw [hnil]
    exact h
  | cons op ops ih =>
    have htail : ValidOps t.columns ops := fun name c hmem =>
      hvalid name c (List.mem_cons_of_mem op hmem)
    have hcons : (fun col => (entries col ++ entriesOf col [op]) ++ entriesOf col ops) =
        fun col => entries col ++ entriesOf col (op :: ops) := by
      funext col
      rw [List.append_assoc]
      exact congrArg (entries col ++ ·) (List.filterMap_append (l := [op])).symm
    -- the row total is no part of `Recorded`, so only a write changes the streams
    cases op with
    | addRow =>
      have hadd : t.addRow.Recorded entries := ⟨h.version, h.file, h.length, h.slots⟩
      obtain ⟨hcols, hrows, hrec⟩ := ih hadd hnames hr hd htail
      refine ⟨hcols, hrows.trans ?_, hrec⟩
      exact UInt64.add_assoc _ _ _
    | addRows num_rows =>
      have hadd : (t.addRows num_rows).Recorded entries := ⟨h.version, h.file, h.length, h.slots⟩
      obtain ⟨hcols, hrows, hrec⟩ := ih hadd hnames hr hd htail
      refine ⟨hcols, hrows.trans ?_, hrec⟩
      exact UInt64.add_assoc _ _ _
    | write name c =>
      obtain ⟨col, hcol, rfl, hentry⟩ := hvalid name c List.mem_cons_self
      obtain ⟨t', hexec, hcols', hrows', hrec'⟩ := h.write hnames hr hd hcol (.refl c) hentry
      have hafter : t.after (.write col.column_name c :: ops) = t'.after ops := by
        show (CxxM.exec (apply (.write col.column_name c)) t).2.after ops = _
        rw [hexec]
      obtain ⟨hcols, hrows, hrec⟩ := ih hrec' (hcols' ▸ hnames) (hcols' ▸ hr) (hcols' ▸ hd)
        (hcols' ▸ htail)
      rw [hafter]
      refine ⟨hcols.trans hcols', ?_, hcons ▸ hrec⟩
      rw [hrows, hrows']
      rfl

/-! ### Opening the columns -/

/-- A column writer that has recorded the entries of its column. -/
def RecordsColumn (col : ColumnConfig) (w : v1.ColumnWriter) (entries : List v1.Entry) : Prop :=
  w.r_max = col.rlevel_max ∧ w.d_max = col.dlevel_max ∧
    ColumnEncoding.ofCode? col.storage_type = some w.data_writer.encoding ∧
    w.data_writer.DefaultMax ∧ w.Records entries

/-- The column writers of the slots, in order. -/
theorem exists_writers {entries : ColumnConfig → List v1.Entry} {columns : List ColumnConfig}
    {slots : List ColumnSlot} (hlen : slots.length = columns.length)
    (hslots : ∀ (i : Nat) (col : ColumnConfig), columns[i]? = some col →
      ∃ slot, slots[i]? = some slot ∧ RecordsSlot col slot (entries col)) :
    ∃ ws : List v1.ColumnWriter, slots.map ColumnSlot.writer = ws.map .v1 ∧
      List.Forall₂ (fun col w => RecordsColumn col w (entries col)) columns ws := by
  induction columns generalizing slots with
  | nil =>
    rw [List.length_nil] at hlen
    rw [List.eq_nil_of_length_eq_zero hlen]
    exact ⟨[], rfl, .nil⟩
  | cons col columns ih =>
    cases slots with
    | nil => cases hlen
    | cons slot slots =>
      obtain ⟨slot', hslot', w, hw, hrm, hdm, henc, hmax, hrec⟩ := hslots 0 col rfl
      cases hslot'
      obtain ⟨ws, hws, hall⟩ := ih (Nat.succ.inj hlen) fun i c hc => hslots (i + 1) c hc
      refine ⟨w :: ws, ?_, .cons ⟨hrm, hdm, henc, hmax, hrec⟩ hall⟩
      rw [List.map_cons, List.map_cons, hw, hws]

/-- A table that has recorded entries has its column writers, each with the entries of its
column. -/
theorem Recorded.writers {t : CSTableWriter} {entries : ColumnConfig → List v1.Entry}
    (h : t.Recorded entries) : ∃ ws, t.WritersV1 ws ∧
      List.Forall₂ (fun col w => RecordsColumn col w (entries col)) t.columns ws :=
  exists_writers h.length h.slots

/-- A placed column comes from a column of the table and its writer. -/
theorem exists_of_placed {t : CSTableWriter} {ws : List v1.ColumnWriter}
    {entries : ColumnConfig → List v1.Entry}
    (hall : List.Forall₂ (fun col w => RecordsColumn col w (entries col)) t.columns ws)
    {p : ColumnConfig × v1.ColumnWriter} (hp : p ∈ t.placedColumns ws) :
    ∃ col ∈ t.columns, ∃ w, RecordsColumn col w (entries col) ∧ p.2 = w.commit ∧
      p.1 = { col with body_offset := p.1.body_offset, body_size := w.commit.bodySize } := by
  obtain ⟨⟨col, w⟩, hcw, hcol, hw⟩ := exists_of_mem_right (placedColumns_spec t ws) hp
  exact ⟨col, (List.of_mem_zip hcw).1, w, List.forall₂_zip hall hcw, hw, hcol⟩

/-- A reader over the region of a placed column delivers the recorded entries. -/
theorem openColumnV1_ok (mem : Uninit) {mmap : Mapping} {col : ColumnConfig}
    {w : v1.ColumnWriter} {entries : List v1.Entry} {p : ColumnConfig × v1.ColumnWriter}
    (hrec : RecordsColumn col w entries) (hr : col.rlevel_max < 2 ^ 32)
    (hd : col.dlevel_max < 2 ^ 32) (hcount : entries.length < 2 ^ 64) (hw : p.2 = w.commit)
    (hcol : p.1 = { col with body_offset := p.1.body_offset, body_size := w.commit.bodySize })
    (hmem : HoldsAt mmap p.1.body_offset p.2.body) (hsize : p.1.body_size < 2 ^ 64) :
    ∃ r, CSTableReader.openColumnV1 mmap (v0_1_0.stored mem p.1) = .ok r ∧
      r.ReadsExactly mmap entries := by
  obtain ⟨hrm, hdm, henc, -, hrecords⟩ := hrec
  have hbody : p.1.body_size = w.commit.bodySize := by rw [hcol]
  rw [hw] at hmem
  rw [hbody] at hsize
  obtain ⟨r, hnew, hdelivers⟩ := hrecords.delivers (hrm.symm ▸ hr) (hdm.symm ▸ hd) hcount hmem hsize
  refine ⟨r, ?_, hdelivers.readsExactly⟩
  have hstorage : (v0_1_0.stored mem p.1).storage_type = col.storage_type := by
    rw [hcol]
    rfl
  have hrlevel : (v0_1_0.stored mem p.1).rlevel_max = w.r_max := by
    rw [hcol, hrm]
    rfl
  have hdlevel : (v0_1_0.stored mem p.1).dlevel_max = w.d_max := by
    rw [hcol, hdm]
    rfl
  have hbody' : (v0_1_0.stored mem p.1).body_size = w.commit.bodySize := hbody
  unfold CSTableReader.openColumnV1
  rw [hstorage, henc, hrlevel, hdlevel, hbody']
  exact hnew

end CSTableWriter

end CStable
