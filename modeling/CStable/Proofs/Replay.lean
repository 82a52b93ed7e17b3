import CStable.Proofs.ShreddedTable
import CStable.Proofs.DistinctColumns

/-!
# `CStable.Proofs.Replay`: a v0.1.0 table is what was written to each of its columns

The columns of a v0.1.0 table share nothing: each has level streams and data of its own,
and the file is not touched before the commit. So the state of a table is that of its
columns, each of which has taken its own calls in their order (`after_eq`).

* `after_congr`: the order in which different columns are written makes no difference.
* `Replayed`: every column is where its history takes a new writer, in every table a
  program can have.
-/

set_option autoImplicit false

namespace CStable

namespace v1.ColumnWriter

/-- A run of calls is its first call and the run of the others on the writer that it left. A
call that raises leaves the writer as it was. -/
theorem callAll_cons (w : ColumnWriter) (c : WriteCall) (cs : List WriteCall) :
    w.callAll (c :: cs) = ((((w.callAll [c]).1).callAll cs).1,
      (w.callAll [c]).2 ++ (((w.callAll [c]).1).callAll cs).2) := by
  rw [callAll, callAll]
  cases w.call c with
  | ok w' => rfl
  | error e => rfl

/-- Calls some of which may raise, one list after the other. What is accepted of the second list
is accepted by the writer the first one left. -/
theorem callAll_append (w : ColumnWriter) (xs ys : List WriteCall) :
    w.callAll (xs ++ ys) = ((((w.callAll xs).1).callAll ys).1,
      (w.callAll xs).2 ++ (((w.callAll xs).1).callAll ys).2) := by
  induction xs generalizing w with
  | nil => rfl
  | cons x xs ih => rw [List.cons_append, callAll_cons, ih, callAll_cons w x xs, List.append_assoc]

/-- Without the calls that raise the writer ends in the same state, since a call that raises
changes nothing. -/
theorem callAll_accepted (w : ColumnWriter) (cs : List WriteCall) :
    w.callAll (w.callAll cs).2 = w.callAll cs := by
  induction cs generalizing w with
  | nil => rfl
  | cons c cs ih =>
    rw [callAll]
    cases hcall : w.call c with
    | ok w' =>
      dsimp only
      rw [callAll, hcall]
      dsimp only
      rw [ih]
    | error e => exact ih w

end v1.ColumnWriter

namespace ColumnSlot

/-- The column after calls by a caller that catches exceptions. Only a column of v0.1.0
keeps to itself: calls on one of v0.2.0 write to the pages of the table. -/
def replay (slot : ColumnSlot) (calls : List WriteCall) : ColumnSlot :=
  match slot.writer with
  | .v1 w => ⟨.v1 (w.callAll calls).1, slot.history ++ (w.callAll calls).2⟩
  | .v2 _ => slot

/-- The column is one of v0.1.0. -/
def IsV1 (slot : ColumnSlot) : Prop := ∃ w, slot.writer = .v1 w

/-- No calls leave a column as it is. -/
theorem replay_nil {slot : ColumnSlot} : slot.replay [] = slot := by
  obtain ⟨writer, history⟩ := slot
  cases writer with
  | v1 w => simp [replay, v1.ColumnWriter.callAll]
  | v2 w => rfl

/-- Two lists of calls, one after the other. A column sees only its own calls, so this is all
the order there is. -/
theorem replay_append (slot : ColumnSlot) (xs ys : List WriteCall) :
    slot.replay (xs ++ ys) = (slot.replay xs).replay ys := by
  obtain ⟨writer, history⟩ := slot
  cases writer with
  | v1 w => simp [replay, v1.ColumnWriter.callAll_append]
  | v2 w => rfl

/-- Calls do not change the version of a column writer. -/
theorem IsV1.replay {slot : ColumnSlot} (h : slot.IsV1) (calls : List WriteCall) :
    (slot.replay calls).IsV1 := by
  obtain ⟨w, hw⟩ := h
  unfold ColumnSlot.replay
  rw [hw]
  exact ⟨_, rfl⟩

/-- The history of a column grows by the calls that were accepted. It is not part of the source:
the proofs keep it to say what was written. -/
theorem replay_history {slot : ColumnSlot} {w : v1.ColumnWriter} (hw : slot.writer = .v1 w)
    (calls : List WriteCall) :
    (slot.replay calls).history = slot.history ++ (w.callAll calls).2 := by
  unfold replay
  rw [hw]

/-- The calls that raise leave nothing behind, so that a column is where its history takes
it. -/
theorem replay_accepted {slot : ColumnSlot} {w : v1.ColumnWriter} (hw : slot.writer = .v1 w)
    (calls : List WriteCall) : slot.replay (w.callAll calls).2 = slot.replay calls := by
  unfold replay
  rw [hw]
  dsimp only
  rw [v1.ColumnWriter.callAll_accepted]

end ColumnSlot

namespace CSTableWriter

/-! ### Operations on a table of v0.1.0 -/

/-- The call an operation makes on the column of a name. -/
def TableOp.callTo (name : Bytes) : TableOp → Option WriteCall
  | .write column c => if column = name then some c else none
  | _ => none

/-- The calls operations make on the column of a name. -/
def callsTo (name : Bytes) (ops : List TableOp) : List WriteCall :=
  ops.filterMap (TableOp.callTo name)

/-- The call an operation makes on the column at a position. -/
def TableOp.callOn (t : CSTableWriter) (i : Nat) : TableOp → Option WriteCall
  | .write column c => if t.getColumnWriter column = .ok i then some c else none
  | _ => none

/-- The calls operations make on the column at a position. -/
def callsOn (t : CSTableWriter) (ops : List TableOp) (i : Nat) : List WriteCall :=
  ops.filterMap (TableOp.callOn t i)

/-- The table with rows added and the calls made on its columns. -/
def replay (t : CSTableWriter) (rows : UInt64) (calls : Nat → List WriteCall) : CSTableWriter :=
  { t with
    num_rows := t.num_rows + rows
    column_writers := t.column_writers.mapIdx fun i slot => slot.replay (calls i) }

/-- All columns of the table are columns of v0.1.0. -/
def AllV1 (t : CSTableWriter) : Prop := ∀ slot ∈ t.column_writers, slot.IsV1

/-- No calls on any column leave the columns as they are. -/
theorem mapIdx_replay_nil (slots : List ColumnSlot) :
    (slots.mapIdx fun _ slot => slot.replay []) = slots := by
  refine List.ext_getElem? fun i => ?_
  rw [List.getElem?_mapIdx]
  cases slots[i]? with
  | none => rfl
  | some slot => exact congrArg some slot.replay_nil

/-- Without calls only the number of rows changes. -/
theorem replay_rows (t : CSTableWriter) (rows : UInt64) :
    t.replay rows (fun _ => []) = t.addRows rows := by
  unfold replay addRows
  rw [mapIdx_replay_nil]

/-- Two steps of a table, one after the other: the rows add up and each column takes its calls
in order. -/
theorem replay_replay (t : CSTableWriter) (rows rows' : UInt64)
    (calls calls' : Nat → List WriteCall) :
    (t.replay rows calls).replay rows' calls' =
      t.replay (rows + rows') fun i => calls i ++ calls' i := by
  have hslots : ((t.column_writers.mapIdx fun i slot => slot.replay (calls i)).mapIdx
      fun i slot => slot.replay (calls' i)) =
      t.column_writers.mapIdx fun i slot => slot.replay (calls i ++ calls' i) := by
    refine List.ext_getElem? fun i => ?_
    simp only [List.getElem?_mapIdx, Option.map_map]
    refine congrArg (fun f => Option.map f t.column_writers[i]?) (funext fun slot => ?_)
    exact (slot.replay_append (calls i) (calls' i)).symm
  unfold replay
  rw [hslots, UInt64.add_assoc]

/-- Calls keep a table one of v0.1.0. -/
theorem AllV1.replay {t : CSTableWriter} (h : t.AllV1) (rows : UInt64)
    (calls : Nat → List WriteCall) : (t.replay rows calls).AllV1 := by
  intro slot hslot
  obtain ⟨i, hi⟩ := List.mem_iff_getElem?.mp hslot
  obtain ⟨slot', hslot', rfl⟩ := Option.map_eq_some_iff.mp ((List.getElem?_mapIdx ..).symm.trans hi)
  exact (h slot' (List.mem_of_getElem? hslot')).replay (calls i)

/-- Calls on one column change this column only. A write of the table is of this kind. -/
theorem mapIdx_replay_single (slots : List ColumnSlot) (i : Nat) (calls : List WriteCall) :
    (slots.mapIdx fun j slot => slot.replay (if i = j then calls else [])) =
      slots.modify i fun slot => slot.replay calls := by
  refine List.ext_getElem? fun j => ?_
  rw [List.getElem?_mapIdx, List.getElem?_modify]
  by_cases hij : i = j
  · simp only [if_pos hij]
    rfl
  · simp only [if_neg hij, ColumnSlot.replay_nil]
    rfl

/-- A call on a column of v0.1.0 changes this column and nothing else. Where the call raises or
there is no such column, nothing changes at all. -/
theorem writeColumn_eq {t : CSTableWriter} (h : t.AllV1) (i : Nat) (c : WriteCall) :
    (CxxM.exec (writeColumn i c) t).2 = t.replay 0 fun j => if i = j then [c] else [] := by
  unfold replay
  rw [UInt64.add_zero, mapIdx_replay_single]
  unfold CxxM.exec writeColumn CSTableWriter.slot
  cases hslot : t.column_writers[i]? with
  | none =>
    rw [List.modify_eq_self (List.getElem?_eq_none_iff.mp hslot)]
  | some slot =>
    obtain ⟨w, hw⟩ := h slot (List.mem_of_getElem? hslot)
    have hset : ∀ f : ColumnSlot → ColumnSlot,
        t.column_writers.modify i f = t.column_writers.set i (f slot) := fun f => by
      rw [List.modify_eq_set_getElem?, hslot]
      rfl
    dsimp only
    rw [hw, hset]
    dsimp only
    unfold ColumnSlot.replay
    rw [hw]
    dsimp only [v1.ColumnWriter.callAll]
    cases hcall : w.call c with
    | ok w' => rfl
    | error e =>
      have hsame : (⟨.v1 w, slot.history ++ []⟩ : ColumnSlot) = slot := by
        rw [List.append_nil, ← hw]
      have hput : t.column_writers.set i slot = t.column_writers := by
        obtain ⟨hlt, rfl⟩ := List.getElem?_eq_some_iff.mp hslot
        exact List.set_getElem_self hlt
      dsimp only
      rw [hsame, hput]

/-- The calls of a run of operations on a column are those of the first and then those of the
others. -/
theorem callsOn_cons (t : CSTableWriter) (op : TableOp) (ops : List TableOp) :
    callsOn t (op :: ops) = fun i => callsOn t [op] i ++ callsOn t ops i :=
  funext fun _ => List.filterMap_append (l := [op])

/-- An operation on a table of v0.1.0, by a caller that catches exceptions. Each of the three
operations is a number of rows and a list of calls for every column. -/
theorem apply_eq {t : CSTableWriter} (h : t.AllV1) (op : TableOp) :
    (CxxM.exec (apply op) t).2 = t.replay (rowsAdded [op]) (callsOn t [op]) := by
  cases op with
  | addRow =>
    show t.addRow = t.replay (1 + 0) fun _ => []
    rw [replay_rows]
    rfl
  | addRows n =>
    show t.addRows n = t.replay (n + 0) fun _ => []
    rw [replay_rows, UInt64.add_zero]
  | write column c =>
    have hcalls : ∀ i, callsOn t [.write column c] i =
        if t.getColumnWriter column = .ok i then [c] else [] := fun i => by
      by_cases hi : t.getColumnWriter column = .ok i
      · rw [if_pos hi]
        exact List.filterMap_cons_some (if_pos hi)
      · rw [if_neg hi]
        exact List.filterMap_cons_none (if_neg hi)
    rw [exec_apply_write, funext hcalls]
    show _ = t.replay 0 _
    -- a write to a name that no column has raises, and is a call of none
    cases hget : t.getColumnWriter column with
    | error e =>
      have hnone : ∀ i, (if (.error e : Result Nat) = .ok i then [c] else []) = [] := fun i =>
        if_neg fun h => by cases h
      rw [funext hnone, replay_rows]
      exact congrArg (fun n => { t with num_rows := n }) (UInt64.add_zero t.num_rows).symm
    | ok i =>
      have hsome : ∀ j, (if (.ok i : Result Nat) = .ok j then [c] else []) =
          if i = j then [c] else [] := fun j => if_congr ⟨Except.ok.inj, congrArg _⟩ rfl rfl
      rw [funext hsome]
      exact writeColumn_eq h i c

/-- The rows of a run of operations add up. The sum is one of 64 bits, as the counter is. -/
theorem rowsAdded_cons (op : TableOp) (ops : List TableOp) :
    rowsAdded (op :: ops) = rowsAdded [op] + rowsAdded ops := by
  cases op with
  | addRow => simp only [rowsAdded, UInt64.add_zero]
  | addRows n => simp only [rowsAdded, UInt64.add_zero]
  | write column c => simp only [rowsAdded, UInt64.zero_add]

/-- The table after operations: every column has taken its own calls. By induction on the
operations, with the table moving on. -/
theorem after_eq {ops : List TableOp} : ∀ {t : CSTableWriter}, t.AllV1 →
    t.after ops = t.replay (rowsAdded ops) (callsOn t ops) := by
  induction ops with
  | nil =>
    intro t _
    show t = t.replay 0 fun _ => []
    rw [replay_rows]
    exact congrArg (fun n => { t with num_rows := n }) (UInt64.add_zero t.num_rows).symm
  | cons op ops ih =>
    intro t h
    have hcalls : callsOn (CxxM.exec (apply op) t).2 ops = callsOn t ops := by
      rw [apply_eq h]
      rfl
    show (CxxM.exec (apply op) t).2.after ops = _
    rw [ih (apply_eq h op ▸ h.replay _ _), hcalls, apply_eq h, replay_replay, rowsAdded_cons op ops,
      callsOn_cons t op ops]

/-- The calls on the column at a position are those for its name, unless an earlier column
has the name as well. -/
theorem callsOn_eq (t : CSTableWriter) (ops : List TableOp) (i : Nat) :
    (∃ name, t.getColumnWriter name = .ok i ∧ callsOn t ops i = callsTo name ops) ∨
      (∀ name, t.getColumnWriter name ≠ .ok i) ∧ callsOn t ops i = [] := by
  by_cases hfound : ∃ name, t.getColumnWriter name = .ok i
  · obtain ⟨name, hname⟩ := hfound
    refine Or.inl ⟨name, hname, List.filterMap_congr fun op _ => ?_⟩
    cases op with
    | write column c =>
      refine if_congr ⟨fun hcolumn => ?_, fun heq => heq ▸ hname⟩ rfl rfl
      obtain ⟨col, hcol, rfl⟩ := name_of_getColumnWriter hcolumn
      obtain ⟨col', hcol', rfl⟩ := name_of_getColumnWriter hname
      rw [Option.some.inj (hcol.symm.trans hcol')]
    | _ => rfl
  · have hnone : ∀ name, t.getColumnWriter name ≠ .ok i := fun name hname => hfound ⟨name, hname⟩
    refine Or.inr ⟨hnone, List.filterMap_eq_nil_iff.mpr fun op _ => ?_⟩
    cases op with
    | write column c => exact if_neg (hnone column)
    | _ => rfl

/-- Two runs on a table of v0.1.0 that make the same calls on every column, in the same
order, and add the same number of rows leave the same table, whatever the order of calls on
different columns is, and whichever of the calls raise. -/
theorem after_congr {t : CSTableWriter} (h : t.AllV1) {ops ops' : List TableOp}
    (hcalls : ∀ name, callsTo name ops = callsTo name ops')
    (hrows : rowsAdded ops = rowsAdded ops') : t.after ops = t.after ops' := by
  have hcallsOn : callsOn t ops = callsOn t ops' := by
    funext i
    rcases callsOn_eq t ops i with ⟨name, hname, heq⟩ | ⟨hnone, heq⟩
    · rcases callsOn_eq t ops' i with ⟨name', hname', heq'⟩ | ⟨hnone', -⟩
      · obtain ⟨col, hcol, rfl⟩ := name_of_getColumnWriter hname
        obtain ⟨col', hcol', rfl⟩ := name_of_getColumnWriter hname'
        rw [heq, heq', hcalls, Option.some.inj (hcol.symm.trans hcol')]
      · exact absurd hname (hnone' name)
    · rcases callsOn_eq t ops' i with ⟨name', hname', -⟩ | ⟨-, heq'⟩
      · exact absurd hname' (hnone name')
      · rw [heq, heq']
  rw [after_eq h, after_eq h, hrows, hcallsOn]

/-! ### The columns of a table and their histories -/

/-- The column is where its history takes the writer it started with. -/
def ReplaysHistory (col : ColumnConfig) (slot : ColumnSlot) : Prop :=
  ∃ w, openColumnV1 col = .ok w ∧ (⟨.v1 w, []⟩ : ColumnSlot).replay slot.history = slot

/-- A column that is where its history takes it has a writer of v0.1.0. -/
theorem ReplaysHistory.isV1 {col : ColumnConfig} {slot : ColumnSlot} (h : ReplaysHistory col slot) :
    slot.IsV1 := by
  obtain ⟨w, -, hslot⟩ := h
  exact ⟨_, congrArg ColumnSlot.writer hslot.symm⟩

/-- It still is after more calls, which are added to the history as far as they are accepted.
This is the step of the induction on runs. -/
theorem ReplaysHistory.replay {col : ColumnConfig} {slot : ColumnSlot}
    (h : ReplaysHistory col slot) (calls : List WriteCall) :
    ReplaysHistory col (slot.replay calls) := by
  obtain ⟨w', hw'⟩ := h.isV1
  obtain ⟨w, hw, hslot⟩ := h
  refine ⟨w, hw, ?_⟩
  rw [slot.replay_history hw', ColumnSlot.replay_append, hslot, slot.replay_accepted hw']

/-- Nothing is written to the file of a v0.1.0 table before the commit, and every column is
where its history takes a new writer. -/
structure Replayed (t : CSTableWriter) : Prop where
  file : t.file = []
  slots : List.Forall₂ ReplaysHistory t.columns t.column_writers

/-- In such a table all writers are of v0.1.0. -/
theorem Replayed.allV1 {t : CSTableWriter} (h : t.Replayed) : t.AllV1 := by
  intro slot hslot
  obtain ⟨col, -, hcol⟩ := Support.exists_of_mem_right h.slots hslot
  exact hcol.isV1

/-- A step of the table keeps every column where its history takes it. -/
theorem Replayed.replay {t : CSTableWriter} (h : t.Replayed) (rows : UInt64)
    (calls : Nat → List WriteCall) : (t.replay rows calls).Replayed := by
  refine ⟨h.file, List.forall₂_iff_get.mpr
    ⟨h.slots.length_eq.trans List.length_mapIdx.symm, fun i hi hi' => ?_⟩⟩
  have hlt : i < t.column_writers.length := h.slots.length_eq ▸ hi
  have hslot := ((List.forall₂_iff_get.mp h.slots).2 i hi hlt).replay (calls i)
  have hget : (t.replay rows calls).column_writers.get ⟨i, hi'⟩ =
      (t.column_writers.get ⟨i, hlt⟩).replay (calls i) := List.getElem_mapIdx ..
  rw [hget]
  exact hslot

/-- The columns of a new table are new writers with an empty history. The invariant of a run
starts here. -/
theorem createFile_replayed {mem : Uninit} {order : HashOrder} {schema : TableSchema}
    {t : CSTableWriter} (h : createFile mem order .v0_1_0 schema = .ok t) : t.Replayed := by
  obtain ⟨_, hfile, hnew⟩ := Result.bind_eq_ok.mp h
  cases hfile
  obtain ⟨⟨slots, pages⟩, hopen, hret⟩ := Result.bind_eq_ok.mp hnew
  cases hret
  refine ⟨?_, (openColumns_spec hopen).imp fun col slot hslot => ?_⟩
  · obtain ⟨rfl, -⟩ := openColumns_v1_spec hopen
    rfl
  · obtain ⟨w, hw, rfl⟩ := hslot
    exact ⟨w, hw, ColumnSlot.replay_nil⟩

/-- Every way to write to a table keeps the columns where their histories take them: the history
is defined to grow with the accepted calls. -/
theorem keptByWrites_replayed : KeptByWrites fun t => t.version = .v0_1_0 → t.Replayed where
  writeColumn := by
    intro i c t h hv
    have hversion : (CxxM.exec (writeColumn i c) t).2.version = t.version := by
      rcases RecordShredder.exec_writeColumn (i := i) (c := c) (t := t) with h | h
      · exact h.2.version
      · exact h.2.version
    have hreplayed := h (hversion ▸ hv)
    rw [writeColumn_eq hreplayed.allV1]
    exact hreplayed.replay _ _
  addRow := by
    intro t h hv
    have hreplayed : t.Replayed := h hv
    exact ⟨hreplayed.file, hreplayed.slots⟩
  addRows := by
    intro t n h hv
    have hreplayed : t.Replayed := h hv
    exact ⟨hreplayed.file, hreplayed.slots⟩

/-- In every table of v0.1.0 a program can have, the columns are where their histories take
them. -/
theorem Reached.replayed {mem : Uninit} {t : CSTableWriter} (h : Reached mem t)
    (hv : t.version = .v0_1_0) : t.Replayed := by
  refine h.keeps keptByWrites_replayed (fun order version schema t hnew hv => ?_) hv
  have hversion : t.version = version := by
    obtain ⟨_, -, hnew⟩ := Result.bind_eq_ok.mp hnew
    obtain ⟨_, -, hret⟩ := Result.bind_eq_ok.mp hnew
    cases hret
    rfl
  rw [← hversion, hv] at hnew
  exact createFile_replayed hnew

/-- Two runs on a table of v0.1.0 that make the same calls on every column, each column's in
the same order, and add the same number of rows leave the same table. -/
theorem writes_commute {mem : Uninit} {t : CSTableWriter} (h : Reached mem t)
    (hv : t.version = .v0_1_0) {ops ops' : List TableOp}
    (hcalls : ∀ name, callsTo name ops = callsTo name ops')
    (hrows : rowsAdded ops = rowsAdded ops') : t.after ops = t.after ops' :=
  after_congr (h.replayed hv).allV1 hcalls hrows

/-- Two columns row by row, and one after the other; a string does not fit the second and raises
at another place of each run. -/
theorem writes_commute_two_columns :
    let mem : Uninit := zeroUninit
    let string : LeafType := ⟨.STRING, ColumnType.noConfusion⟩
    let number : LeafType := ⟨.UNSIGNED_INT, ColumnType.noConfusion⟩
    let schema : TableSchema := [.leaf [0x61] string .STRING_PLAIN false false,
      .leaf [0x62] number .UINT64_LEB128 false true]
    let a : TableOp := .write [0x61] ⟨0, 0, .string [0x78]⟩
    let b : TableOp := .write [0x62] ⟨0, 1, .unsignedInt 7⟩
    let bad : TableOp := .write [0x62] ⟨0, 1, .string [0x78]⟩
    ∃ t, createFile mem ⟨id, fun _ => .refl _⟩ .v0_1_0 schema = .ok t ∧
      t.after [a, b, .addRow, a, bad, b, .addRow] = t.after [.addRows 2, b, bad, b, a, a] := by
  intro mem string number schema a b bad
  obtain ⟨t, ht⟩ : ∃ t, createFile mem ⟨id, fun _ => .refl _⟩ .v0_1_0 schema = .ok t := ⟨_, rfl⟩
  have hv : t.version = .v0_1_0 := by
    cases ht
    rfl
  refine ⟨t, ht, writes_commute (.createFile ht) hv (fun name => ?_) (by decide)⟩
  by_cases ha : [0x61] = name
  · subst ha
    rfl
  · by_cases hb : [0x62] = name
    · subst hb
      rfl
    · -- no call of either run is on a column of this name
      have ha' : TableOp.callTo name a = none := if_neg ha
      have hb' : TableOp.callTo name b = none := if_neg hb
      have hbad : TableOp.callTo name bad = none := if_neg hb
      have haddRow : TableOp.callTo name .addRow = none := rfl
      have haddRows : TableOp.callTo name (.addRows 2) = none := rfl
      simp only [callsTo, List.filterMap_cons_none ha', List.filterMap_cons_none hb',
        List.filterMap_cons_none hbad, List.filterMap_cons_none haddRow,
        List.filterMap_cons_none haddRows, List.filterMap_nil]

end CSTableWriter

end CStable
