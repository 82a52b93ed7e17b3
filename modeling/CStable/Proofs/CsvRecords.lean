import CStable.Proofs.CsvStored
import CStable.Proofs.MergedTables

/-!
# `CStable.Proofs.CsvRecords`: the rows of a CSV stream as records

A row of a CSV stream and a flat record can say the same (`SaysRecord`): the cells that are
not null are the values of the fields named in the header, and the other fields are missing.
The import and the shredder then make the same calls on every column, row by row, so the
stream and the records are committed to the same file (`csvRecords`).

A boolean is said by `0` and `1`: its column reports unsigned integers, and the import reads
the cell as one.
-/

set_option autoImplicit false

namespace CStable

open Support.Striping
open TableSchema (fromProtobuf columnOfFieldType)

/-! ### Calls with the same bytes -/

namespace v1

/-- Calls with the same bytes take a column to the same state, also where some raise: whether a
call raises depends on its bytes too. -/
theorem callAll_congr {calls calls' : List WriteCall} (h : List.Forall₂ SameBytes calls calls') :
    ∀ w : ColumnWriter, (w.callAll calls).1 = (w.callAll calls').1 := by
  induction h with
  | nil => exact fun _ => rfl
  | @cons c c' cs cs' hc _ ih =>
    intro w
    rw [ColumnWriter.callAll, ColumnWriter.callAll, hc.call_eq w]
    cases w.call c' with
    | ok w' => exact ih w'
    | error e => exact ih w

end v1

namespace CSTableWriter

/-- Tables that cannot be told apart stay so by calls with the same bytes on each column and the
same number of rows. -/
theorem SameWriters.replay_congr {t u : CSTableWriter} (h : SameWriters t u) (rows : UInt64)
    {calls calls' : Nat → List WriteCall}
    (hcalls : ∀ i < t.column_writers.length, List.Forall₂ v1.SameBytes (calls i) (calls' i)) :
    SameWriters (t.replay rows calls) (u.replay rows calls') := by
  have hsame : SameWriters (t.replay rows calls) (t.replay rows calls') := by
    refine ⟨rfl, rfl, rfl, rfl, List.ext_getElem? fun i => ?_⟩
    simp only [CSTableWriter.replay, List.getElem?_map, List.getElem?_mapIdx, Option.map_map]
    cases hslot : t.column_writers[i]? with
    | none => rfl
    | some slot =>
      have hi := hcalls i (List.getElem?_eq_some_iff.mp hslot).1
      refine congrArg some ?_
      show (slot.replay (calls i)).writer = (slot.replay (calls' i)).writer
      unfold ColumnSlot.replay
      cases hw : slot.writer with
      | v1 w => exact congrArg ColumnWriter.v1 (v1.callAll_congr hi w)
      | v2 w => exact hw.trans hw.symm
  exact hsame.trans (h.replay rows calls')

/-- They are of the same version. -/
theorem SameWriters.allV1 {t u : CSTableWriter} (h : SameWriters t u) (hall : u.AllV1) :
    t.AllV1 := by
  intro slot hslot
  have hmem : slot.writer ∈ u.column_writers.map ColumnSlot.writer :=
    h.writers ▸ List.mem_map_of_mem hslot
  obtain ⟨slot', hslot', hwriter⟩ := List.mem_map.mp hmem
  obtain ⟨w, hw⟩ := hall slot' hslot'
  exact ⟨w, hwriter.symm.trans hw⟩

end CSTableWriter

namespace RecordShredder

open CSTableWriter (SameWriters newCalls)

/-- Steps that succeed on a table of v0.1.0 replay their calls, and the table is one of v0.1.0
after them. -/
theorem replay_steps {t t' : CSTableWriter} (hall : t.AllV1) {steps : List Step}
    (h : CxxM.exec (execSteps steps) t = (.ok (), t')) :
    t'.AllV1 ∧ t' = t.replay 0 (callsAt t steps) := by
  have hkept := (CSTableWriter.keptByWrites_replay t).execSteps steps t
    ⟨hall, 0, fun _ => [], by rw [CSTableWriter.replay_rows]; unfold CSTableWriter.addRows; simp⟩
  rw [h] at hkept
  obtain ⟨hall', rows, calls, hreplay⟩ := hkept
  have hreplay : t' = t.replay rows calls := hreplay
  obtain ⟨-, hwrote⟩ := execSteps_ok h
  have hrows : rows = 0 := by
    have hnum := hwrote.num_rows
    rw [hreplay] at hnum
    exact UInt64.add_eq_left.mp hnum
  refine ⟨hall', ?_⟩
  have hself := CSTableWriter.replay_newCalls hall rows calls
  rw [← hreplay, hrows] at hself
  rw [← hself]
  -- where there is a column, the new calls are those of the steps
  have hslots : (t.column_writers.mapIdx fun i slot => slot.replay (newCalls t t' i)) =
      t.column_writers.mapIdx fun i slot => slot.replay (callsAt t steps i) := by
    refine List.ext_getElem? fun i => ?_
    rw [List.getElem?_mapIdx, List.getElem?_mapIdx]
    cases hslot : t.column_writers[i]? with
    | none => rfl
    | some slot =>
      obtain ⟨slot', hslot', hhistory, -⟩ := hwrote.slots i slot hslot
      have hnew : newCalls t t' i = callsAt t steps i := by
        unfold newCalls
        rw [hslot, hslot', Option.map_some, Option.map_some, Option.getD_some, Option.getD_some,
          hhistory, List.drop_left]
      rw [Option.map_some, Option.map_some, hnew]
  unfold CSTableWriter.replay
  rw [hslots]

/-! ### Flat records -/

/-- A schema without objects and repeated fields. -/
def FlatSchema (schema : MessageSchema) : Prop :=
  ∀ f ∈ schema, ∃ id name type optional, f = .scalar id name type false optional

/-- The leaf of a field of a flat schema. -/
def flatLeaf (id : UInt32) (name : Bytes) (type : ScalarType) (optional : Bool) : MessageLeaf :=
  ⟨[], ⟨id, ⟨name, false, optional⟩⟩, type⟩

/-- The leaves of a flat schema are its fields. There is one for each, at the level that
`optional` gives it. -/
theorem exists_flatLeaf {schema : MessageSchema} (hflat : FlatSchema schema) {m : MessageLeaf}
    (hm : m ∈ messageLeaves schema) : ∃ id name type optional,
      m = flatLeaf id name type optional ∧ .scalar id name type false optional ∈ schema := by
  obtain ⟨f, hf, hleaf⟩ := mem_messageLeaves.mp hm
  obtain ⟨id, name, type, optional, rfl⟩ := hflat f hf
  exact ⟨id, name, type, optional, List.mem_singleton.mp hleaf, hf⟩

/-- Every field of a flat schema is a leaf. -/
theorem mem_flatLeaf {schema : MessageSchema} {id : UInt32} {name : Bytes} {type : ScalarType}
    {optional : Bool} (hf : .scalar id name type false optional ∈ schema) :
    flatLeaf id name type optional ∈ messageLeaves schema :=
  mem_messageLeaves.mpr ⟨_, hf, List.mem_cons_self⟩

/-- The definition level of a value. -/
def flatLevel (optional : Bool) : Nat := if optional then 1 else 0

/-- A field without a value is one null. -/
theorem leafCalls_nil (id : UInt32) (name : Bytes) (type : ScalarType) (optional : Bool) :
    leafCalls (flatLeaf id name type optional) ([] : List ScalarValue) = [⟨0, 0, .null⟩] := rfl

/-- A field with a value is one call, at the definition level of the field. A required field has
the level zero. -/
theorem leafCalls_singleton (id : UInt32) (name : Bytes) (type : ScalarType) (optional : Bool)
    (value : ScalarValue) :
    leafCalls (flatLeaf id name type optional) ([value] : List ScalarValue) =
      [⟨0, flatLevel optional, value.arg⟩] := by
  cases optional <;> rfl

/-! ### What a row says -/

/-- The import takes the text of the cell at position `i` of row `n` for the value. -/
def CellSays (ops : CSVOps) (n i : Nat) (val : Bytes) : ScalarValue → Prop
  | .string value => value = val
  | .boolean value => stoull val = .ok (if value then 1 else 0)
  | .uint32 value => stoull val = .ok value.toUInt64
  | .uint64 value => stoull val = .ok value
  | .double value => ops.stod val = .ok value
  | .dateTime value => ops.parseTime n i val = .ok (some value)

/-- What a row says of the field of a name: its value, or nothing where the cell is null or
there is none. -/
def FieldSays (ops : CSVOps) (header : List Bytes) (n : Nat) (row : List Bytes) (name : Bytes)
    (values : List ScalarValue) : Prop :=
  (values = [] ∧ ∀ (i : Nat) (val : Bytes), header[i]? = some name → row[i]? = some val →
    Human.isNullOrEmpty val = true) ∨
  ∃ (i : Nat) (val : Bytes) (value : ScalarValue), header[i]? = some name ∧ row[i]? = some val ∧
    Human.isNullOrEmpty val = false ∧ values = [value] ∧ CellSays ops n i val value

/-- A row has a cell for each name of the header and says what the record says. -/
structure SaysRecord (ops : CSVOps) (schema : MessageSchema) (header : List Bytes) (n : Nat)
    (row : List Bytes) (record : MessageObject) : Prop where
  length : row.length = header.length
  fields : ∃ id children, record = .object id children ∧ ∀ f ∈ schema, ∃ values,
    childrenOf f.id children = values.map (.scalar f.id) ∧
      FieldSays ops header n row f.name values

/-- The value of a cell is passed on with the bytes the shredder passes on. The calls themselves
may differ: a boolean is a number in the one and not in the other. -/
theorem csvArg_says {ops : CSVOps} {n i : Nat} {val : Bytes} {type : ScalarType}
    {value : ScalarValue} (htype : value.type = type.val) (h : CellSays ops n i val value) :
    ∃ arg, csvArg ops n i val (reportedType (columnOfFieldType type).1.val) = .ok arg ∧
      v1.ColumnWriter.datum arg = v1.ColumnWriter.datum value.arg ∧
      Takes (columnOfFieldType type).2 arg := by
  obtain ⟨type, hobject⟩ := type
  obtain rfl : value.type = type := htype
  have hnumber : ∀ v, stoull val = .ok v →
      csvArg ops n i val .UNSIGNED_INT = .ok (.unsignedInt v) := by
    intro v hv
    show (tryConvert (stoull val) _ val).map _ = _
    rw [hv]
    rfl
  -- every scalar is said in the text that the reported type of its column takes
  cases value with
  | string value =>
    obtain rfl : value = val := h
    exact ⟨.string value, rfl, rfl, fun _ _ => rfl⟩
  | boolean value =>
    refine ⟨.unsignedInt _, hnumber _ h, ?_, fun _ habs => by cases habs⟩
    cases value <;> rfl
  | uint32 value => exact ⟨.unsignedInt _, hnumber _ h, rfl, fun _ habs => by cases habs⟩
  | uint64 value => exact ⟨.unsignedInt _, hnumber _ h, rfl, fun _ habs => by cases habs⟩
  | double value =>
    refine ⟨.float value, ?_, rfl, fun _ habs => by cases habs⟩
    show (tryConvert (ops.stod val) _ val).map _ = _
    rw [show ops.stod val = .ok value from h]
    rfl
  | dateTime value =>
    refine ⟨.dateTime value, ?_, rfl, fun _ habs => by cases habs⟩
    show (ops.parseTime n i val >>= _) = _
    rw [show ops.parseTime n i val = .ok (some value) from h]
    rfl

/-! ### The header -/

/-- What the import finds for a leaf. -/
def csvColumn (m : MessageLeaf) (i : Nat) : CSVColumn where
  name := m.name []
  writer := i
  maxDefinitionLevel := 0 + opts m.path.hops
  type := (reportedType m.path.type.val).code

section Header

variable {mem : Uninit} {order order' : HashOrder} {schema : MessageSchema} {t : CSTableWriter}

/-- A column of a table of records is declared with the type of its field. The header of the
file holds it as a code. -/
theorem declares_leaf (m : MessageLeaf) (i : Nat) :
    Declares ((m.path.flat [] 0 0).config mem i) m.path.type where
  logical_type := rfl
  storage_type := by
    obtain ⟨parents, leaf, type, hobject⟩ := m
    cases type with
    | OBJECT => exact absurd rfl hobject
    | _ => rfl

/-- The importer finds the column of a field by its name, with its position and its level; and
as a missing one, if it is optional. -/
theorem openCSVColumn_leaf
    (hcreate : CSTableWriter.createFile mem order' .v0_1_0 (fromProtobuf order schema) = .ok t)
    (h : RecordsWritten mem schema t []) {m : MessageLeaf} (hm : m ∈ messageLeaves schema) {i : Nat}
    (hi : (schemaPaths t.schema)[i]? = some m.path) :
    openCSVColumn t (m.name []) = .ok (csvColumn m i) ∧
      (opts m.path.hops ≠ 0 → openMissingColumn t (m.name []) = .ok i) := by
  have hcol : t.columns[i]? = some ((m.path.flat [] 0 0).config mem i) := by
    rw [h.own.getElem?_columns, hi]
    rfl
  obtain ⟨slot, hslot, -⟩ := h.slots m hm i hi
  have hget : t.getColumnWriter (m.name []) = .ok i :=
    (CSTableWriter.getColumnWriter_eq_ok h.names hcol _).mpr rfl
  have hfound : t.slot i = .ok slot := slot_eq_ok.mpr hslot
  have hhas : t.hasColumn (m.name []) = true :=
    List.any_eq_true.mpr ⟨_, List.mem_of_getElem? hcol, beq_self_eq_true _⟩
  -- what the writer of a new table says of itself
  obtain ⟨hci, hcol'⟩ := List.getElem?_eq_some_iff.mp hcol
  obtain ⟨hsi, hslot'⟩ := List.getElem?_eq_some_iff.mp hslot
  have hanswers := (List.forall₂_iff_get.mp (createFile_answers hcreate)).2 i hci hsi
  rw [List.get_eq_getElem, List.get_eq_getElem, hcol', hslot'] at hanswers
  obtain ⟨htype, hmax⟩ := Prod.mk.inj (hanswers _ (declares_leaf m i))
  have hmax : slot.writer.maxDefinitionLevel = 0 + opts m.path.hops := hmax
  constructor
  · unfold openCSVColumn
    rw [hhas, hget, if_neg (by decide), Result.ok_bind, hfound, Result.ok_bind, hmax, htype]
    rfl
  · intro hopts
    unfold openMissingColumn
    rw [hget, Result.ok_bind, hfound, Result.ok_bind, hmax, if_neg (by omega)]

end Header

/-! ### The steps of a row -/

section Steps

variable {ops : CSVOps} {n : Nat}

/-- A cell writes to its own column only. So the calls of a column are those of its cells. -/
theorem cellSteps_writesTo (i : Nat) (col : CSVColumn) (val : Bytes) :
    WritesTo [col.name] (cellSteps ops n i col val) := by
  intro column r d arg h
  unfold cellSteps at h
  split_ifs at h
  · exact absurd (List.mem_singleton.mp h) Step.noConfusion
  · cases List.mem_singleton.mp h
    exact List.mem_cons_self
  · cases htype : ColumnType.ofCode? col.type with
    | none =>
      rw [htype] at h
      cases h
    | some type =>
      rw [htype] at h
      cases List.mem_singleton.mp h
      exact List.mem_cons_self

/-- The cells of a row write to the columns of the header. By induction on the columns, along
with the row. -/
theorem cellsSteps_writesTo {columns : List CSVColumn} :
    ∀ (i : Nat) (row : List Bytes),
      WritesTo (columns.map CSVColumn.name) (cellsSteps ops n i columns row) := by
  induction columns with
  | nil =>
    intro i row column r d arg h
    cases row <;> cases h
  | cons col columns ih =>
    intro i row
    cases row with
    | nil =>
      intro column r d arg h
      cases h
    | cons val row =>
      exact ((cellSteps_writesTo i col val).mono
        (List.cons_subset_cons _ (List.nil_subset _))).append
        ((ih (i + 1) row).mono (List.subset_cons_self _ _))

/-- A step of the cells is one of a cell. By induction on the columns, along with the row. -/
theorem exists_cell {columns : List CSVColumn} {s : Step} :
    ∀ {i : Nat} {row : List Bytes}, s ∈ cellsSteps ops n i columns row →
      ∃ (j : Nat) (col : CSVColumn) (val : Bytes), columns[j]? = some col ∧ row[j]? = some val ∧
        s ∈ cellSteps ops n (i + j) col val := by
  induction columns with
  | nil =>
    intro i row h
    cases row <;> cases h
  | cons col columns ih =>
    intro i row h
    cases row with
    | nil => cases h
    | cons val row =>
      rcases List.mem_append.mp h with hcell | hrest
      · exact ⟨0, col, val, rfl, rfl, hcell⟩
      · obtain ⟨j, col', val', hcol, hval, hmem⟩ := ih hrest
        exact ⟨j + 1, col', val', hcol, hval, by rwa [Nat.add_assoc, Nat.add_comm 1 j] at hmem⟩

/-- With distinct names the calls on a column of the header are those of its cell, since no
other cell is under the name. -/
theorem callsFor_cellsSteps {columns : List CSVColumn} :
    ∀ {i j : Nat} {row : List Bytes} {col : CSVColumn} {val : Bytes},
      (columns.map CSVColumn.name).Nodup → columns[j]? = some col → row[j]? = some val →
        callsFor col.name (cellsSteps ops n i columns row) =
          callsFor col.name (cellSteps ops n (i + j) col val) := by
  induction columns with
  | nil =>
    intro i j row col val _ hcol
    cases hcol
  | cons col₀ columns ih =>
    intro i j row col val hnodup hcol hval
    rw [List.map_cons, List.nodup_cons] at hnodup
    cases row with
    | nil => cases hval
    | cons val₀ row =>
      rw [cellsSteps, callsFor_append]
      cases j with
      | zero =>
        cases hcol
        cases hval
        rw [(cellsSteps_writesTo (i + 1) row).callsFor_eq_nil hnodup.1, List.append_nil,
          Nat.add_zero]
      | succ j =>
        have hne : col.name ∉ [col₀.name] := fun hmem => hnodup.1
          (List.mem_singleton.mp hmem ▸ List.mem_map_of_mem (List.mem_of_getElem? hcol))
        rw [(cellSteps_writesTo i col₀ val₀).callsFor_eq_nil hne, List.nil_append,
          ih hnodup.2 hcol hval, Nat.add_assoc, Nat.add_comm 1 j]

/-- A missing column gets one null, and a column of the header none of them. The missing columns
are listed once each. -/
theorem callsFor_missingSteps {missing : List Bytes} {name : Bytes} (hnodup : missing.Nodup) :
    callsFor name (missingSteps missing) = if name ∈ missing then [⟨0, 0, .null⟩] else [] := by
  induction missing with
  | nil => rfl
  | cons column missing ih =>
    obtain ⟨hcolumn, hnodup⟩ := List.nodup_cons.mp hnodup
    have hcons : callsFor name (missingSteps (column :: missing)) =
        callsFor name [.write column 0 0 (.ok .null)] ++ callsFor name (missingSteps missing) :=
      callsFor_append name [_] _
    rw [hcons, ih hnodup]
    by_cases hname : column = name
    · subst hname
      rw [if_neg hcolumn, if_pos List.mem_cons_self, List.append_nil]
      exact List.filterMap_cons_some (if_pos rfl)
    · have hfirst : callsFor name [.write column 0 0 (.ok .null)] = [] :=
        List.filterMap_cons_none (if_neg hname)
      have hmem : name ∈ missing ↔ name ∈ column :: missing := by
        rw [List.mem_cons]
        exact (or_iff_right fun heq => hname heq.symm).symm
      rw [hfirst, List.nil_append]
      exact if_congr hmem rfl rfl

end Steps

/-! ### A row and its record -/

section Row

variable {ops : CSVOps} {mem : Uninit} {schema : MessageSchema} {t : CSTableWriter}
  {header : List Bytes} {n : Nat} {row : List Bytes} {record : MessageObject}

/-- What the row says of a field is what the record holds: the value of its cell, or none. A
flat field occurs once at most, so this is the whole content of the column. -/
theorem SaysRecord.exists_values (h : SaysRecord ops schema header n row record)
    (hconform : Conforms schema record) {id : UInt32} {name : Bytes} {type : ScalarType}
    {optional : Bool} (hf : .scalar id name type false optional ∈ schema) :
    ∃ values : List ScalarValue, FieldSays ops header n row name values ∧
      (∀ value ∈ values, value.type = type.val) ∧ (optional = false → values ≠ []) ∧
      ∀ c, RecordContains (flatLeaf id name type optional) record c →
        leafCalls (flatLeaf id name type optional) c =
          leafCalls (flatLeaf id name type optional) values := by
  obtain ⟨rid, children, rfl, hfields⟩ := h.fields
  obtain ⟨values, hvalues, htells⟩ := hfields _ hf
  obtain ⟨rid', children', heq, hconform⟩ := hconform
  cases heq
  obtain ⟨hoccurs, hall⟩ := fieldsConform_iff.mp hconform.fields _ hf
  have hvalues : childrenOf id children = values.map (.scalar id) := hvalues
  have hinj : Function.Injective (MessageObject.scalar id) := fun v w h =>
    (MessageObject.scalar.inj h).2
  refine ⟨values, htells, fun value hvalue => ?_, fun hrequired hnil => ?_, fun c hc => ?_⟩
  · obtain ⟨value', heq, htype⟩ := hall (.scalar id value) (hvalues ▸ List.mem_map_of_mem hvalue)
    rwa [(MessageObject.scalar.inj heq).2]
  · refine hoccurs.pos rfl hrequired ?_
    show (childrenOf id children).length = 0
    rw [hvalues, hnil]
    rfl
  · obtain ⟨⟨rid', children', heq, hlist, -⟩, -⟩ := hc
    cases heq
    have hsame : c.list = values := List.map_injective_iff.mpr hinj (hlist.symm.trans hvalues)
    exact congrArg (leafCalls (flatLeaf id name type optional)) hsame

/-- The call of a row on the column of a leaf: it has the bytes of what the record holds. -/
structure RowCall (m : MessageLeaf) (record : MessageObject) (c₀ : WriteCall) : Prop where
  rlvl : c₀.rlvl = 0
  takes : Takes m.path.encoding c₀.arg
  same : ∀ c, RecordContains m record c → List.Forall₂ v1.SameBytes [c₀] (leafCalls m c)

/-- A null is what a field without a value stands for. An empty cell and a missing column both
come to this. -/
theorem rowCall_null {id : UInt32} {name : Bytes} {type : ScalarType} {optional : Bool}
    (h : ∀ c, RecordContains (flatLeaf id name type optional) record c →
      leafCalls (flatLeaf id name type optional) c =
        leafCalls (flatLeaf id name type optional) ([] : List ScalarValue)) :
    RowCall (flatLeaf id name type optional) record ⟨0, 0, .null⟩ where
  rlvl := rfl
  takes := fun _ habs => by cases habs
  same := fun c hc => by
    rw [h c hc, leafCalls_nil]
    exact .cons (.refl _) .nil

/-- A cell makes the call of its field. The level is that of the field, because the importer
takes the highest one of the column. -/
theorem cellSteps_says (h : SaysRecord ops schema header n row record)
    (hconform : Conforms schema record) (hnodup : header.Nodup) {id : UInt32} {name : Bytes}
    {type : ScalarType} {optional : Bool} (hf : .scalar id name type false optional ∈ schema)
    {j : Nat} {val : Bytes} (hname : header[j]? = some name) (hval : row[j]? = some val) (i : Nat) :
    ∃ c₀, cellSteps ops n j (csvColumn (flatLeaf id name type optional) i) val =
        [.write name c₀.rlvl c₀.dlvl (.ok c₀.arg)] ∧
      RowCall (flatLeaf id name type optional) record c₀ := by
  obtain ⟨values, htells, htypes, hrequired, hsame⟩ := h.exists_values hconform hf
  have hlevel : (csvColumn (flatLeaf id name type optional) i).maxDefinitionLevel =
      flatLevel optional := by
    cases optional <;> rfl
  unfold cellSteps
  rcases htells with ⟨rfl, hnull⟩ | ⟨j', val', value, hname', hval', hnull, rfl, htells⟩
  · have hoptional : optional = true := by
      cases optional with
      | true => rfl
      | false => exact absurd rfl (hrequired rfl)
    subst hoptional
    rw [hnull j val hname hval, if_pos rfl, hlevel, if_neg (by decide)]
    exact ⟨⟨0, 0, .null⟩, rfl, rowCall_null hsame⟩
  · -- the names are distinct, so this is the cell that says it
    obtain rfl : j' = j := (List.getElem?_inj (List.getElem?_eq_some_iff.mp hname').1 hnodup).mp
      (hname'.trans hname.symm)
    cases hval.symm.trans hval'
    obtain ⟨arg, harg, hdatum, htakes⟩ := csvArg_says (htypes value List.mem_cons_self) htells
    have htype : ColumnType.ofCode? (csvColumn (flatLeaf id name type optional) i).type =
        some (reportedType (columnOfFieldType type).1.val) := ColumnType.ofCode?_code _
    rw [hnull, if_neg Bool.false_ne_true, htype, hlevel]
    dsimp only
    rw [harg]
    refine ⟨⟨0, flatLevel optional, arg⟩, rfl, rfl, htakes, fun c hc => ?_⟩
    rw [hsame c hc, leafCalls_singleton]
    exact .cons ⟨rfl, rfl, hdatum⟩ .nil

variable {order order' : HashOrder} {columns : List CSVColumn} {missing : List Nat}

/-- The leaf of a column of a table of records, found among the columns of its schema. The
shredder finds columns by their index there. -/
theorem exists_position (h : RecordsWritten mem schema t []) {m : MessageLeaf}
    (hm : m ∈ messageLeaves schema) : ∃ i : Nat, (schemaPaths t.schema)[i]? = some m.path :=
  List.mem_iff_getElem?.mp (h.paths.mem_iff.mpr (List.mem_map_of_mem hm))

/-- The column found for a name of the header is that of the field of this name. Field names are
distinct, so there is one. -/
theorem exists_headerColumn
    (hcreate : CSTableWriter.createFile mem order' .v0_1_0 (fromProtobuf order schema) = .ok t)
    (h : RecordsWritten mem schema t []) (hheader : Header t header columns missing) {id : UInt32}
    {name : Bytes} {type : ScalarType} {optional : Bool}
    (hf : .scalar id name type false optional ∈ schema) {j : Nat} (hname : header[j]? = some name) :
    ∃ i : Nat, (schemaPaths t.schema)[i]? = some (flatLeaf id name type optional).path ∧
      columns[j]? = some (csvColumn (flatLeaf id name type optional) i) := by
  obtain ⟨i, hi⟩ := exists_position h (mem_flatLeaf hf)
  have hopen := (openCSVColumn_leaf hcreate h (mem_flatLeaf hf) hi).1
  obtain ⟨hlen, hall⟩ := List.forall₂_iff_get.mp (Result.forall₂_of_mapM hheader.columns)
  obtain ⟨hj, hget⟩ := List.getElem?_eq_some_iff.mp hname
  have hcol := hall j hj (hlen ▸ hj)
  rw [List.get_eq_getElem, List.get_eq_getElem, hget] at hcol
  refine ⟨i, hi, ?_⟩
  rw [List.getElem?_eq_getElem (hlen ▸ hj)]
  exact congrArg some (Except.ok.inj (hcol.symm.trans hopen))

/-- Every step of a row finds its column, which takes its call: the cells those of the header, the
nulls the columns that are missing. -/
theorem rowSteps_land (hflat : FlatSchema schema)
    (hcreate : CSTableWriter.createFile mem order' .v0_1_0 (fromProtobuf order schema) = .ok t)
    (h : RecordsWritten mem schema t []) (hnodup : header.Nodup)
    (hnames : ∀ name ∈ header, name ∈ schema.map MessageSchemaField.name)
    (hheader : Header t header columns missing)
    (htells : SaysRecord ops schema header n row record) (hconform : Conforms schema record) :
    AllLand [] (schemaPaths t.schema)
      (rowSteps ops columns (missingColumns t header) n row) := by
  have hlength : columns.length = header.length := by
    rw [← hheader.map_name, List.length_map]
  intro s hs
  -- the steps of a row are those of its cells, then the nulls of the columns it lacks
  rcases List.mem_append.mp hs with hs | hs
  · obtain ⟨j, col, val, hcol, hval, hmem⟩ := exists_cell hs
    have hj : j < header.length := hlength ▸ (List.getElem?_eq_some_iff.mp hcol).1
    have hname := List.getElem?_eq_getElem hj
    obtain ⟨f, hf, hfname⟩ := List.mem_map.mp (hnames _ (List.getElem_mem hj))
    obtain ⟨id, name, type, optional, rfl⟩ := hflat f hf
    obtain rfl : name = header[j] := hfname
    obtain ⟨i, hi, hcol'⟩ := exists_headerColumn hcreate h hheader hf hname
    obtain ⟨c₀, hsteps, hcall⟩ := cellSteps_says htells hconform hnodup hf hname hval i
    cases hcol.symm.trans hcol'
    rw [Nat.zero_add, hsteps, List.mem_singleton] at hmem
    exact ⟨_, List.mem_of_getElem? hi, _, _, _, hmem, hcall.takes⟩
  · obtain ⟨name, hname, rfl⟩ := List.mem_map.mp hs
    obtain ⟨hcol, -⟩ := mem_missingColumns.mp hname
    obtain ⟨m, hm, rfl⟩ := List.mem_map.mp (RecordMaterializer.mem_leafNames h hcol)
    obtain ⟨i, hi⟩ := exists_position h hm
    exact ⟨_, List.mem_of_getElem? hi, 0, 0, .null, rfl, fun _ habs => by cases habs⟩

/-- The calls under the name of a leaf are those its content has: from the cell the header names,
or a null where it names none. -/
theorem callsFor_rowSteps (hflat : FlatSchema schema)
    (hcreate : CSTableWriter.createFile mem order' .v0_1_0 (fromProtobuf order schema) = .ok t)
    (h : RecordsWritten mem schema t []) (hnodup : header.Nodup)
    (hheader : Header t header columns missing)
    (htells : SaysRecord ops schema header n row record) (hconform : Conforms schema record) :
    ∀ m ∈ messageLeaves schema, ∀ c, RecordContains m record c →
      List.Forall₂ v1.SameBytes
        (callsFor (m.name []) (rowSteps ops columns (missingColumns t header) n row))
        (leafCalls m c) := by
  intro m hm c hc
  obtain ⟨id, name, type, optional, rfl, hf⟩ := exists_flatLeaf hflat hm
  show List.Forall₂ v1.SameBytes (callsFor name _) _
  unfold rowSteps
  rw [callsFor_append, callsFor_missingSteps (nodup_missingColumns t header)]
  -- a field the header names has one call, from its cell
  by_cases hname : name ∈ header
  · obtain ⟨j, hj⟩ := List.mem_iff_getElem?.mp hname
    obtain ⟨val, hval⟩ : ∃ val, row[j]? = some val :=
      ⟨_, List.getElem?_eq_getElem (htells.length ▸ (List.getElem?_eq_some_iff.mp hj).1)⟩
    obtain ⟨i, -, hcol⟩ := exists_headerColumn hcreate h hheader hf hj
    obtain ⟨c₀, hsteps, hcall⟩ := cellSteps_says htells hconform hnodup hf hj hval i
    have hcalls : callsFor name (cellsSteps ops n 0 columns row) = [c₀] := by
      have hcell : callsFor name (cellsSteps ops n 0 columns row) = callsFor name
          (cellSteps ops n (0 + j) (csvColumn (flatLeaf id name type optional) i) val) :=
        callsFor_cellsSteps (hheader.map_name ▸ hnodup) hcol hval
      rw [Nat.zero_add, hsteps] at hcell
      exact hcell.trans (List.filterMap_cons_some (if_pos rfl))
    rw [hcalls, if_neg fun hmem => (mem_missingColumns.mp hmem).2 hname, List.append_nil]
    exact hcall.same c hc
  · -- a field that the header does not name is missing
    obtain ⟨values, hfield, -, -, hsame⟩ := htells.exists_values hconform hf
    have hnil : values = [] := by
      rcases hfield with ⟨hnil, -⟩ | ⟨j, val, value, hj, -⟩
      · exact hnil
      · exact absurd (List.mem_of_getElem? hj) hname
    subst hnil
    have hcol : name ∈ t.columns.map ColumnConfig.column_name := by
      obtain ⟨i, hi⟩ := exists_position h hm
      rw [h.own.map_column_name]
      exact List.mem_map.mpr ⟨_, List.mem_of_getElem? hi, rfl⟩
    have hnone : callsFor name (cellsSteps ops n 0 columns row) = [] :=
      (cellsSteps_writesTo 0 row).callsFor_eq_nil (hheader.map_name ▸ hname)
    rw [hnone, if_pos (mem_missingColumns.mpr ⟨hcol, hname⟩), List.nil_append]
    exact (rowCall_null hsame).same c hc

/-- The header of a stream is accepted when it names fields of the schema and leaves out none
that is required. -/
theorem exists_headerFor (hflat : FlatSchema schema)
    (hcreate : CSTableWriter.createFile mem order' .v0_1_0 (fromProtobuf order schema) = .ok t)
    (h : RecordsWritten mem schema t [])
    (hnames : ∀ name ∈ header, name ∈ schema.map MessageSchemaField.name)
    (hrequired : ∀ f ∈ schema, f.optional = false → f.name ∈ header) :
    ∃ columns missing, Header t header columns missing := by
  obtain ⟨columns, hcolumns, -⟩ := Result.mapM_ok (f := openCSVColumn t)
    (P := fun _ _ => True) fun name (hname : name ∈ header) => by
      obtain ⟨f, hf, rfl⟩ := List.mem_map.mp (hnames name hname)
      obtain ⟨id, name, type, optional, rfl⟩ := hflat f hf
      obtain ⟨i, hi⟩ := exists_position h (mem_flatLeaf hf)
      exact ⟨_, (openCSVColumn_leaf hcreate h (mem_flatLeaf hf) hi).1, trivial⟩
  obtain ⟨missing, hmissing, -⟩ := Result.mapM_ok (f := openMissingColumn t)
    (P := fun _ _ => True) fun name (hname : name ∈ missingColumns t header) => by
      obtain ⟨hcol, hnot⟩ := mem_missingColumns.mp hname
      obtain ⟨m, hm, rfl⟩ := List.mem_map.mp (RecordMaterializer.mem_leafNames h hcol)
      obtain ⟨i, hi⟩ := exists_position h hm
      obtain ⟨id, name, type, optional, rfl, hf⟩ := exists_flatLeaf hflat hm
      refine ⟨i, (openCSVColumn_leaf hcreate h hm hi).2 ?_, trivial⟩
      cases optional with
      | true => exact Nat.one_ne_zero
      | false => exact absurd (hrequired _ hf rfl) hnot
  exact ⟨columns, missing, hcolumns, hmissing⟩

/-- Tables that cannot be told apart have writers for the same leaves. The columns agree one by
one. -/
theorem sameWriters_hasWriter {u v : CSTableWriter} (h : SameWriters u v) {paths : List LeafPath}
    (hv : ∀ p ∈ paths, HasWriter v p) : ∀ p ∈ paths, HasWriter u p := by
  intro p hp
  obtain ⟨i, slot, w, hget, hslot, hw, hencoding⟩ := hv p hp
  obtain ⟨slot', hslot', hwriter⟩ := h.getElem? hslot
  exact ⟨i, slot', w, (getColumnWriter_congr h.columns _).trans hget, hslot', hwriter.trans hw,
    hencoding⟩

/-- A row and its record take tables that cannot be told apart to such tables. Both add one row
and the same bytes to each column. -/
theorem addCSVRow_says {u v : CSTableWriter} {written : List MessageObject}
    (hflat : FlatSchema schema) (hdistinct : AtEveryLevel DistinctFields schema)
    (hcreate : CSTableWriter.createFile mem order' .v0_1_0 (fromProtobuf order schema) = .ok t)
    (h : RecordsWritten mem schema t []) (hnodup : header.Nodup)
    (hnames : ∀ name ∈ header, name ∈ schema.map MessageSchemaField.name)
    (hheader : Header t header columns missing) (hsame : SameWriters u v)
    (hv : RecordsWritten mem schema v written) (hall : v.AllV1) (hschema : v.schema = t.schema)
    (htells : SaysRecord ops schema header n row record) (hconform : Conforms schema record) :
    ∃ u' v', CxxM.exec (addCSVRow ops columns missing n row) u = (.ok (), u') ∧
      CxxM.exec (addRecords v.schema [(record, schema)]) v = (.ok (), v') ∧
      SameWriters u' v' ∧ RecordsWritten mem schema v' (written ++ [record]) ∧ v'.AllV1 ∧
      v'.schema = v.schema := by
  have hland := rowSteps_land hflat hcreate h hnodup hnames hheader htells hconform
  have hcalls := callsFor_rowSteps hflat hcreate h hnodup hheader htells hconform
  obtain ⟨v', hexec, hv'⟩ := addRecords_conforming hdistinct hv
    fun r (hr : r ∈ [record]) => List.mem_singleton.mp hr ▸ hconform
  obtain ⟨hall', hschema', hreplay⟩ := RecordMaterializer.addRecords_replay hall hexec
  have hcolumns : v.columns = t.columns := by
    have hown := hv.own.columns
    rw [hschema] at hown
    exact hown.trans h.own.columns.symm
  obtain ⟨u₁, hsteps⟩ := execSteps_land (hschema ▸ hland) (sameWriters_hasWriter hsame hv.hasWriter)
  obtain ⟨-, hreplay₁⟩ := replay_steps (hsame.allV1 hall) hsteps
  refine ⟨u₁.addRow, v', ?_, hexec, ?_, hv', hall', hschema'⟩
  · rw [exec_addCSVRow hheader (hsame.columns.trans hcolumns), hsteps]
  · have hrow : u₁.addRow =
        u.replay 1 (callsAt u (rowSteps ops columns (missingColumns t header) n row)) := by
      rw [hreplay₁]
      unfold CSTableWriter.replay CSTableWriter.addRow
      rw [UInt64.add_zero]
    rw [hrow, ← hreplay]
    refine hsame.replay_congr 1 fun i hi => ?_
    -- the column at the position is that of a leaf
    have hlength : u.column_writers.length = t.columns.length := by
      have hlen := congrArg List.length hsame.writers
      rw [List.length_map, List.length_map] at hlen
      rw [hlen, hv.own.length, hcolumns]
    rw [hlength] at hi
    obtain ⟨p, hp, hcol⟩ := Option.map_eq_some_iff.mp
      ((h.own.getElem?_columns i).symm.trans (List.getElem?_eq_getElem hi))
    obtain ⟨m, hm, rfl⟩ := List.mem_map.mp (h.paths.mem_iff.mp (List.mem_of_getElem? hp))
    obtain ⟨id, children, rfl, hrecord⟩ := hconform
    obtain ⟨c, hc, hoccurs⟩ := exists_contains hm hrecord.fields
    have hcontains : RecordContains m (.object id children) c :=
      ⟨⟨id, children, rfl, hc⟩, hoccurs⟩
    have hnew : newCalls v v' i = leafCalls m c :=
      (RecordMaterializer.newCalls_eq hdistinct hv hv' hschema' hm (hschema ▸ hp)
        (.cons hcontains .nil)).trans (List.append_nil _)
    rw [hnew, callsAt_congr (hsame.columns.trans hcolumns), callsAt_eq h.names
      (List.getElem?_eq_getElem hi), ← hcol]
    exact hcalls m hm c hcontains

/-- The rows one after the other, along with their records. By induction on the records. -/
theorem forRows_says (hflat : FlatSchema schema) (hdistinct : AtEveryLevel DistinctFields schema)
    (hcreate : CSTableWriter.createFile mem order' .v0_1_0 (fromProtobuf order schema) = .ok t)
    (h : RecordsWritten mem schema t []) (hnodup : header.Nodup)
    (hnames : ∀ name ∈ header, name ∈ schema.map MessageSchemaField.name)
    (hheader : Header t header columns missing) {records : List MessageObject} :
    ∀ {rows : List (List Bytes)} {n : Nat} {u v : CSTableWriter} {written : List MessageObject},
      SameWriters u v → RecordsWritten mem schema v written → v.AllV1 → v.schema = t.schema →
      List.Forall₂ (fun row record => SaysRecord ops schema header row.2 row.1 record)
        (rows.zipIdx n) records →
      (∀ record ∈ records, Conforms schema record) →
      ∃ u' v', CxxM.exec (forRows (addCSVRow ops columns missing) n rows) u = (.ok (), u') ∧
        CxxM.exec (addRecords v.schema (records.map fun record => (record, schema))) v =
          (.ok (), v') ∧
        SameWriters u' v' := by
  -- one row of the file against one record of the message
  induction records with
  | nil =>
    intro rows n u v written hsame _ _ _ htells _
    obtain rfl : rows = [] := List.zipIdx_eq_nil_iff.mp (List.forall₂_nil_right_iff.mp htells)
    exact ⟨u, v, rfl, rfl, hsame⟩
  | cons record records ih =>
    intro rows n u v written hsame hv hall hschema htells hconform
    cases rows with
    | nil => cases htells
    | cons row rows =>
      rw [List.zipIdx_cons] at htells
      obtain ⟨hrow, hrows⟩ := List.forall₂_cons.mp htells
      obtain ⟨u₁, v₁, hexec, hadd, hsame₁, hv₁, hall₁, hschema₁⟩ := addCSVRow_says hflat hdistinct
        hcreate h hnodup hnames hheader hsame hv hall hschema hrow
        (hconform record List.mem_cons_self)
      obtain ⟨u', v', hrest, hrest', hsame'⟩ := ih hsame₁ hv₁ hall₁ (hschema₁.trans hschema) hrows
        fun r hr => hconform r (List.mem_cons_of_mem record hr)
      refine ⟨u', v', ?_, ?_, hsame'⟩
      · rw [forRows, CxxM.exec_bind_ok hexec, hrest]
      · rw [hschema₁] at hrest'
        exact (RecordMaterializer.exec_addRecords_append hadd).trans hrest'

end Row

/-! ### A stream and its records -/

/-- A stream whose rows say what records of a flat schema say is committed to the file of a
table to which the records were added. The two tables are created and committed at different
times, so that memory holds different things. -/
theorem csvRecords {mem mem' : Uninit} {order order' : HashOrder} {schema : MessageSchema}
    {t t₂ : CSTableWriter} {ops : CSVOps} {csv : CSVInputStream} {records : List MessageObject}
    (hflat : FlatSchema schema) (hdistinct : AtEveryLevel DistinctFields schema)
    (hleafNames : ((messageLeaves schema).map (MessageLeaf.name · [])).Nodup)
    (hdoubles : NoDoubles schema)
    (hcreate : CSTableWriter.createFile mem order' .v0_1_0 (fromProtobuf order schema) = .ok t)
    (hcreate₂ : CSTableWriter.createFile mem' order' .v0_1_0 (fromProtobuf order schema) = .ok t₂)
    (hnodup : csv.header.Nodup)
    (hnames : ∀ name ∈ csv.header, name ∈ schema.map MessageSchemaField.name)
    (hrequired : ∀ f ∈ schema, f.optional = false → f.name ∈ csv.header)
    (htells : List.Forall₂ (fun row record => SaysRecord ops schema csv.header row.2 row.1 record)
      csv.dataRows.zipIdx records)
    (hconform : ∀ record ∈ records, Conforms schema record) :
    ∃ u v, CxxM.exec (addRecordsFromCSV ops csv) t = (.ok (), u) ∧
      CxxM.exec (addRecords t₂.schema (records.map fun record => (record, schema))) t₂ =
        (.ok (), v) ∧
      ∀ v', v.commit mem' = .ok v' → ∃ u', u.commit mem = .ok u' ∧
        contents u'.file = contents v'.file := by
  have h := recordsWritten_createFile hleafNames hcreate
  obtain ⟨w, hw, -, hversion, -⟩ := RecordMaterializer.exists_recordTable hdistinct hleafNames
    hcreate hconform
  obtain ⟨v, hv, -⟩ := RecordMaterializer.exists_recordTable hdistinct hleafNames hcreate₂ hconform
  obtain ⟨columns, missing, hheader⟩ := exists_headerFor hflat hcreate h hnames hrequired
  obtain ⟨u, w', hrows, hadd, hsame⟩ := forRows_says hflat hdistinct hcreate h hnodup hnames hheader
    (⟨rfl, rfl, rfl, rfl, rfl⟩ : SameWriters t t) h
    (CSTableWriter.createFile_replayed hcreate).allV1 rfl htells hconform
  obtain rfl : w = w' := (Prod.mk.inj (hw.symm.trans hadd)).2
  refine ⟨u, v, (exec_rows ops hheader rfl).trans hrows, hv, fun v' hcommit => ?_⟩
  -- the records in the table of the import are committed where those of the other table are
  obtain ⟨x, hx, hfile⟩ := RecordMaterializer.commit_records hdistinct hleafNames hdoubles hcreate₂
    hcreate hconform hv hw hcommit
  obtain ⟨u', hcommit', hfile'⟩ := hsame.symm.commit hversion hx
  exact ⟨u', hcommit', (congrArg contents hfile').trans hfile⟩

/-- A required number, an optional text and an optional number. -/
def rowSchema : MessageSchema :=
  [.scalar 1 [0x61] ⟨.UINT64, FieldType.noConfusion⟩ false false,
    .scalar 2 [0x62] ⟨.STRING, FieldType.noConfusion⟩ false true,
    .scalar 3 [0x63] ⟨.UINT32, FieldType.noConfusion⟩ false true]

/-- A number and a text, and a number. -/
def rowRecords : List MessageObject :=
  [.object 0 [.scalar 1 (.uint64 1), .scalar 2 (.string [0x78])], .object 0 [.scalar 1 (.uint64 2)]]

/-- The two records of the example conform to its schema. -/
theorem rowRecords_conform : ∀ record ∈ rowRecords, Conforms rowSchema record := by
  intro record hrecord
  rcases List.mem_cons.mp hrecord with rfl | hrecord
  · refine ⟨_, _, rfl, by decide, ?_⟩
    simp [rowSchema, FieldsConform, FieldConforms, childrenOf, MessageObject.id,
      MessageSchemaField.id, occurs_iff, ScalarValue.type]
  · obtain rfl := List.mem_singleton.mp hrecord
    refine ⟨_, _, rfl, by decide, ?_⟩
    simp [rowSchema, FieldsConform, FieldConforms, childrenOf, MessageObject.id,
      MessageSchemaField.id, occurs_iff, ScalarValue.type]

/-- What the rows say, under a header that names the text before the number. The empty cell of
the second row is the missing text of its record. -/
theorem rowRecords_said (ops : CSVOps) :
    List.Forall₂ (fun row record => SaysRecord ops rowSchema [[0x62], [0x61]] row.2 row.1 record)
      ([[[0x78], [0x31]], [[], [0x32]]] : List (List Bytes)).zipIdx rowRecords := by
  have hunnamed : ∀ n row, FieldSays ops [[0x62], [0x61]] n row [0x63] [] := fun n row =>
    Or.inl ⟨rfl, fun i val hi => absurd (List.mem_of_getElem? hi) (by decide)⟩
  have hnumber : ∀ n cell text value, stoull text = .ok value →
      Human.isNullOrEmpty text = false →
      FieldSays ops [[0x62], [0x61]] n [cell, text] [0x61] [.uint64 value] :=
    fun n cell text value hvalue hnull => Or.inr ⟨1, text, _, rfl, rfl, hnull, rfl, hvalue⟩
  refine .cons ⟨rfl, _, _, rfl, ?_⟩ (.cons ⟨rfl, _, _, rfl, ?_⟩ .nil)
  · intro f hf
    simp only [rowSchema, List.mem_cons, List.not_mem_nil, or_false] at hf
    rcases hf with rfl | rfl | rfl
    · exact ⟨[.uint64 1], rfl, hnumber _ _ _ _ (by decide +kernel) (by decide)⟩
    · exact ⟨[.string [0x78]], rfl, Or.inr ⟨0, [0x78], _, rfl, rfl, by decide, rfl, rfl⟩⟩
    · exact ⟨[], rfl, hunnamed _ _⟩
  · intro f hf
    simp only [rowSchema, List.mem_cons, List.not_mem_nil, or_false] at hf
    rcases hf with rfl | rfl | rfl
    · exact ⟨[.uint64 2], rfl, hnumber _ _ _ _ (by decide +kernel) (by decide)⟩
    · -- the cell of the text is the first one, which is empty
      refine ⟨[], rfl, Or.inl ⟨rfl, fun i val hi hval => ?_⟩⟩
      obtain rfl : i = 0 := (List.getElem?_inj (List.getElem?_eq_some_iff.mp hi).1
        (by decide)).mp hi
      cases hval
      rfl
    · exact ⟨[], rfl, hunnamed _ _⟩

/-- Two rows, the second with an empty cell, and no column for the last field. The two commits
find different things in memory. -/
theorem csvRecords_two_rows :
    let mem : Uninit := zeroUninit
    let mem' : Uninit := oneUninit
    let order : HashOrder := ⟨id, fun _ => .refl _⟩
    let ops : CSVOps := ⟨fun _ => .error .fault, fun _ _ _ => .ok none⟩
    -- b;a and x;1 and ;2
    let csv : CSVInputStream := ⟨[0x62, 0x3b, 0x61, 0x0a, 0x78, 0x3b, 0x31, 0x0a, 0x3b, 0x32, 0x0a],
      0x3b, 0x0a, 0x22⟩
    ∃ t t₂ u v u' v',
      CSTableWriter.createFile mem order .v0_1_0 (fromProtobuf order rowSchema) = .ok t ∧
      CSTableWriter.createFile mem' order .v0_1_0 (fromProtobuf order rowSchema) = .ok t₂ ∧
      CxxM.exec (addRecordsFromCSV ops csv) t = (.ok (), u) ∧
      CxxM.exec (addRecords t₂.schema (rowRecords.map fun record => (record, rowSchema))) t₂ =
        (.ok (), v) ∧
      v.commit mem' = .ok v' ∧ u.commit mem = .ok u' ∧ contents u'.file = contents v'.file := by
  intro mem mem' order ops csv
  obtain ⟨t, ht⟩ : ∃ t, CSTableWriter.createFile mem order .v0_1_0
      (fromProtobuf order rowSchema) = .ok t := ⟨_, rfl⟩
  obtain ⟨t₂, ht₂⟩ : ∃ t₂, CSTableWriter.createFile mem' order .v0_1_0
      (fromProtobuf order rowSchema) = .ok t₂ := ⟨_, rfl⟩
  have hrows : csv.dataRows = [[[0x78], [0x31]], [[], [0x32]]] := by
    have hfirst : csv.readNextRow.2.2.readNextRow =
        (true, [[0x78], [0x31]], ⟨[0x3b, 0x32, 0x0a], 0x3b, 0x0a, 0x22⟩) := by decide +kernel
    have hsecond : (⟨[0x3b, 0x32, 0x0a], 0x3b, 0x0a, 0x22⟩ : CSVInputStream).readNextRow =
        (true, [[], [0x32]], ⟨[], 0x3b, 0x0a, 0x22⟩) := by decide +kernel
    have hlast : (⟨[], 0x3b, 0x0a, 0x22⟩ : CSVInputStream).readNextRow =
        (false, [[]], ⟨[], 0x3b, 0x0a, 0x22⟩) := by decide +kernel
    exact (CSVInputStream.rows_of_true hfirst).trans
      (congrArg _ (CSVInputStream.rows_singleton hsecond hlast))
  have hheader : csv.header = [[0x62], [0x61]] := by decide +kernel
  have hflat : FlatSchema rowSchema := by
    intro f hf
    simp only [rowSchema, List.mem_cons, List.not_mem_nil, or_false] at hf
    rcases hf with rfl | rfl | rfl <;> exact ⟨_, _, _, _, rfl⟩
  have htells : List.Forall₂ (fun row record =>
      SaysRecord ops rowSchema csv.header row.2 row.1 record) csv.dataRows.zipIdx rowRecords := by
    rw [hrows, hheader]
    exact rowRecords_said ops
  have hdoubles : NoDoubles rowSchema := by
    unfold NoDoubles
    decide
  obtain ⟨u, v, himport, hadd, hcommit⟩ := csvRecords hflat ⟨⟨by decide, by decide⟩, trivial,
    trivial, trivial, trivial⟩ (by decide) hdoubles ht ht₂ (by rw [hheader]; decide)
    (by rw [hheader]; decide) (by rw [hheader]; decide) htells rowRecords_conform
  obtain ⟨v', hv'⟩ : ∃ v', v.commit mem' = .ok v' := by
    obtain rfl : (CxxM.exec (addRecords t₂.schema
        (rowRecords.map fun record => (record, rowSchema))) t₂).2 = v := congrArg Prod.snd hadd
    cases ht₂
    exact Result.exists_eq_ok (by decide +kernel)
  obtain ⟨u', hu', hfile⟩ := hcommit v' hv'
  exact ⟨t, t₂, u, v, u', v', ht, ht₂, himport, hadd, hv', hu', hfile⟩

end RecordShredder

end CStable
