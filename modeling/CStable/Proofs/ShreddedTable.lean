import CStable.Proofs.Reached
import CStable.Proofs.Shredding
import CStable.Proofs.TableV1

/-!
# `CStable.Proofs.ShreddedTable`: what an accepted and a rejected record do to a table

On a table with the flat columns of its schema the column at a position is a leaf of
the schema, and an accepted record adds the stripe of its content to it
(`addRecordFromProtobuf_ok`).

* `shreddedLevels`: the levels of what is added fit the column.
* `startsOneRow_iff`: what is added starts one row exactly when no field that is not
  repeated occurs twice.
* `rejectedRecord`: a rejected record leaves what was written before the failure.
-/

set_option autoImplicit false

namespace CStable

open TableSchema (FlatColumn listFlatColumnsOf)
open Support Support.Striping

namespace CSTableWriter

/-! ### Columns and leaves -/

/-- The column found for a name has the name. The search is by name, and there may be more than
one. -/
theorem name_of_getColumnWriter {t : CSTableWriter} {name : Bytes} {i : Nat}
    (h : t.getColumnWriter name = .ok i) : ∃ col, t.columns[i]? = some col ∧
      col.column_name = name := by
  unfold getColumnWriter at h
  split at h
  · next j hfind =>
    cases h
    obtain ⟨hlt, heq, -⟩ := List.findIdx?_eq_some_iff_getElem.mp hfind
    exact ⟨_, List.getElem?_eq_getElem hlt, eq_of_beq heq⟩
  · cases h

/-- The column at a position is the leaf at this position of the schema. -/
theorem OwnSchema.getElem?_columns {mem : Uninit} {t : CSTableWriter} (h : t.OwnSchema mem)
    (i : Nat) : t.columns[i]? =
      (schemaPaths t.schema)[i]?.map fun p => (p.flat [] 0 0).config mem i := by
  rw [h.columns, TableSchema.flatColumns, listFlatColumnsOf_eq, List.getElem?_mapIdx,
    List.getElem?_map, Option.map_map]
  rfl

/-- So the names of the columns are the dotted names of the leaves. -/
theorem OwnSchema.map_column_name {mem : Uninit} {t : CSTableWriter} (h : t.OwnSchema mem) :
    t.columns.map ColumnConfig.column_name = namesOf [] (schemaPaths t.schema) := by
  refine List.ext_getElem? fun i => ?_
  rw [List.getElem?_map, h.getElem?_columns, namesOf, List.getElem?_map, Option.map_map]
  rfl

/-- The writer found for a name is the one of the column of this name, when no earlier column
has it too. -/
theorem getColumnWriter_eq_ok {t : CSTableWriter}
    (hnames : (t.columns.map ColumnConfig.column_name).Nodup) {i : Nat} {col : ColumnConfig}
    (hcol : t.columns[i]? = some col) (name : Bytes) :
    t.getColumnWriter name = .ok i ↔ name = col.column_name := by
  obtain ⟨k, hget, -, hunique⟩ := getColumnWriter_eq hnames (List.mem_iff_getElem?.mpr ⟨i, hcol⟩)
  constructor
  · intro h
    unfold getColumnWriter at h
    split at h
    · next j hfind =>
      cases h
      obtain ⟨hlt, heq, -⟩ := List.findIdx?_eq_some_iff_getElem.mp hfind
      rw [(List.getElem?_eq_some_iff.mp hcol).2] at heq
      exact (beq_iff_eq.mp heq).symm
    · cases h
  · rintro rfl
    rw [hget, hunique i col hcol rfl]

end CSTableWriter

namespace RecordShredder

open CSTableWriter (OwnSchema Reached keptByWrites_ownSchema)

/-- On a table with distinct names the calls on the column at a position are those
for its name. -/
theorem callsAt_eq {t : CSTableWriter} (hnames : (t.columns.map ColumnConfig.column_name).Nodup)
    {i : Nat} {col : ColumnConfig} (hcol : t.columns[i]? = some col) (steps : List Step) :
    callsAt t steps i = callsFor col.column_name steps := by
  refine List.filterMap_congr fun s _ => ?_
  cases s with
  | fail e => rfl
  | write column r d arg =>
    cases arg with
    | error e => rfl
    | ok arg => exact if_congr (CSTableWriter.getColumnWriter_eq_ok hnames hcol column) rfl rfl

/-! ### An accepted record -/

/-- The outcome of a record is that of its steps, after which the row is counted. A record that
raises is not counted. -/
theorem exec_addRecord (schema_ : TableSchema) (msg : MessageObject) (schema : MessageSchema)
    (t : CSTableWriter) :
    CxxM.exec (addRecordFromProtobuf schema_ msg schema) t =
      match CxxM.exec (execSteps (recordSteps schema_ msg schema)) t with
      | (.ok (), t₁) => (.ok (), t₁.addRow)
      | (.error e, t₁) => (.error e, t₁) := by
  unfold addRecordFromProtobuf recordSteps
  rw [addProtoRecordFields_eq, CxxM.exec_bind]
  rcases CxxM.exec (execSteps (fieldStepsOf 0 0 0 msg (some schema) [] schema_)) t with ⟨result, t₁⟩
  cases result <;> rfl

/-- What an accepted record does to the table: one row more, and in every column the
stripe of what the record holds there. -/
structure Shredded (t t' : CSTableWriter) (msg : MessageObject) (msg_schema : MessageSchema) :
    Prop where
  version : t'.version = t.version
  schema : t'.schema = t.schema
  columns : t'.columns = t.columns
  num_rows : t'.num_rows = t.num_rows + 1
  length : t'.column_writers.length = t.column_writers.length
  slots : ∀ (i : Nat) (p : LeafPath) (slot : ColumnSlot), (schemaPaths t.schema)[i]? = some p →
    t.column_writers[i]? = some slot → ∃ slot' c, t'.column_writers[i]? = some slot' ∧
      HasContent p.type p.leaf p.parents msg (some msg_schema) c ∧ Present p.hops c ∧
      slot'.history = slot.history ++ (stripe p.hops 0 0 0 c).map toCall ∧
      ∀ w, slot.writer = .v1 w →
        slot'.writer = .v1 (w.callAll ((stripe p.hops 0 0 0 c).map toCall)).1 ∧
          (w.callAll ((stripe p.hops 0 0 0 c).map toCall)).2 = (stripe p.hops 0 0 0 c).map toCall

/-- An accepted record has made the calls of its steps, which are for each column the stripe of
what the message holds there. -/
theorem addRecordFromProtobuf_ok {mem : Uninit} {t t' : CSTableWriter} {msg : MessageObject}
    {schema : MessageSchema} (ht : t.OwnSchema mem)
    (hnames : (t.columns.map ColumnConfig.column_name).Nodup)
    (h : CxxM.exec (addRecordFromProtobuf t.schema msg schema) t = (.ok (), t')) :
    Shredded t t' msg schema := by
  rw [exec_addRecord] at h
  rcases hrun : CxxM.exec (execSteps (recordSteps t.schema msg schema)) t with ⟨result, t₁⟩
  rw [hrun] at h
  cases result with
  | error e => cases h
  | ok u =>
    cases h
    obtain ⟨hwrites, hwrote⟩ := execSteps_ok hrun
    refine ⟨hwrote.version, hwrote.schema, hwrote.columns,
      congrArg (· + 1) hwrote.num_rows, hwrote.length, fun i p slot hp hslot => ?_⟩
    obtain ⟨slot', hslot', hhistory, hwriter⟩ := hwrote.slots i slot hslot
    have hcol : t.columns[i]? = some ((p.flat [] 0 0).config mem i) := by
      rw [ht.getElem?_columns, hp]
      rfl
    have hnames' : (namesOf [] (schemaPaths t.schema)).Nodup := ht.map_column_name ▸ hnames
    -- the calls on the column are the stripe of the leaf at its position
    obtain ⟨c, hc, hpresent, hcalls⟩ := fieldStepsOf_calls 0 0 0 msg (some schema) [] t.schema
      hnames' (fun s hs => by
        obtain ⟨column, r, d, arg, -, hs, -⟩ := hwrites s hs
        exact ⟨column, r, d, arg, hs⟩) p (List.mem_iff_getElem?.mpr ⟨i, hp⟩)
    have hat : callsAt t (recordSteps t.schema msg schema) i =
        (stripe p.hops 0 0 0 c).map toCall := by
      rw [callsAt_eq hnames hcol]
      exact hcalls
    rw [hat] at hhistory hwriter
    exact ⟨slot', c, hslot', hc, hpresent, hhistory, hwriter⟩

/-! ### Levels -/

/-- A value of a message never becomes a null. -/
theorem protoArg_ne_null {type : LeafType} {o : MessageObject} {v : WriteArg}
    (h : protoArg type o = .ok v) : v ≠ .null := by
  have hmap : ∀ {α : Type} {x : Result α} {f : α → WriteArg}, x.map f = .ok v →
      (∀ a, f a ≠ .null) → v ≠ .null := by
    intro α x f hx hf
    cases x with
    | error e => cases hx
    | ok a =>
      cases hx
      exact hf a
  unfold protoArg at h
  split at h
  all_goals first
    | exact hmap h fun a => WriteArg.noConfusion
    | cases h

/-- No value of a message is a null, at any depth. So an entry at the maximal level always has a
value. -/
theorem HasContent.all_ne_null {type : LeafType} {leaf : PathField} {parents : List PathField} :
    ∀ {msg : MessageObject} {schema? : Option MessageSchema}
      {c : Nest WriteArg (LeafPath.hopsOf leaf parents)},
      HasContent type leaf parents msg schema? c →
        Nest.All (· ≠ .null) (LeafPath.hopsOf leaf parents) c := by
  induction parents with
  | nil =>
    rintro msg schema? c ⟨schema, id, os, -, -, hall⟩ v hv
    obtain ⟨o, -, ho⟩ := exists_of_mem_right hall hv
    exact protoArg_ne_null ho
  | cons f fs ih =>
    rintro msg schema? c ⟨schema, id, os, -, -, hall⟩ c' hc'
    obtain ⟨o, -, o_schema, -, ho⟩ := exists_of_mem_right hall hc'
    exact ih ho

/-- A call whose levels are those of its column at most, with a value exactly at the
definition level of the column. -/
structure FitsColumn (col : ColumnConfig) (c : WriteCall) : Prop where
  rlvl : c.rlvl ≤ col.rlevel_max
  dlvl : c.dlvl ≤ col.dlevel_max
  value : c.arg ≠ .null ↔ c.dlvl = col.dlevel_max
  null : c.arg = .null ↔ c.dlvl < col.dlevel_max

/-- An entry whose levels fit is a call that fits: a null below the highest definition level, a
value at it. -/
theorem FitsColumn.of_fits {col : ColumnConfig} {e : Entry WriteArg}
    (h : Fits col.rlevel_max col.dlevel_max e) (hvalue : ∀ v, e.value = some v → v ≠ .null) :
    FitsColumn col (toCall e) := by
  have hnull : (toCall e).arg = .null ↔ e.value = none := by
    unfold toCall
    cases hv : e.value with
    | none => exact iff_of_true rfl rfl
    | some v => exact iff_of_false (hvalue v hv) (Option.some_ne_none v)
  have hsome : e.value = none ↔ e.d ≠ col.dlevel_max := by
    rw [← Option.not_isSome_iff_eq_none, h.value]
  have hlt : (e.d ≠ col.dlevel_max) ↔ e.d < col.dlevel_max := by
    have hle := h.d
    omega
  exact ⟨h.r, h.d, (not_congr (hnull.trans hsome)).trans not_not, (hnull.trans hsome).trans hlt⟩

/-- The levels of an accepted record fit: every column of the schema gets entries,
and nothing but calls that fit it. -/
theorem shreddedLevels {mem : Uninit} {t t' : CSTableWriter} {msg : MessageObject}
    {schema : MessageSchema} (ht : Reached mem t)
    (hnames : ((TableSchema.flatColumns mem t.schema).map ColumnConfig.column_name).Nodup)
    (h : CxxM.exec (addRecordFromProtobuf t.schema msg schema) t = (.ok (), t')) :
    t'.columns = TableSchema.flatColumns mem t.schema ∧
      t'.column_writers.length = (TableSchema.flatColumns mem t.schema).length ∧
      ∀ (i : Nat) (col : ColumnConfig), (TableSchema.flatColumns mem t.schema)[i]? = some col →
        ∃ slot slot' added, t.column_writers[i]? = some slot ∧
          t'.column_writers[i]? = some slot' ∧ slot'.history = slot.history ++ added ∧
          added ≠ [] ∧ ∀ c ∈ added, FitsColumn col c := by
  have hown := ht.ownSchema
  rw [← hown.columns] at hnames
  have hshredded := addRecordFromProtobuf_ok hown hnames h
  rw [← hown.columns]
  refine ⟨hshredded.columns, hshredded.length.trans hown.length, fun i col hcol => ?_⟩
  have hslot : i < t.column_writers.length :=
    hown.length ▸ (List.getElem?_eq_some_iff.mp hcol).1
  rw [hown.getElem?_columns] at hcol
  obtain ⟨p, hp, rfl⟩ := Option.map_eq_some_iff.mp hcol
  obtain ⟨slot', c, hslot', hc, hpresent, hhistory, -⟩ :=
    hshredded.slots i p _ hp (List.getElem?_eq_getElem hslot)
  refine ⟨_, slot', _, List.getElem?_eq_getElem hslot, hslot', hhistory, ?_, fun call hcall => ?_⟩
  · intro hnil
    exact stripe_ne_nil _ _ _ _ _ (List.map_eq_nil_iff.mp hnil)
  · obtain ⟨e, he, rfl⟩ := List.mem_map.mp hcall
    exact FitsColumn.of_fits (hpresent.fits (Nat.le_refl 0) e he)
      (hc.all_ne_null.stripe e he)

/-- A repeated sub-record with an optional field that is missing once: levels of both kinds at
once. -/
theorem shreddedLevels_nested :
    let mem : Uninit := zeroUninit
    let order : HashOrder := ⟨id, fun _ => .refl _⟩
    let schema : TableSchema := [.subrecord [0x61]
      [.leaf [0x62] ⟨.UNSIGNED_INT, by decide⟩ .UINT64_LEB128 false true] true false]
    let msg : MessageObject := .object 0 [.object 1 [.scalar 2 (.uint64 7)], .object 1 []]
    let msg_schema : MessageSchema := [.object 1 [0x61] true false
      [.scalar 2 [0x62] ⟨.UINT64, by decide⟩ false true]]
    ∃ t t', CSTableWriter.createFile mem order .v0_1_0 schema = .ok t ∧
      CxxM.exec (addRecordFromProtobuf t.schema msg msg_schema) t = (.ok (), t') ∧
      ∃ slot slot' added, t.column_writers[0]? = some slot ∧ t'.column_writers[0]? = some slot' ∧
        slot'.history = slot.history ++ added ∧ added ≠ [] ∧
        ∀ c ∈ added, FitsColumn ⟨0, [0x61, 0x2e, 0x62], 13, 2, 1, 2, 0, 0⟩ c := by
  intro mem order schema msg msg_schema
  let t : CSTableWriter := ⟨.v0_1_0, schema, PageStore.new (PageManager.new .v0_1_0 [] 0),
    TableSchema.flatColumns mem schema,
    [⟨.v1 (v1.ColumnWriter.new 1 2 (v1.ColumnWriter.newDataWriter .UINT64_LEB128 2)), []⟩],
    0, 0, none, none⟩
  have hcreate : CSTableWriter.createFile mem order .v0_1_0 schema = .ok t := rfl
  have hexec : CxxM.exec (addRecordFromProtobuf t.schema msg msg_schema) t =
      (.ok (), (CxxM.exec (addRecordFromProtobuf t.schema msg msg_schema) t).2) :=
    Prod.ext (by decide +kernel) rfl
  have hreached : Reached mem t := .createFile hcreate
  obtain ⟨-, -, hcolumns⟩ := shreddedLevels hreached (by decide +kernel) hexec
  exact ⟨t, _, hcreate, hexec, hcolumns 0 _ rfl⟩

/-! ### Rows -/

mutual

/-- The sub-records of the column have leaves. -/
def HasLeaf (field : Column) : Prop :=
  match field with
  | .leaf _ _ _ _ _ => True
  | .subrecord _ subschema _ _ => schemaPaths subschema ≠ [] ∧ HaveLeaves subschema

/-- The sub-records of the columns have leaves. -/
def HaveLeaves (fields : List Column) : Prop :=
  match fields with
  | [] => True
  | f :: fs => HasLeaf f ∧ HaveLeaves fs

end

mutual

/-- From the field down to the first one that is repeated, no field occurs twice in
the message. -/
def OnceIn (msg : MessageObject) (schema : MessageSchema) (field : Column) : Prop :=
  match field with
  | .leaf name _ _ repeated _ => repeated = true ∨
    ∀ id os, occurrencesOf schema name msg = .ok (id, os) → os.length ≤ 1
  | .subrecord name subschema repeated _ => repeated = true ∨
    ∀ id os, occurrencesOf schema name msg = .ok (id, os) → os.length ≤ 1 ∧
      ∀ o ∈ os, ∀ o_schema, schema.fieldSchema id = .ok (some o_schema) →
        OnceInAll o o_schema subschema

/-- No field of a schema occurs twice in the message, down to the repeated ones. -/
def OnceInAll (msg : MessageObject) (schema : MessageSchema) (fields : List Column) : Prop :=
  match fields with
  | [] => True
  | f :: fs => OnceIn msg schema f ∧ OnceInAll msg schema fs

end

/-- Content is found only where the message has a schema to look fields up in. -/
theorem HasContent.exists_schema {type : LeafType} {leaf : PathField} {parents : List PathField}
    {msg : MessageObject} {schema? : Option MessageSchema}
    {c : Nest WriteArg (LeafPath.hopsOf leaf parents)}
    (h : HasContent type leaf parents msg schema? c) : ∃ schema, schema? = some schema := by
  cases parents with
  | nil =>
    obtain ⟨schema, id, os, hschema, -⟩ := h
    exact ⟨schema, hschema⟩
  | cons f fs =>
    obtain ⟨schema, id, os, hschema, -⟩ := h
    exact ⟨schema, hschema⟩

/-- A message has one content on the way to a leaf. The occurrences are looked up by name and
id, which leaves no choice. -/
theorem HasContent.unique {type : LeafType} {leaf : PathField} {parents : List PathField} :
    ∀ {msg : MessageObject} {schema? : Option MessageSchema}
      {c c' : Nest WriteArg (LeafPath.hopsOf leaf parents)},
      HasContent type leaf parents msg schema? c → HasContent type leaf parents msg schema? c' →
        c = c' := by
  -- schema and field determine the occurrences, and these the content, level by level
  induction parents with
  | nil =>
    rintro msg schema? c c' ⟨schema, id, os, hschema, hocc, hall⟩
      ⟨schema', id', os', hschema', hocc', hall'⟩
    cases hschema.symm.trans hschema'
    cases hocc.symm.trans hocc'
    refine List.right_unique_forall₂' (fun o v v' hv hv' => ?_) hall hall'
    cases hv.symm.trans hv'
    rfl
  | cons f fs ih =>
    rintro msg schema? c c' ⟨schema, id, os, hschema, hocc, hall⟩
      ⟨schema', id', os', hschema', hocc', hall'⟩
    cases hschema.symm.trans hschema'
    cases hocc.symm.trans hocc'
    refine List.right_unique_forall₂' ?_ hall hall'
    rintro o v v' ⟨o_schema, ho, hv⟩ ⟨o_schema', ho', hv'⟩
    cases ho.symm.trans ho'
    exact ih hv hv'

/-- A leaf of the message itself has as many values as its field has occurrences. -/
theorem HasContent.length_leaf {type : LeafType} {leaf : PathField} {msg : MessageObject}
    {schema : MessageSchema} {vs : List WriteArg}
    (h : HasContent type leaf [] msg (some schema) (vs : Nest WriteArg (LeafPath.hopsOf leaf [])))
    {id : UInt32} {os : List MessageObject}
    (hocc : occurrencesOf schema leaf.name msg = .ok (id, os)) : os.length = vs.length := by
  obtain ⟨schema', id', os', hschema, hocc', hall⟩ := h
  cases hschema
  cases hocc.symm.trans hocc'
  exact hall.length_eq

/-- Below a field the content is that of its occurrences, one by one, each with the schema of the
field. -/
theorem HasContent.occurrences {type : LeafType} {leaf f : PathField} {parents : List PathField}
    {msg : MessageObject} {schema : MessageSchema}
    {cs : List (Nest WriteArg (LeafPath.hopsOf leaf parents))}
    (h : HasContent type leaf (f :: parents) msg (some schema)
      (cs : Nest WriteArg (LeafPath.hopsOf leaf (f :: parents))))
    {id : UInt32} {os : List MessageObject}
    (hocc : occurrencesOf schema f.name msg = .ok (id, os)) :
    List.Forall₂ (fun o c => ∃ o_schema, schema.fieldSchema id = .ok o_schema ∧
      HasContent type leaf parents o o_schema c) os cs := by
  obtain ⟨schema', id', os', hschema, hocc', hall⟩ := h
  cases hschema
  cases hocc.symm.trans hocc'
  exact hall

/-- A leaf that is a field of the message: its calls start one row when it is repeated, or occurs
once at most. -/
theorem startsOnce_leaf {msg : MessageObject} {schema : MessageSchema} {name : Bytes}
    {type : LeafType} {encoding : ColumnEncoding} {repeated optional : Bool}
    (hcontent : ∀ p ∈ columnPaths (.leaf name type encoding repeated optional),
      ∃ c, HasContent p.type p.leaf p.parents msg (some schema) c) :
    (∀ p ∈ columnPaths (.leaf name type encoding repeated optional), ∀ c,
      HasContent p.type p.leaf p.parents msg (some schema) c → StartsOnce p.hops c) ↔
      OnceIn msg schema (.leaf name type encoding repeated optional) := by
  have hmem : (⟨[], ⟨name, repeated, optional⟩, type, encoding⟩ : LeafPath) ∈
      columnPaths (.leaf name type encoding repeated optional) := List.mem_singleton_self _
  rw [OnceIn]
  constructor
  · intro h
    obtain ⟨cs, hcs⟩ := hcontent _ hmem
    refine (h _ hmem cs hcs).imp id fun hlen id os hocc => ?_
    have hsame := hcs.length_leaf hocc
    rw [hsame]
    exact hlen.1
  · intro h p hp cs hcs
    rw [columnPaths, List.mem_singleton] at hp
    subst hp
    refine h.imp id fun hlen => ⟨?_, fun _ _ => trivial⟩
    obtain ⟨schema', id', os', hschema, hocc', hall⟩ := hcs
    cases hschema
    exact hall.length_eq ▸ hlen id' os' hocc'

/-- Where a field is not repeated, a leaf below it that starts once has at most one occurrence of
the field above it, and starts once in that one. -/
theorem HasContent.startsOnce_occurrences {type : LeafType} {leaf f : PathField}
    {parents : List PathField} {msg : MessageObject} {schema : MessageSchema}
    {cs : List (Nest WriteArg (LeafPath.hopsOf leaf parents))}
    (h : HasContent type leaf (f :: parents) msg (some schema)
      (cs : Nest WriteArg (LeafPath.hopsOf leaf (f :: parents))))
    (hrep : f.repeated = false)
    (hstarts : StartsOnce (LeafPath.hopsOf leaf (f :: parents))
      (cs : Nest WriteArg (LeafPath.hopsOf leaf (f :: parents))))
    {id : UInt32} {os : List MessageObject}
    (hocc : occurrencesOf schema f.name msg = .ok (id, os)) :
    os.length ≤ 1 ∧ ∀ o ∈ os, ∃ o_schema c, schema.fieldSchema id = .ok o_schema ∧
      HasContent type leaf parents o o_schema c ∧ StartsOnce (LeafPath.hopsOf leaf parents) c := by
  have hall := h.occurrences hocc
  rcases hstarts with habs | ⟨hlen, honce⟩
  · have hrep' : f.repeated = true := habs
    rw [hrep] at hrep'
    cases hrep'
  · refine ⟨hall.length_eq ▸ hlen, fun o ho => ?_⟩
    obtain ⟨c, hc, o_schema, hschema, hcontent⟩ := exists_of_mem_left hall ho
    exact ⟨o_schema, c, hschema, hcontent, honce c hc⟩

mutual

/-- The columns below a field start one row each exactly when the field occurs once,
down to the repeated ones. -/
theorem startsOnce_field {msg : MessageObject} {schema : MessageSchema} (field : Column)
    (hleaf : HasLeaf field) (hcontent : ∀ p ∈ columnPaths field,
      ∃ c, HasContent p.type p.leaf p.parents msg (some schema) c) :
    (∀ p ∈ columnPaths field, ∀ c, HasContent p.type p.leaf p.parents msg (some schema) c →
      StartsOnce p.hops c) ↔ OnceIn msg schema field := by
  match field with
  | .leaf name type encoding repeated optional => exact startsOnce_leaf hcontent
  | .subrecord name subschema repeated optional =>
    rw [OnceIn, columnPaths]
    rw [columnPaths] at hcontent
    have hbelow : ∀ q ∈ schemaPaths subschema, q.below ⟨name, repeated, optional⟩ ∈
        (schemaPaths subschema).map (LeafPath.below ⟨name, repeated, optional⟩) :=
      fun q hq => List.mem_map_of_mem hq
    constructor
    · intro h
      cases hrep : repeated with
      | true => exact Or.inl rfl
      | false =>
        -- not repeated: every leaf starts once in the one occurrence there may be
        have honce : ∀ q ∈ schemaPaths subschema, ∀ id os,
            occurrencesOf schema name msg = .ok (id, os) → os.length ≤ 1 ∧
              ∀ o ∈ os, ∃ o_schema c, schema.fieldSchema id = .ok o_schema ∧
                HasContent q.type q.leaf q.parents o o_schema c ∧ StartsOnce q.hops c := by
          intro q hq id os hocc
          obtain ⟨cs, hcs⟩ := hcontent _ (hbelow q hq)
          exact HasContent.startsOnce_occurrences hcs hrep (h _ (hbelow q hq) cs hcs) hocc
        refine Or.inr fun id os hocc => ?_
        obtain ⟨q, hq⟩ := List.exists_mem_of_ne_nil _ hleaf.1
        refine ⟨(honce q hq id os hocc).1, fun o ho o_schema hschema => ?_⟩
        have hsub : ∀ q ∈ schemaPaths subschema, ∃ c,
            HasContent q.type q.leaf q.parents o (some o_schema) c ∧ StartsOnce q.hops c := by
          intro q hq
          obtain ⟨o_schema', c, hschema', hc, hstarts⟩ := (honce q hq id os hocc).2 o ho
          cases hschema.symm.trans hschema'
          exact ⟨c, hc, hstarts⟩
        refine (startsOnce_fields subschema hleaf.2 fun q hq => ?_).mp fun q hq c hc => ?_
        · obtain ⟨c, hc, -⟩ := hsub q hq
          exact ⟨c, hc⟩
        · obtain ⟨c', hc', hstarts⟩ := hsub q hq
          rw [hc.unique hc']
          exact hstarts
    · intro h p hp cs hcs
      obtain ⟨q, hq, rfl⟩ := List.mem_map.mp hp
      obtain ⟨schema', field_id, os, hschema, hocc, hall⟩ := hcs
      cases hschema
      refine h.imp id fun honce => ?_
      obtain ⟨hlen, hsub⟩ := honce field_id os hocc
      refine ⟨hall.length_eq ▸ hlen, fun c hc => ?_⟩
      obtain ⟨o, ho, o_schema, hschema, hcontent'⟩ := exists_of_mem_right hall hc
      obtain ⟨o_schema, rfl⟩ := hcontent'.exists_schema
      -- below the occurrence every leaf has a content, as it has below all of them
      refine (startsOnce_fields subschema hleaf.2 fun q' hq' => ?_).mpr
        (hsub o ho o_schema hschema) q hq c hcontent'
      obtain ⟨cs', hcs'⟩ := hcontent _ (hbelow q' hq')
      obtain ⟨c', -, o_schema', hschema', hc'⟩ :=
        exists_of_mem_left (HasContent.occurrences hcs' hocc) ho
      cases hschema.symm.trans hschema'
      exact ⟨c', hc'⟩

/-- The same for the columns of a level, field by field. -/
theorem startsOnce_fields {msg : MessageObject} {schema : MessageSchema} (fields : List Column)
    (hleaf : HaveLeaves fields) (hcontent : ∀ p ∈ schemaPaths fields,
      ∃ c, HasContent p.type p.leaf p.parents msg (some schema) c) :
    (∀ p ∈ schemaPaths fields, ∀ c, HasContent p.type p.leaf p.parents msg (some schema) c →
      StartsOnce p.hops c) ↔ OnceInAll msg schema fields := by
  match fields with
  | [] =>
    rw [OnceInAll]
    refine iff_of_true (fun p hp => ?_) trivial
    cases hp
  | f :: fs =>
    rw [schemaPaths] at hcontent ⊢
    rw [OnceInAll, ← startsOnce_field f hleaf.1 fun p hp =>
      hcontent p (List.mem_append_left _ hp), ← startsOnce_fields fs hleaf.2 fun p hp =>
      hcontent p (List.mem_append_right _ hp)]
    constructor
    · intro h
      exact ⟨fun p hp => h p (List.mem_append_left _ hp),
        fun p hp => h p (List.mem_append_right _ hp)⟩
    · rintro ⟨hf, hfs⟩ p hp
      rcases List.mem_append.mp hp with hp | hp
      · exact hf p hp
      · exact hfs p hp

end

/-- Calls that start one row. -/
def StartsRow (added : List WriteCall) : Prop :=
  ∃ c cs, added = c :: cs ∧ c.rlvl = 0 ∧ ∀ c' ∈ cs, 1 ≤ c'.rlvl

/-- The calls of a nest start one row exactly when the nest starts once. A repeated field at the
top makes one entry of level zero, and the others are above. -/
theorem stripe_startsRow_iff {hs : List Hop} {d : Nat} {c : Nest WriteArg hs} :
    StartsRow ((stripe hs 0 0 d c).map toCall) ↔ StartsOnce hs c := by
  rw [← tail_pos_iff (d := d)]
  obtain ⟨e, es, heq, hr⟩ := stripe_cons hs 0 0 d c
  rw [heq, List.map_cons, List.tail_cons]
  constructor
  · rintro ⟨c₀, cs, hcons, -, hpos⟩ e' he'
    obtain ⟨-, rfl⟩ := List.cons.inj hcons
    exact hpos _ (List.mem_map_of_mem he')
  · intro hpos
    refine ⟨_, _, rfl, hr, fun c' hc' => ?_⟩
    obtain ⟨e', he', rfl⟩ := List.mem_map.mp hc'
    exact hpos e' he'

/-- Every column got calls that start one row. -/
def StartsOneRow (t t' : CSTableWriter) : Prop :=
  t'.column_writers.length = t.column_writers.length ∧
    ∀ (i : Nat) (slot slot' : ColumnSlot), t.column_writers[i]? = some slot →
      t'.column_writers[i]? = some slot' →
        ∃ added, slot'.history = slot.history ++ added ∧ StartsRow added

/-- What a record adds starts one row in every column exactly when no field that is
not repeated occurs twice in it. -/
theorem Shredded.startsOneRow_iff {mem : Uninit} {t t' : CSTableWriter} {msg : MessageObject}
    {schema : MessageSchema} (h : Shredded t t' msg schema) (ht : t.OwnSchema mem)
    (hleaf : HaveLeaves t.schema) : StartsOneRow t t' ↔ OnceInAll msg schema t.schema := by
  have hslot : ∀ (i : Nat) (p : LeafPath), (schemaPaths t.schema)[i]? = some p →
      ∃ slot, t.column_writers[i]? = some slot := by
    intro i p hp
    have hcol : t.columns[i]? = some ((p.flat [] 0 0).config mem i) := by
      rw [ht.getElem?_columns, hp]
      rfl
    exact ⟨_, List.getElem?_eq_getElem (ht.length ▸ (List.getElem?_eq_some_iff.mp hcol).1)⟩
  have hcontent : ∀ p ∈ schemaPaths t.schema,
      ∃ c, HasContent p.type p.leaf p.parents msg (some schema) c := by
    intro p hp
    obtain ⟨i, hi⟩ := List.mem_iff_getElem?.mp hp
    obtain ⟨slot, hs⟩ := hslot i p hi
    obtain ⟨slot', c, -, hc, -⟩ := h.slots i p slot hi hs
    exact ⟨c, hc⟩
  -- row by row of the table against leaf by leaf of the schema
  rw [← startsOnce_fields t.schema hleaf hcontent]
  constructor
  · rintro ⟨-, hrow⟩ p hp c hc
    obtain ⟨i, hi⟩ := List.mem_iff_getElem?.mp hp
    obtain ⟨slot, hs⟩ := hslot i p hi
    obtain ⟨slot', c', hs', hc', -, hhistory, -⟩ := h.slots i p slot hi hs
    obtain ⟨added, hadded, hstarts⟩ := hrow i slot slot' hs hs'
    rw [List.append_cancel_left (hhistory.symm.trans hadded).symm] at hstarts
    rw [hc.unique hc']
    exact stripe_startsRow_iff.mp hstarts
  · intro honce
    refine ⟨h.length, fun i slot slot' hs hs' => ?_⟩
    have hi : i < t.columns.length := ht.length ▸ (List.getElem?_eq_some_iff.mp hs).1
    have hcol := List.getElem?_eq_getElem hi
    rw [ht.getElem?_columns] at hcol
    obtain ⟨p, hp, -⟩ := Option.map_eq_some_iff.mp hcol
    obtain ⟨slot'', c, hs'', hc, -, hhistory, -⟩ := h.slots i p slot hp hs
    cases hs'.symm.trans hs''
    exact ⟨_, hhistory, stripe_startsRow_iff.mpr
      (honce p (List.mem_iff_getElem?.mpr ⟨i, hp⟩) c hc)⟩

/-- Records one after the other, with the schemas of their messages. -/
def addRecords (schema_ : TableSchema) :
    List (MessageObject × MessageSchema) → CxxM CSTableWriter Unit
  | [] => pure ()
  | (msg, schema) :: records => do
    addRecordFromProtobuf schema_ msg schema
    addRecords schema_ records

/-- Each of the records starts one row in every column. -/
def EachStartsOneRow (schema_ : TableSchema) :
    List (MessageObject × MessageSchema) → CSTableWriter → Prop
  | [], _ => True
  | (msg, schema) :: records, t =>
    StartsOneRow t (CxxM.exec (addRecordFromProtobuf schema_ msg schema) t).2 ∧
      EachStartsOneRow schema_ records
        (CxxM.exec (addRecordFromProtobuf schema_ msg schema) t).2

/-- The rows of the table and of each of its columns grew by `n`. -/
def GrewBy (t t' : CSTableWriter) (n : Nat) : Prop :=
  t'.num_rows = t.num_rows + UInt64.ofNat n ∧
    ∀ (i : Nat) (slot : ColumnSlot), t.column_writers[i]? = some slot →
      ∃ slot' added, t'.column_writers[i]? = some slot' ∧
        slot'.history = slot.history ++ added ∧ added.countP (fun c => c.rlvl == 0) = n

/-- A row has one entry of the repetition level zero. -/
theorem StartsRow.countP {added : List WriteCall} (h : StartsRow added) :
    added.countP (fun c => c.rlvl == 0) = 1 := by
  obtain ⟨c, cs, rfl, hc, hpos⟩ := h
  rw [List.countP_cons_of_pos (by rw [hc]; rfl), List.countP_eq_zero.mpr fun c' hc' => ?_]
  have hne : c'.rlvl ≠ 0 := by
    have hle := hpos c' hc'
    omega
  simpa using hne

/-- A record that starts one row everywhere, in front of others that do. This is the step of the
induction over the records. -/
theorem GrewBy.cons {t t₁ t' : CSTableWriter} {n : Nat} (hrows : t₁.num_rows = t.num_rows + 1)
    (hstarts : StartsOneRow t t₁) (h : GrewBy t₁ t' n) : GrewBy t t' (n + 1) := by
  refine ⟨?_, fun i slot hslot => ?_⟩
  · rw [h.1, hrows, UInt64.add_assoc, Nat.add_comm n 1]
    exact congrArg (t.num_rows + ·) (UInt64.ofNat_add 1 n).symm
  · have hi : i < t₁.column_writers.length :=
      hstarts.1 ▸ (List.getElem?_eq_some_iff.mp hslot).1
    obtain ⟨added₁, hadded₁, hrow⟩ := hstarts.2 i slot _ hslot (List.getElem?_eq_getElem hi)
    obtain ⟨slot', added, hslot', hadded, hcount⟩ := h.2 i _ (List.getElem?_eq_getElem hi)
    refine ⟨slot', added₁ ++ added, hslot', ?_, ?_⟩
    · rw [hadded, hadded₁, List.append_assoc]
    · rw [List.countP_append, hrow.countP, hcount, Nat.add_comm]

/-- Over a run of accepted records: each starts one row in every column exactly when
in none of them a field that is not repeated occurs twice, and then the rows of every
column are counted by the table. -/
theorem eachStartsOneRow_iff {mem : Uninit} {t t' : CSTableWriter}
    {records : List (MessageObject × MessageSchema)} (ht : Reached mem t)
    (hnames : ((TableSchema.flatColumns mem t.schema).map ColumnConfig.column_name).Nodup)
    (hleaf : HaveLeaves t.schema)
    (h : CxxM.exec (addRecords t.schema records) t = (.ok (), t')) :
    (EachStartsOneRow t.schema records t ↔ ∀ r ∈ records, OnceInAll r.1 r.2 t.schema) ∧
      ((∀ r ∈ records, OnceInAll r.1 r.2 t.schema) → GrewBy t t' records.length) := by
  -- the schema of the table never changes, so it is that of the first table throughout
  suffices hrun : ∀ (records : List (MessageObject × MessageSchema)) (u : CSTableWriter),
      u.OwnSchema mem → u.schema = t.schema → CxxM.exec (addRecords t.schema records) u =
        (.ok (), t') →
      (EachStartsOneRow t.schema records u ↔ ∀ r ∈ records, OnceInAll r.1 r.2 t.schema) ∧
        ((∀ r ∈ records, OnceInAll r.1 r.2 t.schema) → GrewBy u t' records.length) from
    hrun records t ht.ownSchema rfl h
  intro records
  induction records with
  | nil =>
    intro u _ _ hexec
    cases hexec
    refine ⟨iff_of_true trivial fun r hr => ?_, fun _ => ⟨?_, fun i slot hslot => ?_⟩⟩
    · cases hr
    · exact (UInt64.add_zero _).symm
    · exact ⟨slot, [], hslot, (List.append_nil _).symm, rfl⟩
  | cons r records ih =>
    obtain ⟨msg, schema⟩ := r
    intro u hown hschema hexec
    rw [addRecords] at hexec
    rcases hrecord : CxxM.exec (addRecordFromProtobuf t.schema msg schema) u with ⟨result, u₁⟩
    cases result with
    | error e =>
      rw [CxxM.exec_bind_error hrecord] at hexec
      cases hexec
    | ok _ =>
      rw [CxxM.exec_bind_ok hrecord] at hexec
      have hown₁ : u₁.OwnSchema mem := by
        have hkeep := (keptByWrites_ownSchema mem).addRecord t.schema msg schema u hown
        rwa [hrecord] at hkeep
      rw [← hschema] at hrecord hleaf
      have hshredded := addRecordFromProtobuf_ok hown
        (by rw [hown.columns, hschema]; exact hnames) hrecord
      have hiff := hshredded.startsOneRow_iff hown hleaf
      obtain ⟨ih₁, ih₂⟩ := ih u₁ hown₁ (hshredded.schema.trans hschema) hexec
      rw [hschema] at hiff hrecord
      have hstep : EachStartsOneRow t.schema ((msg, schema) :: records) u ↔
          StartsOneRow u u₁ ∧ EachStartsOneRow t.schema records u₁ := by
        rw [EachStartsOneRow, hrecord]
      refine ⟨?_, fun honce => ?_⟩
      · rw [hstep, List.forall_mem_cons, hiff, ih₁]
      · rw [List.forall_mem_cons] at honce
        exact (ih₂ honce.2).cons hshredded.num_rows (hiff.mpr honce.1)

/-- Two records that have the optional field once and not at all: each starts one row, and the
column has grown by two. The record that has it twice is accepted and starts two rows. -/
theorem eachStartsOneRow_two_records :
    let mem : Uninit := zeroUninit
    let order : HashOrder := ⟨id, fun _ => .refl _⟩
    let schema : TableSchema :=
      [.leaf [0x61] ⟨.UNSIGNED_INT, by decide⟩ .UINT64_LEB128 false true]
    let msg_schema : MessageSchema := [.scalar 1 [0x61] ⟨.UINT64, by decide⟩ false true]
    let records := [(.object 0 [.scalar 1 (.uint64 7)], msg_schema), (.object 0 [], msg_schema)]
    let twice := [(.object 0 [.scalar 1 (.uint64 7), .scalar 1 (.uint64 8)], msg_schema)]
    ∃ t t' u, CSTableWriter.createFile mem order .v0_1_0 schema = .ok t ∧
      CxxM.exec (addRecords t.schema records) t = (.ok (), t') ∧
      CxxM.exec (addRecords t.schema twice) t = (.ok (), u) ∧
      EachStartsOneRow t.schema records t ∧ GrewBy t t' 2 ∧
      ¬ EachStartsOneRow t.schema twice t := by
  intro mem order schema msg_schema records twice
  let t : CSTableWriter := ⟨.v0_1_0, schema, PageStore.new (PageManager.new .v0_1_0 [] 0),
    TableSchema.flatColumns mem schema,
    [⟨.v1 (v1.ColumnWriter.new 0 1 (v1.ColumnWriter.newDataWriter .UINT64_LEB128 2)), []⟩],
    0, 0, none, none⟩
  have hcreate : CSTableWriter.createFile mem order .v0_1_0 schema = .ok t := rfl
  have hreached : Reached mem t := .createFile hcreate
  have hnames : ((TableSchema.flatColumns mem t.schema).map ColumnConfig.column_name).Nodup := by
    decide +kernel
  have hleaf : HaveLeaves t.schema := ⟨trivial, trivial⟩
  have hexec : CxxM.exec (addRecords t.schema records) t =
      (.ok (), (CxxM.exec (addRecords t.schema records) t).2) :=
    Prod.ext (by decide +kernel) rfl
  have hexec' : CxxM.exec (addRecords t.schema twice) t =
      (.ok (), (CxxM.exec (addRecords t.schema twice) t).2) :=
    Prod.ext (by decide +kernel) rfl
  obtain ⟨hiff, hgrew⟩ := eachStartsOneRow_iff hreached hnames hleaf hexec
  obtain ⟨hiff', -⟩ := eachStartsOneRow_iff hreached hnames hleaf hexec'
  have honce : ∀ r ∈ records, OnceInAll r.1 r.2 t.schema := by
    rintro r hr
    rcases List.mem_pair.mp hr with rfl | rfl
    all_goals
      refine ⟨Or.inr fun id os hos => ?_, trivial⟩
      cases hos
      decide
  refine ⟨t, _, _, hcreate, hexec, hexec', hiff.mpr honce, hgrew honce, fun htwice => ?_⟩
  rcases (hiff'.mp htwice _ List.mem_cons_self).1 with habs | hlength
  · cases habs
  · exact absurd (hlength _ _ rfl) (by decide)

/-- An optional field that occurs twice makes two rows of one record: the second value has the
repetition level zero as well. -/
theorem not_startsOneRow_twice :
    let mem : Uninit := zeroUninit
    let order : HashOrder := ⟨id, fun _ => .refl _⟩
    let schema : TableSchema :=
      [.leaf [0x61] ⟨.UNSIGNED_INT, by decide⟩ .UINT64_LEB128 false true]
    let msg_schema : MessageSchema := [.scalar 1 [0x61] ⟨.UINT64, by decide⟩ false true]
    let msg : MessageObject := .object 0 [.scalar 1 (.uint64 7), .scalar 1 (.uint64 8)]
    ∃ t t', CSTableWriter.createFile mem order .v0_1_0 schema = .ok t ∧
      (t.columns.map ColumnConfig.column_name).Nodup ∧ HaveLeaves t.schema ∧
      CxxM.exec (addRecordFromProtobuf t.schema msg msg_schema) t = (.ok (), t') ∧
      ¬ StartsOneRow t t' := by
  intro mem order schema msg_schema msg
  let t : CSTableWriter := ⟨.v0_1_0, schema, PageStore.new (PageManager.new .v0_1_0 [] 0),
    TableSchema.flatColumns mem schema,
    [⟨.v1 (v1.ColumnWriter.new 0 1 (v1.ColumnWriter.newDataWriter .UINT64_LEB128 2)), []⟩],
    0, 0, none, none⟩
  have hexec : CxxM.exec (addRecordFromProtobuf t.schema msg msg_schema) t =
      (.ok (), (CxxM.exec (addRecordFromProtobuf t.schema msg msg_schema) t).2) :=
    Prod.ext (by decide +kernel) rfl
  have hhistory : (CxxM.exec (addRecordFromProtobuf t.schema msg msg_schema) t).2.column_writers.map
      ColumnSlot.history = [[⟨0, 1, .unsignedInt 7⟩, ⟨0, 1, .unsignedInt 8⟩]] := by
    decide +kernel
  generalize (CxxM.exec (addRecordFromProtobuf t.schema msg msg_schema) t).2 = t' at hexec hhistory
  obtain ⟨slot', hslot', hcalls⟩ := List.map_eq_singleton_iff.mp hhistory
  refine ⟨t, t', rfl, by decide +kernel, ⟨trivial, trivial⟩, hexec, fun h => ?_⟩
  obtain ⟨added, hadded, c, cs, rfl, -, hpos⟩ := h.2 0 _ slot' rfl (by rw [hslot']; rfl)
  rw [hcalls] at hadded
  obtain ⟨-, rfl⟩ := List.cons.inj hadded
  exact absurd (hpos _ List.mem_cons_self) (by decide)

/-! ### A rejected record -/

/-- A rejected record is not counted as a row, and nothing is taken back: the writes of the
record are carried out in their order up to one that raises, and those before it stay in the
columns. -/
theorem rejectedRecord {schema_ : TableSchema} {msg : MessageObject} {schema : MessageSchema}
    {t t' : CSTableWriter} {e : Abort}
    (h : CxxM.exec (addRecordFromProtobuf schema_ msg schema) t = (.error e, t')) :
    ∃ done failing rest t₁, recordSteps schema_ msg schema = done ++ failing :: rest ∧
      StoppedAt t t₁ t' e done failing ∧ Wrote t t' (callsAt t done) := by
  rw [exec_addRecord] at h
  rcases hrun : CxxM.exec (execSteps (recordSteps schema_ msg schema)) t with ⟨result, t₁⟩
  rw [hrun] at h
  cases result with
  | ok u => cases h
  | error e =>
    cases h
    obtain ⟨done, failing, rest, t₁, heq, hstopped⟩ := execSteps_error hrun
    exact ⟨done, failing, rest, t₁, heq, hstopped, hstopped.wrote_all⟩

/-- A record that lacks the second of two required fields: the value of the first
stays in its column, and the second is the one that raises. -/
theorem rejectedRecord_missing_field :
    let mem : Uninit := zeroUninit
    let order : HashOrder := ⟨id, fun _ => .refl _⟩
    let type : LeafType := ⟨.UNSIGNED_INT, by decide⟩
    let schema : TableSchema := [.leaf [0x61] type .UINT64_LEB128 false false,
      .leaf [0x62] type .UINT64_LEB128 false false]
    let msg_schema : MessageSchema := [.scalar 1 [0x61] ⟨.UINT64, by decide⟩ false false,
      .scalar 2 [0x62] ⟨.UINT64, by decide⟩ false false]
    let msg : MessageObject := .object 0 [.scalar 1 (.uint64 7)]
    let missing : Abort := .raised ⟨.kIllegalArgumentError, "missing field: $0", [[0x62]]⟩
    ∃ t t₁ t', CSTableWriter.createFile mem order .v0_1_0 schema = .ok t ∧
      CxxM.exec (addRecordFromProtobuf t.schema msg msg_schema) t = (.error missing, t') ∧
      recordSteps t.schema msg msg_schema =
        [.write [0x61] 0 0 (.ok (.unsignedInt 7))] ++ .fail missing :: [] ∧
      StoppedAt t t₁ t' missing [.write [0x61] 0 0 (.ok (.unsignedInt 7))] (.fail missing) ∧
      t'.column_writers ≠ t.column_writers := by
  intro mem order type schema msg_schema msg missing
  obtain ⟨t, ht⟩ : ∃ t, CSTableWriter.createFile mem order .v0_1_0 schema = .ok t := ⟨_, rfl⟩
  have hexec : CxxM.exec (addRecordFromProtobuf t.schema msg msg_schema) t =
      (.error missing, (CxxM.exec (addRecordFromProtobuf t.schema msg msg_schema) t).2) := by
    cases ht
    exact Prod.ext (by decide +kernel) rfl
  have hsteps : recordSteps t.schema msg msg_schema =
      [.write [0x61] 0 0 (.ok (.unsignedInt 7)), .fail missing] := by
    cases ht
    rfl
  obtain ⟨done, failing, rest, t₁, heq, hstopped, -⟩ := rejectedRecord hexec
  rw [hsteps] at heq
  cases done with
  | nil =>
    -- the first step does not raise
    obtain ⟨rfl, rfl⟩ := List.cons.inj heq
    have hran := hstopped.ran
    cases hran
    cases ht
    exact absurd (congrArg Prod.fst hstopped.raised) (by decide +kernel)
  | cons s done =>
    obtain ⟨rfl, hrest⟩ := List.cons.inj heq
    cases done with
    | nil =>
      obtain ⟨rfl, rfl⟩ := List.cons.inj hrest
      refine ⟨t, t₁, _, ht, hexec, hsteps, hstopped, ?_⟩
      cases ht
      decide +kernel
    | cons s' done =>
      obtain ⟨-, hnil⟩ := List.cons.inj hrest
      exact absurd hnil.symm (by simp)

/-- A rejected record does not leave the columns as they were. The value in front of the missing
field is in its column. -/
theorem not_rejectedRecord_untouched :
    ¬ ∀ (schema_ : TableSchema) (msg : MessageObject) (schema : MessageSchema)
      (t t' : CSTableWriter) (e : Exn),
      CxxM.exec (addRecordFromProtobuf schema_ msg schema) t = (.error (.raised e), t') →
        t'.column_writers = t.column_writers ∧ t'.num_rows = t.num_rows := by
  intro h
  let mem : Uninit := zeroUninit
  let type : LeafType := ⟨.UNSIGNED_INT, by decide⟩
  let schema : TableSchema := [.leaf [0x61] type .UINT64_LEB128 false false,
    .leaf [0x62] type .UINT64_LEB128 false false]
  let msg_schema : MessageSchema := [.scalar 1 [0x61] ⟨.UINT64, by decide⟩ false false,
    .scalar 2 [0x62] ⟨.UINT64, by decide⟩ false false]
  let msg : MessageObject := .object 0 [.scalar 1 (.uint64 7)]
  let w := v1.ColumnWriter.new 0 0 (v1.ColumnWriter.newDataWriter .UINT64_LEB128 2)
  let t : CSTableWriter := ⟨.v0_1_0, schema, PageStore.new (PageManager.new .v0_1_0 [] 0),
    TableSchema.flatColumns mem schema, [⟨.v1 w, []⟩, ⟨.v1 w, []⟩], 0, 0, none, none⟩
  have hexec : CxxM.exec (addRecordFromProtobuf t.schema msg msg_schema) t =
      (.error (.raised ⟨.kIllegalArgumentError, "missing field: $0", [[0x62]]⟩),
        (CxxM.exec (addRecordFromProtobuf t.schema msg msg_schema) t).2) :=
    Prod.ext (by decide +kernel) rfl
  have hkept := (h _ _ _ _ _ _ hexec).1
  exact absurd hkept (by decide +kernel)

end RecordShredder

end CStable
