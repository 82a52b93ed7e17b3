import CStable.Proofs.FileBytes
import CStable.Proofs.RecordFile

/-!
# `CStable.Proofs.SameTables`: the same records in two tables

A table that is created again, by another program or at another time, finds other values in
the memory that the code reads before setting it: the ids of its columns, which a v0.1.0 file
does not store, and the buffers of the bodies. The records decide on the rest, so that two
tables which took the same records are committed to the same bytes (`RecordsWritten.commit`).
Fields of type DOUBLE are the exception: the class of their columns counts eight bytes more
than it writes.
-/

set_option autoImplicit false

namespace CStable

open TableSchema (fromProtobuf)
open CSTableWriter (SameCommit exists_writersV1)
open RecordShredder (RecordContains RecordsWritten HoldsCalls leafCalls)

/-- The schema has no field whose column counts more bytes than it writes. -/
def NoDoubles (schema : MessageSchema) : Prop :=
  ∀ m ∈ messageLeaves schema, m.type.val ≠ .DOUBLE

/-- Of the classes that `fromProtobuf` chooses, only that of the type DOUBLE counts more bytes
than it writes. -/
theorem countsMore_columnOfFieldType {type : ScalarType}
    (h : v1.CountsMore (TableSchema.columnOfFieldType type).2) : type.val = .DOUBLE := by
  obtain ⟨type, htype⟩ := type
  cases type with
  | OBJECT => exact absurd rfl htype
  | DOUBLE => rfl
  | _ => rcases h with h | h | h <;> cases h

namespace RecordMaterializer

/-- Records hold one content on the way to a leaf, so they make the same calls. -/
theorem flatMap_leafCalls_unique {schema : MessageSchema} {m : MessageLeaf}
    (hdistinct : AtEveryLevel DistinctFields schema) (hm : m ∈ messageLeaves schema)
    {records : List MessageObject} {cs cs' : List (Support.Striping.Nest ScalarValue m.path.hops)}
    (h : List.Forall₂ (RecordContains m) records cs)
    (h' : List.Forall₂ (RecordContains m) records cs') :
    cs.flatMap (leafCalls m) = cs'.flatMap (leafCalls m) := by
  have hsame : cs.map (leafCalls m) = cs'.map (leafCalls m) := by
    refine (@List.forall₂_eq_eq_eq (List WriteCall)) ▸ (?_ : List.Forall₂ Eq _ _)
    refine List.forall₂_map_left_iff.mpr (List.forall₂_map_right_iff.mpr
      ((forall₂_of_common h h').imp fun c c' hc => ?_))
    obtain ⟨record, -, ⟨⟨id, children, rfl, hc⟩, -⟩, ⟨id', children', heq, hc'⟩, -⟩ := hc
    cases heq
    have hcontent := @RecordShredder.hasContent_of_contains _ _ _ _ id _ _ hdistinct hm hc
    have hcontent' := @RecordShredder.hasContent_of_contains _ _ _ _ id _ _ hdistinct hm hc'
    exact congrArg (fun c =>
      (Support.Striping.stripe m.path.hops 0 0 0 c).map RecordShredder.toCall)
      (hcontent.unique hcontent')
  rw [List.flatMap_def, List.flatMap_def, hsame]

end RecordMaterializer

/-! ### The columns of the two tables -/

namespace CSTableWriter

/-- A new table has a copy of the schema, which does not depend on memory. -/
theorem createFile_schema {mem : Uninit} {order : HashOrder} {version : BinaryFormatVersion}
    {schema : TableSchema} {t : CSTableWriter} (h : createFile mem order version schema = .ok t) :
    t.schema = TableSchema.copy order schema := by
  obtain ⟨_, -, hnew⟩ := Result.bind_eq_ok.mp h
  obtain ⟨_, -, hret⟩ := Result.bind_eq_ok.mp hnew
  cases hret
  rfl

/-- The columns of a schema, apart from what memory held when they were made. -/
theorem unplaced_flatColumns (mem mem' : Uninit) (schema : TableSchema) :
    (TableSchema.flatColumns mem schema).map ColumnConfig.unplaced =
      (TableSchema.flatColumns mem' schema).map ColumnConfig.unplaced := by
  unfold TableSchema.flatColumns
  refine List.ext_getElem? fun i => ?_
  rw [List.getElem?_map, List.getElem?_map, List.getElem?_mapIdx, List.getElem?_mapIdx,
    Option.map_map, Option.map_map]
  rfl

/-- Columns that started with the same writers and took the same calls are in the same
state. -/
theorem ReplaysHistory.unique {c d : ColumnConfig} {slot slot' : ColumnSlot}
    (h : ReplaysHistory c slot) (h' : ReplaysHistory d slot') (hcolumn : c.unplaced = d.unplaced)
    (hhistory : slot.history = slot'.history) : slot = slot' := by
  obtain ⟨w, hw, hslot⟩ := h
  obtain ⟨w', hw', hslot'⟩ := h'
  -- the writer of a column depends on neither its id nor its place
  have hopen : openColumnV1 c = openColumnV1 d :=
    calc openColumnV1 c = openColumnV1 c.unplaced := rfl
      _ = openColumnV1 d.unplaced := by rw [hcolumn]
      _ = openColumnV1 d := rfl
  obtain rfl : w = w' := Except.ok.inj (hw.symm.trans (hopen.trans hw'))
  rw [← hslot, ← hslot', hhistory]

/-- So tables with the same columns and histories have the same writers. -/
theorem Replayed.column_writers_eq {t u : CSTableWriter} (ht : t.Replayed) (hu : u.Replayed)
    (hcolumns : t.columns.map ColumnConfig.unplaced = u.columns.map ColumnConfig.unplaced)
    (hhistory : t.column_writers.map ColumnSlot.history = u.column_writers.map ColumnSlot.history) :
    t.column_writers = u.column_writers := by
  have hlength := congrArg List.length hhistory
  rw [List.length_map, List.length_map] at hlength
  refine List.ext_getElem hlength fun i hi hi' => ?_
  have hic : i < t.columns.length := ht.slots.length_eq.symm ▸ hi
  have hic' : i < u.columns.length := hu.slots.length_eq.symm ▸ hi'
  have hcolumn := congrArg (·[i]?) hcolumns
  have hcalls := congrArg (·[i]?) hhistory
  simp only [List.getElem?_map, List.getElem?_eq_getElem hic, List.getElem?_eq_getElem hic',
    List.getElem?_eq_getElem hi, List.getElem?_eq_getElem hi', Option.map_some,
    Option.some.injEq] at hcolumn hcalls
  exact ((List.forall₂_iff_get.mp ht.slots).2 i hic hi).unique
    ((List.forall₂_iff_get.mp hu.slots).2 i hic' hi') hcolumn hcalls

end CSTableWriter

/-! ### The files of the two tables -/

namespace RecordMaterializer

variable {mem mem' : Uninit} {schema : MessageSchema} {t u : CSTableWriter}
variable {records : List MessageObject}

/-- The columns of two tables of the same records have taken the same calls. -/
theorem history_eq (hdistinct : AtEveryLevel DistinctFields schema)
    (h : RecordsWritten mem schema t records) (h' : RecordsWritten mem' schema u records)
    (hschema : t.schema = u.schema) :
    t.column_writers.map ColumnSlot.history = u.column_writers.map ColumnSlot.history := by
  have hlen : t.column_writers.length = u.column_writers.length := by
    rw [h.own.length, h'.own.length, h.own.columns, h'.own.columns, hschema]
    have hcolumns := congrArg List.length (CSTableWriter.unplaced_flatColumns mem mem' u.schema)
    rwa [List.length_map, List.length_map] at hcolumns
  refine List.ext_getElem? fun i => ?_
  rw [List.getElem?_map, List.getElem?_map]
  cases hp : (schemaPaths t.schema)[i]? with
  | none =>
    -- there is no column at this position
    have hnone := h.own.getElem?_columns i
    rw [hp, Option.map_none, List.getElem?_eq_none_iff, ← h.own.length] at hnone
    rw [List.getElem?_eq_none_iff.mpr hnone, List.getElem?_eq_none_iff.mpr (hlen ▸ hnone)]
  | some p =>
    obtain ⟨m, hm, rfl⟩ := List.mem_map.mp (h.paths.mem_iff.mp (List.mem_of_getElem? hp))
    obtain ⟨slot, hslot, -, cs, hcs, hhistory⟩ := h.slots m hm i hp
    obtain ⟨slot', hslot', -, cs', hcs', hhistory'⟩ := h'.slots m hm i (hschema ▸ hp)
    rw [hslot, hslot', Option.map_some, Option.map_some, hhistory, hhistory',
      flatMap_leafCalls_unique hdistinct hm hcs hcs']

/-- No column of a table of records counts more bytes than it writes, when the schema has no
DOUBLE. -/
theorem allCounted_of_noDoubles (hdoubles : NoDoubles schema)
    (h : RecordsWritten mem schema t records) : t.AllCounted := by
  intro c hc e he heq
  obtain ⟨i, hi⟩ := List.mem_iff_getElem?.mp hc
  rw [h.own.getElem?_columns] at hi
  obtain ⟨p, hp, rfl⟩ := Option.map_eq_some_iff.mp hi
  obtain ⟨m, hm, rfl⟩ := List.mem_map.mp (h.paths.mem_iff.mp (List.mem_of_getElem? hp))
  obtain rfl : m.path.encoding = e := ColumnEncoding.code_injective heq
  exact hdoubles m hm (countsMore_columnOfFieldType he)

/-- Two tables of the same records, in which memory held different things when they were
created and when they are committed: when the one commit returns so does the other, and the
files are the same, byte for byte. -/
theorem commit_same (hdistinct : AtEveryLevel DistinctFields schema) (hdoubles : NoDoubles schema)
    (h : RecordsWritten mem schema t records) (h' : RecordsWritten mem' schema u records)
    (ht : t.Replayed) (hu : u.Replayed) (hversion : t.version = .v0_1_0)
    (hversion' : u.version = .v0_1_0) (hschema : t.schema = u.schema)
    (hrows : t.num_rows = u.num_rows) {m : Uninit} (m' : Uninit) {t' : CSTableWriter}
    (hcommit : t.commit m = .ok t') :
    ∃ u', u.commit m' = .ok u' ∧ contents u'.file = contents t'.file := by
  have hcolumns : t.columns.map ColumnConfig.unplaced = u.columns.map ColumnConfig.unplaced := by
    rw [h.own.columns, h'.own.columns, hschema]
    exact CSTableWriter.unplaced_flatColumns mem mem' u.schema
  obtain ⟨ws, hws, hclasses⟩ := (ht.classesV1 hversion).writers
  -- writers are functions of their histories, and those are of the records alone
  have hwriters := ht.column_writers_eq hu hcolumns (history_eq hdistinct h h' hschema)
  have hsame : SameCommit u t ws ws :=
    { version := hversion'
      version' := hversion
      columns := hcolumns.symm
      num_rows := hrows.symm
      writers := by
        unfold CSTableWriter.WritersV1
        rw [← hwriters]
        exact hws
      writers' := hws
      length := by
        have hlength := congrArg List.length hcolumns
        rw [List.length_map, List.length_map] at hlength
        rw [← hlength, hclasses.length_eq]
      committed := rfl }
  obtain ⟨u', hu'⟩ := hsame.exists_commit m' hcommit
  refine ⟨u', hu', hsame.contents ((CSTableWriter.placed_full_iff hclasses).mpr
    (allCounted_of_noDoubles hdoubles h)) ?_ ?_ hu' hcommit⟩
  · rw [hu.file]
    exact Nat.zero_le _
  · rw [ht.file]
    exact Nat.zero_le _

/-- The same records, added to two tables that were created at different times, are committed
to the same bytes when the schema has no DOUBLE. -/
theorem commit_records {order order' : HashOrder} {t t' u u' v : CSTableWriter}
    (hdistinct : AtEveryLevel DistinctFields schema)
    (hnames : ((messageLeaves schema).map (MessageLeaf.name · [])).Nodup)
    (hdoubles : NoDoubles schema)
    (hcreate : CSTableWriter.createFile mem order' .v0_1_0 (fromProtobuf order schema) = .ok t)
    (hcreate' : CSTableWriter.createFile mem' order' .v0_1_0 (fromProtobuf order schema) = .ok t')
    (hconform : ∀ record ∈ records, Conforms schema record)
    (hexec : CxxM.exec (RecordShredder.addRecords t.schema
      (records.map fun record => (record, schema))) t = (.ok (), u))
    (hexec' : CxxM.exec (RecordShredder.addRecords t'.schema
      (records.map fun record => (record, schema))) t' = (.ok (), u'))
    (hcommit : u.commit mem = .ok v) :
    ∃ v', u'.commit mem' = .ok v' ∧ contents v'.file = contents v.file := by
  obtain ⟨w, hw, hwritten, hversion, hreplayed, -, hrows⟩ :=
    exists_recordTable hdistinct hnames hcreate hconform
  obtain ⟨w', hw', hwritten', hversion', hreplayed', -, hrows'⟩ :=
    exists_recordTable hdistinct hnames hcreate' hconform
  obtain rfl : u = w := (Prod.mk.inj (hexec.symm.trans hw)).2
  obtain rfl : u' = w' := (Prod.mk.inj (hexec'.symm.trans hw')).2
  have hschema : u.schema = u'.schema := by
    rw [(addRecords_frame hexec).2.2.1, (addRecords_frame hexec').2.2.1,
      CSTableWriter.createFile_schema hcreate,
      CSTableWriter.createFile_schema hcreate']
  exact commit_same hdistinct hdoubles hwritten hwritten' hreplayed hreplayed' hversion hversion'
    hschema (hrows.trans hrows'.symm) mem' hcommit

/-- The sample has no DOUBLE. -/
theorem sampleSchema_noDoubles : NoDoubles sampleSchema := by
  unfold NoDoubles
  decide

end RecordMaterializer

end CStable
