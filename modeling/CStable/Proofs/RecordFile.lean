import CStable.Proofs.CopyColumn
import CStable.Proofs.Projection
import CStable.Proofs.WrittenFile

/-!
# `CStable.Proofs.RecordFile`: records in a file

Records are shredded into a v0.1.0 table, the table is committed, the file opened again,
and a materializer reads the records back from it: the whole path of a record through the
library, with the bytes of the file in the middle.

* `fileRecords`: the records come back, in their order.
* `fileCalls`: reading some of the columns, and skipping records.
-/

set_option autoImplicit false

namespace CStable

open Support.Striping
open TableSchema (columnOfFieldType fromProtobuf)

namespace RecordMaterializer

open CSTableWriter (nativeEntry NativeHistory LevelsFit Replayed Reached)
open RecordShredder (RecordsWritten RecordContains HoldsCalls leafCalls toCall)

/-! ### Columns of the file -/

/-- What a materializer gets for a value. -/
def valueOf : v1.Datum → Value
  | .unsignedInt value => .uint (UInt64.ofNat value)
  | .float value => .float (UInt64.ofNat value)
  | .string value => .str value

/-- What a materializer gets for an entry. -/
def fileEntry (e : v1.Entry) : Entry Value := ⟨e.rlvl, e.dlvl, e.value.map valueOf⟩

/-- A reader of v0.1.0 read with the function for its type. The conversion is none, because the
value is of the kind of the class. -/
theorem readFor_v1 {ops : FloatOps} {mem : Mapping} {r r' : v1.ColumnReader} {e : v1.Entry}
    (h : r.readNext mem = .ok (e, r'))
    (hkind : ∀ v, e.value = some v → v.OfKind r.data_reader.encoding) :
    readFor r.data_reader.type (TableColumn.v1 ⟨ops, mem, r⟩) =
      .ok (fileEntry e, .v1 ⟨ops, mem, r'⟩) := by
  obtain ⟨rlvl, dlvl, value⟩ := e
  -- the read, with the conversion of the class and the one of the materializer
  have hread : ∀ {α β : Type} {convert : ColumnEncoding → v1.Datum → Result α} {default : α}
      (f : v1.Datum → α) (widen : α → β) (wrap : β → Value),
      (∀ v, v.OfKind r.data_reader.encoding → convert r.data_reader.encoding v = .ok (f v) ∧
        wrap (widen (f v)) = valueOf v) →
      (TableColumn.readWith (MappedColumn.readWith
          (fun _ mem r => r.readAs mem convert default) widen)
          (fun _ _ => ⟨0, 0, widen default, false⟩)
          (TableColumn.v1 ⟨ops, mem, r⟩)).map (fun (v, reader) => (entryOf wrap v, reader)) =
        .ok (fileEntry ⟨rlvl, dlvl, value⟩, .v1 ⟨ops, mem, r'⟩) := by
    intro α β convert default f widen wrap hconvert
    unfold TableColumn.readWith MappedColumn.readWith
    dsimp only
    rw [v1.ColumnReader.readAs_ok (f := f) default h fun v hv => (hconvert v (hkind v hv)).1]
    cases value with
    | none => rfl
    | some v =>
      have hentry : fileEntry ⟨rlvl, dlvl, some v⟩ = ⟨rlvl, dlvl, some (wrap (widen (f v)))⟩ :=
        congrArg (fun x => Entry.mk rlvl dlvl (some x)) (hconvert v (hkind v rfl)).2.symm
      rw [hentry]
      rfl
  cases hdr : r.data_reader with
  | double d =>
    rw [hdr] at hread
    refine hread v1.Datum.toBits UInt64.ofNat .float fun v hv => ?_
    cases hv with
    | integer hint => exact absurd rfl hint.1
    | float => exact ⟨rfl, rfl⟩
  | string d =>
    rw [hdr] at hread
    refine hread v1.Datum.toBytes id .str fun v hv => ?_
    cases hv with
    | integer hint => exact absurd rfl hint.2
    | string => exact ⟨rfl, rfl⟩
  | _ =>
    rw [hdr] at hread
    refine hread v1.Datum.toNat UInt64.ofNat .uint fun v hv => ?_
    cases hv
    exact ⟨rfl, rfl⟩

/-- A column that reads exactly the entries returns them. By induction on the entries; the
materializer reads through the abstract class. -/
theorem returns_v1 (ops : FloatOps) {mem : Mapping} {encoding : ColumnEncoding} {rmax : Nat}
    {entries : List v1.Entry} :
    ∀ {r : v1.ColumnReader}, r.ReadsExactly mem entries → r.data_reader.encoding = encoding →
      r.r_max = rmax → (∀ e ∈ entries, ∀ v, e.value = some v → v.OfKind encoding) →
      Returns r.data_reader.type rmax (TableColumn.v1 ⟨ops, mem, r⟩) (entries.map fileEntry) := by
  induction entries with
  | nil => exact fun hreads _ hrmax _ => ⟨hrmax, hreads⟩
  | cons e entries ih =>
    intro r hreads henc hrmax hkind
    obtain ⟨heof, r', hread, hrest⟩ := hreads
    have hstep := v1.ColumnReader.reads_readNext hread
    have htype : r'.data_reader.type = r.data_reader.type := by
      have hencoding := hstep.encoding
      cases hr : r.data_reader <;> cases hr' : r'.data_reader <;> rw [hr, hr'] at hencoding <;>
        first
          | rfl
          | cases hencoding
    refine ⟨hrmax, heof, _, readFor_v1 hread ?_, ?_⟩
    · rw [henc]
      exact hkind e List.mem_cons_self
    · rw [← htype]
      exact ih hrest (hstep.encoding.trans henc) (hstep.r_max.trans hrmax) fun e' he' =>
        hkind e' (List.mem_cons_of_mem e he')

/-- The entry of a call comes back as what was written, with a value of the kind of its
class. -/
theorem fileEntry_nativeEntry {col : ColumnConfig} {c : WriteCall} {e : v1.Entry}
    (h : nativeEntry col c = some e) : fileEntry e = entryOfCall c ∧
      ∀ encoding, ColumnEncoding.ofCode? col.storage_type = some encoding →
        ∀ v, e.value = some v → v.OfKind encoding := by
  obtain ⟨encoding, hencoding, hentry⟩ := Option.bind_eq_some_iff.mp h
  obtain ⟨hr, hd, -, hvalue⟩ := v1.entryOf_eq_some hentry
  obtain ⟨rlvl, dlvl, arg⟩ := c
  obtain ⟨erlvl, edlvl, value⟩ := e
  obtain rfl : erlvl = rlvl := hr
  obtain rfl : edlvl = dlvl := hd
  -- a null has no value in the file; any other argument has the value it is read as
  rcases hvalue with ⟨harg, -, hnone⟩ | ⟨-, v, hv, hsome⟩
  · obtain rfl : value = none := hnone
    have hnull : arg = .null := by
      cases arg with
      | null => rfl
      | _ => cases harg
    subst hnull
    exact ⟨rfl, fun _ _ v hv => by cases hv⟩
  · obtain rfl : value = some v := hsome
    refine ⟨?_, fun encoding' hencoding' w hw => ?_⟩
    · have hread : some (valueOf v) = readValue arg := by
        have hvalue := v1.nativeValue_of_nativeDatum hv
        -- an argument is stored under its native form, which only times change
        cases arg with
        | null | signedInt value => cases hvalue
        | boolean value =>
          cases hvalue
          cases value <;> rfl
        | unsignedInt value | dateTime value =>
          cases hvalue <;> exact congrArg (fun x => some (Value.uint x)) UInt64.ofNat_toNat
        | float value =>
          cases hvalue
          exact congrArg (fun x => some (Value.float x)) UInt64.ofNat_toNat
        | string value =>
          cases hvalue
          rfl
      exact congrArg (Entry.mk erlvl edlvl) hread
    · cases hw
      cases hencoding.symm.trans hencoding'
      exact v1.nativeDatum_kind hv

/-- The file of a table whose columns are where calls of their classes took them returns
what was written to the columns. -/
theorem readsBack_file (ops : FloatOps) {mem : Uninit} (mem' : Uninit) {t t' : CSTableWriter}
    (h : t.Replayed) (hversion : t.version = .v0_1_0)
    (hnames : (t.columns.map ColumnConfig.column_name).Nodup) (hlevels : LevelsFit t.columns)
    (hnative : ∀ (i : Nat) (col : ColumnConfig) (slot : ColumnSlot), t.columns[i]? = some col →
      t.column_writers[i]? = some slot → NativeHistory col slot)
    (hcommit : t.commit mem = .ok t') :
    ∃ table, CSTableReader.openFile mem' (contents t'.file) = .ok table ∧
      table.numRecords = t.num_rows ∧ ReadsBack t (table.tableColumn ops) ∧
      ∀ name, name ∉ t.columns.map ColumnConfig.column_name →
        table.tableColumn ops name = none := by
  obtain ⟨table, hopen, hrows, hcolumns, hothers⟩ :=
    h.exists_table mem' hversion hnames hlevels hnative hcommit
  refine ⟨table, hopen, hrows, fun i col slot hcol hslot => ?_, fun name hname => ?_⟩
  case refine_2 =>
    unfold CSTableReader.tableColumn CSTableReader.hasColumn
    rw [hothers name hname]
    rfl
  obtain ⟨c, cr, hfound, hencoding, hrmax, hreads⟩ := (hcolumns i col slot hcol hslot).found
  have hentries : List.Forall₂ (fun c e => nativeEntry col c = some e) slot.history
      (slot.history.filterMap (nativeEntry col)) :=
    CSTableWriter.forall₂_filterMap (hnative i col slot hcol hslot)
  have hmap : (slot.history.filterMap (nativeEntry col)).map fileEntry =
      slot.history.map entryOfCall := by
    refine (@List.forall₂_eq_eq_eq (Entry Value)) ▸ (?_ : List.Forall₂ Eq _ _)
    exact List.forall₂_map_left_iff.mpr (List.forall₂_map_right_iff.mpr
      (hentries.flip.imp fun e call he => (fileEntry_nativeEntry he).1))
  refine ⟨.v1 ⟨ops, table.mmap, cr⟩, ?_, ?_⟩
  · unfold CSTableReader.tableColumn CSTableReader.hasColumn CSTableReader.getColumnReader
    rw [hfound]
    rfl
  · rw [← hmap]
    refine returns_v1 ops hreads rfl hrmax fun e he => ?_
    obtain ⟨call, -, hcall⟩ := Support.exists_of_mem_right hentries he
    exact (fileEntry_nativeEntry hcall).2 _ hencoding

/-! ### Records in the columns -/

/-- The value occurs in the message. -/
inductive HasValue (value : ScalarValue) : MessageObject → Prop where
  | scalar (id : UInt32) : HasValue value (.scalar id value)
  | object {id : UInt32} {children : List MessageObject} {c : MessageObject} (hc : c ∈ children)
      (h : HasValue value c) : HasValue value (.object id children)

/-- A string column stores the length of a string in 32 bits. -/
def StringsFit (record : MessageObject) : Prop :=
  ∀ s, HasValue (.string s) record → s.length < 2 ^ 32

/-- The values of a nest occur in the object it is in. By induction on the objects above the
leaf. -/
theorem hasValue_of_contains {type : ScalarType} {leaf : MessageStep}
    {parents : List MessageStep} :
    ∀ {id : UInt32} {children : List MessageObject}
      {c : Nest ScalarValue (LeafPath.hopsOf leaf.field (parents.map MessageStep.field))},
      Contains type leaf parents children c →
        Nest.All (fun value => HasValue value (.object id children)) _ c := by
  induction parents with
  | nil =>
    intro id children c h value hvalue
    have hmem : MessageObject.scalar leaf.id value ∈ childrenOf leaf.id children := by
      rw [h.1]
      exact List.mem_map_of_mem hvalue
    exact .object (List.mem_filter.mp hmem).1 (.scalar leaf.id)
  | cons s ss ih =>
    intro id children cs hcs c hc
    obtain ⟨o, ho, children', rfl, hc'⟩ := Support.exists_of_mem_right hcs hc
    exact (ih hc').imp fun value hvalue => .object (List.mem_filter.mp ho).1 hvalue

/-- A value of the type of a field is stored by the class of its column. Strings have to fit the
32 bits of their length. -/
theorem nativeDatum_arg {type : ScalarType} {value : ScalarValue} (h : value.type = type.val)
    (hshort : ∀ s, value = .string s → s.length < 2 ^ 32) :
    (v1.nativeDatum (columnOfFieldType type).2 value.arg.native).isSome := by
  obtain ⟨type, htype⟩ := type
  obtain rfl : value.type = type := h
  cases value with
  | string s =>
    show (if s.length < 2 ^ 32 then some (v1.Datum.string s) else none).isSome
    rw [if_pos (hshort s rfl)]
    rfl
  | _ => rfl

/-- A null is stored with its levels, the definition level below the maximum. -/
theorem entryOf_null {encoding : ColumnEncoding} {r_max d_max r d : Nat} (hr : r ≤ r_max)
    (hd : d < d_max) : v1.entryOf encoding r_max d_max ⟨r, d, .null⟩ = some ⟨r, d, none⟩ := by
  unfold v1.entryOf
  rw [if_pos hr]
  exact if_pos hd

/-- A value is stored with its levels, the definition level at the maximum. -/
theorem entryOf_value {encoding : ColumnEncoding} {r_max d_max : Nat} {c : WriteCall} {v : v1.Datum}
    (hr : c.rlvl ≤ r_max) (hd : c.dlvl = d_max) (hv : v1.nativeDatum encoding c.arg = some v) :
    v1.entryOf encoding r_max d_max c = some ⟨c.rlvl, c.dlvl, some v⟩ := by
  obtain ⟨r, d, arg⟩ := c
  unfold v1.entryOf
  rw [if_pos hr]
  cases arg with
  | null => cases encoding <;> cases hv
  | _ =>
    dsimp only
    rw [if_pos hd, hv]
    rfl

/-- The calls of conforming records are ones for their columns: the levels fit, and the values
are of the class. -/
theorem nativeHistory_recordsWritten {mem : Uninit} {schema : MessageSchema} {t : CSTableWriter}
    {records : List MessageObject} (h : RecordsWritten mem schema t records)
    (hfit : ∀ record ∈ records, StringsFit record) (i : Nat) (col : ColumnConfig)
    (slot : ColumnSlot) (hcol : t.columns[i]? = some col)
    (hslot : t.column_writers[i]? = some slot) :
    NativeHistory col slot := by
  rw [h.own.getElem?_columns] at hcol
  obtain ⟨p, hp, rfl⟩ := Option.map_eq_some_iff.mp hcol
  obtain ⟨m, hm, rfl⟩ := List.mem_map.mp (h.paths.mem_iff.mp (List.mem_of_getElem? hp))
  obtain ⟨slot', hslot', -, cs, hcs, hhistory⟩ := h.slots m hm i hp
  cases hslot.symm.trans hslot'
  intro call hcall
  rw [hhistory] at hcall
  obtain ⟨c, hc, hcall⟩ := List.mem_flatMap.mp hcall
  obtain ⟨record, hrecord, ⟨id, children, rfl, hcontains⟩, hpresent, -⟩ :=
    Support.exists_of_mem_right hcs hc
  unfold leafCalls at hcall
  rw [stripe_map, List.map_map] at hcall
  obtain ⟨e, he, rfl⟩ := List.mem_map.mp hcall
  -- the levels fit the column, and a value is one of its type
  obtain ⟨hr, hd, hdefined⟩ := hpresent.fits (Nat.le_refl 0) e he
  have hencoding : ColumnEncoding.ofCode? ((m.path.flat [] 0 0).config mem i).storage_type =
      some m.path.encoding := ColumnEncoding.ofCode?_code _
  unfold nativeEntry CSTableWriter.columnEntry
  rw [hencoding, Option.bind_some]
  obtain ⟨r, d, value⟩ := e
  cases value with
  | none =>
    have hlt : d < 0 + opts m.path.hops := by
      have hne : d ≠ 0 + opts m.path.hops := fun heq => by cases hdefined.mpr heq
      dsimp only at hd
      omega
    exact Option.isSome_of_eq_some (entryOf_null hr hlt)
  | some value =>
    have htype := (all_type_of_contains hcontains).stripe _ he value rfl
    have hvalue := (@hasValue_of_contains _ _ _ id _ _ hcontains).stripe _ he value rfl
    obtain ⟨v, hv⟩ := Option.isSome_iff_exists.mp (nativeDatum_arg htype fun s hs =>
      hfit _ hrecord s (hs ▸ hvalue))
    exact Option.isSome_of_eq_some (entryOf_value (c := ⟨r, d, value.arg.native⟩) hr
      (hdefined.mp rfl) hv)

/-! ### The file of a table of records -/

/-- Accepted records change neither the version nor the columns nor the schema of a table, and
each of them adds a row. -/
theorem addRecords_frame {records : List (MessageObject × MessageSchema)} {schema_ : TableSchema} :
    ∀ {t t' : CSTableWriter},
      CxxM.exec (RecordShredder.addRecords schema_ records) t = (.ok (), t') →
      t'.version = t.version ∧ t'.columns = t.columns ∧ t'.schema = t.schema ∧
        t'.num_rows = t.num_rows + UInt64.ofNat records.length := by
  induction records with
  | nil =>
    intro t t' h
    cases h
    exact ⟨rfl, rfl, rfl, (UInt64.add_zero _).symm⟩
  | cons record records ih =>
    intro t t' h
    rw [RecordShredder.addRecords, CxxM.exec_bind, RecordShredder.exec_addRecord] at h
    rcases hrun : CxxM.exec (RecordShredder.execSteps
      (RecordShredder.recordSteps schema_ record.1 record.2)) t with ⟨result, t₁⟩
    rw [hrun] at h
    cases result with
    | error e => cases h
    | ok u =>
      have hwrote := (RecordShredder.execSteps_ok hrun).2
      obtain ⟨hversion, hcolumns, hschema, hrows⟩ := ih h
      refine ⟨hversion.trans hwrote.version, hcolumns.trans hwrote.columns,
        hschema.trans hwrote.schema, hrows.trans ?_⟩
      show t₁.num_rows + 1 + UInt64.ofNat records.length = _
      rw [hwrote.num_rows, UInt64.add_assoc, List.length_cons, Nat.add_comm]
      exact congrArg (t.num_rows + ·) (UInt64.ofNat_add 1 records.length).symm

/-- What writes keep is kept by adding records, also where one of them is rejected. Records are
added by writes and `addRow` only. -/
theorem preserves_addRecords {P : CSTableWriter → Prop} (h : KeptByWrites P)
    (schema_ : TableSchema) (records : List (MessageObject × MessageSchema)) :
    CxxM.Preserves P (RecordShredder.addRecords schema_ records) := by
  induction records with
  | nil => exact .pure ()
  | cons record records ih => exact .bind (h.addRecord schema_ record.1 record.2) fun _ => ih

/-- Records that conform to a schema are accepted by a new table, whose columns are where the
calls of the records take them. -/
theorem exists_recordTable {mem : Uninit} {order order' : HashOrder} {schema : MessageSchema}
    {t : CSTableWriter} {records : List MessageObject}
    (hdistinct : AtEveryLevel DistinctFields schema)
    (hnames : ((messageLeaves schema).map (MessageLeaf.name · [])).Nodup)
    (hcreate : CSTableWriter.createFile mem order' .v0_1_0 (fromProtobuf order schema) = .ok t)
    (hconform : ∀ record ∈ records, Conforms schema record) :
    ∃ t', CxxM.exec (RecordShredder.addRecords t.schema
          (records.map fun record => (record, schema))) t = (.ok (), t') ∧
      RecordsWritten mem schema t' records ∧ t'.version = .v0_1_0 ∧ t'.Replayed ∧
      t'.columns = t.columns ∧ t'.num_rows = UInt64.ofNat records.length := by
  obtain ⟨t', hexec, hwritten⟩ := RecordShredder.addRecords_conforming hdistinct
    (RecordShredder.recordsWritten_createFile hnames hcreate) hconform
  rw [List.nil_append] at hwritten
  obtain ⟨hversion, hcolumns, -, hrows⟩ := addRecords_frame hexec
  have hnew : t.version = .v0_1_0 ∧ t.num_rows = 0 := by
    obtain ⟨_, -, hnew⟩ := Result.bind_eq_ok.mp hcreate
    obtain ⟨_, -, hret⟩ := Result.bind_eq_ok.mp hnew
    cases hret
    exact ⟨rfl, rfl⟩
  have hversion' : t'.version = .v0_1_0 := hversion.trans hnew.1
  have hreplayed : t'.Replayed := by
    have hkept := preserves_addRecords CSTableWriter.keptByWrites_replayed t.schema
      (records.map fun record => (record, schema)) t fun _ =>
        CSTableWriter.createFile_replayed hcreate
    rw [hexec] at hkept
    exact hkept hversion'
  refine ⟨t', hexec, hwritten, hversion', hreplayed, hcolumns, ?_⟩
  rw [hrows, hnew.2, UInt64.zero_add, List.length_map]

/-- The columns of a table of records are the leaves of the schema. There are no others, so
nothing in the file is left over. -/
theorem mem_leafNames {mem : Uninit} {schema : MessageSchema} {t : CSTableWriter}
    {records : List MessageObject} (h : RecordsWritten mem schema t records) {name : Bytes}
    (hname : name ∈ t.columns.map ColumnConfig.column_name) :
    name ∈ (messageLeaves schema).map (MessageLeaf.name · []) := by
  rw [h.own.map_column_name] at hname
  obtain ⟨p, hp, rfl⟩ := List.mem_map.mp hname
  obtain ⟨m, hm, rfl⟩ := List.mem_map.mp (h.paths.mem_iff.mp hp)
  exact List.mem_map.mpr ⟨m, hm, rfl⟩

/-- A column of a table of records is no deeper than its name is long: the name has one part
for each field on the way to it. -/
theorem levels_le_name {mem : Uninit} {schema : MessageSchema} {t : CSTableWriter}
    {records : List MessageObject} (h : RecordsWritten mem schema t records) :
    ∀ c ∈ t.columns, c.rlevel_max ≤ c.column_name.length + 1 ∧
      c.dlevel_max ≤ c.column_name.length + 1 := by
  intro c hc
  obtain ⟨i, hi⟩ := List.mem_iff_getElem?.mp hc
  rw [h.own.getElem?_columns] at hi
  obtain ⟨p, -, rfl⟩ := Option.map_eq_some_iff.mp hi
  show 0 + Support.Striping.reps p.hops ≤ (p.name []).length + 1 ∧
    0 + Support.Striping.opts p.hops ≤ (p.name []).length + 1
  rw [Nat.zero_add, Nat.zero_add]
  exact p.levels_le

/-- Records that conform to a schema are accepted by a new table, and the file of the
committed table returns what was written to its columns. -/
theorem exists_recordFile (ops : FloatOps) {mem : Uninit} (mem' : Uninit)
    {order order' : HashOrder} {schema : MessageSchema} {t : CSTableWriter}
    {records : List MessageObject} (hdistinct : AtEveryLevel DistinctFields schema)
    (hnames : ((messageLeaves schema).map (MessageLeaf.name · [])).Nodup)
    (hcreate : CSTableWriter.createFile mem order' .v0_1_0 (fromProtobuf order schema) = .ok t)
    (hconform : ∀ record ∈ records, Conforms schema record)
    (hstrings : ∀ record ∈ records, StringsFit record) :
    ∃ t', CxxM.exec (RecordShredder.addRecords t.schema
          (records.map fun record => (record, schema))) t = (.ok (), t') ∧
      RecordsWritten mem schema t' records ∧
      (∀ t'', t'.commit mem = .ok t'' →
          ∃ table, CSTableReader.openFile mem' (contents t''.file) = .ok table ∧
            table.numRecords = UInt64.ofNat records.length ∧
            ReadsBack t' (table.tableColumn ops) ∧
            ∀ name, name ∉ (messageLeaves schema).map (MessageLeaf.name · []) →
              table.tableColumn ops name = none) := by
  obtain ⟨t', hexec, hwritten, hversion, hreplayed, hcolumns, hrows⟩ :=
    exists_recordTable hdistinct hnames hcreate hconform
  refine ⟨t', hexec, hwritten, fun t'' hcommit => ?_⟩
  obtain ⟨table, hopen, hnum, hreads, hothers⟩ := readsBack_file ops mem' hreplayed hversion
    hwritten.names (hreplayed.levelsFit hversion (levels_le_name hwritten) hcommit)
    (nativeHistory_recordsWritten hwritten hstrings) hcommit
  exact ⟨table, hopen, hnum.trans hrows, hreads, fun name hname => hothers name fun hmem =>
    hname (mem_leafNames hwritten hmem)⟩

/-- Columns of the same name are the same leaf in both schemas: the fields on the way have the
same ids, occur as often, and the values are of the same type. -/
def Compatible (schema schema' : MessageSchema) : Prop :=
  ∀ m ∈ messageLeaves schema, ∀ m' ∈ messageLeaves schema', m.name [] = m'.name [] → m = m'

/-- A schema is compatible with itself, when no two of its leaves share a name. Columns are
found by name, so names have to decide. -/
theorem Compatible.refl {schema : MessageSchema}
    (hnames : ((messageLeaves schema).map (MessageLeaf.name · [])).Nodup) :
    Compatible schema schema :=
  fun _ hm _ hm' hname => List.inj_on_of_nodup_map hnames hm hm' hname

/-- The columns of a schema that a filter lets through. -/
def filteredNames (columns : List Bytes) (schema : MessageSchema) : List Bytes :=
  ((messageLeaves schema).map (MessageLeaf.name · [])).filter (InFilter columns)

/-- The leaves of another schema that are opened are those of the schema with a column of
the other one. -/
theorem mem_isOpened {ρ : Type} {schema schema' : MessageSchema} {reader : Bytes → Option ρ}
    (hcompatible : Compatible schema schema')
    (hreader : ∀ m ∈ messageLeaves schema, (reader (m.name [])).isSome)
    (hothers : ∀ name, name ∉ (messageLeaves schema).map (MessageLeaf.name · []) →
      reader name = none) (columns : List Bytes) (m : MessageLeaf) :
    m ∈ (messageLeaves schema').filter (IsOpened reader columns) ↔
      m ∈ messageLeaves schema ∧ m.name [] ∈ filteredNames columns schema' := by
  rw [List.mem_filter, filteredNames, List.mem_filter, List.mem_map]
  constructor
  · rintro ⟨hm, hopened⟩
    obtain ⟨hfilter, hsome⟩ := (Bool.and_eq_true _ _).mp hopened
    have hname : m.name [] ∈ (messageLeaves schema).map (MessageLeaf.name · []) := by
      by_contra hnot
      rw [hothers _ hnot] at hsome
      cases hsome
    obtain ⟨p, hp, hpm⟩ := List.mem_map.mp hname
    obtain rfl : p = m := hcompatible p hp m hm hpm
    exact ⟨hp, ⟨p, hm, rfl⟩, hfilter⟩
  · rintro ⟨hm, ⟨m', hm', hname⟩, hfilter⟩
    obtain rfl : m = m' := hcompatible m hm m' hm' hname.symm
    exact ⟨hm', (Bool.and_eq_true _ _).mpr ⟨hfilter, hreader m hm⟩⟩

/-- Any calls on a materializer over the file of a table, which may have been given another
schema than the table and a filter: each record is read as far as the columns go that both
schemas have and the filter lets through. -/
theorem exists_fileCalls (ops : DoubleOps) {mem : Uninit} (mem' : Uninit) {order order' : HashOrder}
    {schema : MessageSchema} {t : CSTableWriter} {records : List MessageObject}
    (hdistinct : AtEveryLevel DistinctFields schema)
    (hnames : ((messageLeaves schema).map (MessageLeaf.name · [])).Nodup)
    (hcreate : CSTableWriter.createFile mem order' .v0_1_0 (fromProtobuf order schema) = .ok t)
    (hconform : ∀ record ∈ records, Conforms schema record)
    (hstrings : ∀ record ∈ records, StringsFit record) :
    ∃ t', CxxM.exec (RecordShredder.addRecords t.schema
          (records.map fun record => (record, schema))) t = (.ok (), t') ∧
      (∀ t'', t'.commit mem = .ok t'' →
          ∃ table, CSTableReader.openFile mem' (contents t''.file) = .ok table ∧
            table.numRecords = UInt64.ofNat records.length ∧
            ∀ schema', ((messageLeaves schema').map (MessageLeaf.name · [])).Nodup →
              Compatible schema schema' → ∀ columns walk, ∃ bound, ∀ fuel, bound ≤ fuel →
              ∀ calls : List Call, (∀ call ∈ calls, FromEmpty call) →
                calls.length ≤ records.length →
                ∃ m outs, runCalls ops fuel calls
                    (ofTable ops.toFloatOps walk schema' table columns) = .ok (m, outs) ∧
                  List.Forall₂ (fun p out => Conforms schema p.2 ∧ Answers
                      (KeptOf (fun m => m.name [] ∈ filteredNames columns schema') schema)
                      p.2 p.1 out)
                    (calls.zip records) outs) := by
  obtain ⟨t', hexec, hwritten, hfile⟩ := exists_recordFile ops.toFloatOps mem' hdistinct hnames
    hcreate hconform hstrings
  refine ⟨t', hexec, fun t'' hcommit => ?_⟩
  obtain ⟨table, hopen, hnum, hreads, hothers⟩ := hfile t'' hcommit
  refine ⟨table, hopen, hnum, fun schema' hnames' hcompatible columns walk => ?_⟩
  have hstream : ∀ m ∈ messageLeaves schema, ∃ r stream,
      table.tableColumn ops.toFloatOps (m.name []) = some r ∧
        LeafStream (table.tableColumn ops.toFloatOps) records m stream :=
    fun m hm => exists_stream hwritten hreads hm
  have hmem := mem_isOpened hcompatible (fun m hm => by
    obtain ⟨r, -, hr, -⟩ := hstream m hm
    exact Option.isSome_of_eq_some hr) hothers columns
  -- the leaves that are walked, as leaves of the schema the records were written with
  obtain ⟨leaves, hperm, hcolumns⟩ := exists_leaves walk (table.tableColumn ops.toFloatOps) columns
    hnames'
  obtain ⟨bound, hbound⟩ := calls_leaves ops hdistinct hcolumns
    (hperm.nodup_iff.mpr ((List.Nodup.of_map _ hnames').filter _))
    (fun m hm => ((hmem m).mp (hperm.mem_iff.mp hm)).1)
    (fun record hrecord => by
      obtain ⟨id, children, rfl, -⟩ := hconform record hrecord
      exact ⟨id, children, rfl⟩)
    fun m hm => by
      obtain ⟨-, stream, -, hs⟩ := hstream m ((hmem m).mp (hperm.mem_iff.mp hm)).1
      exact ⟨stream, hs⟩
  refine ⟨bound, fun fuel hfuel calls hempty hlen => ?_⟩
  obtain ⟨m, outs, hrun, houts⟩ := hbound fuel hfuel calls hempty hlen
  have hrecords : ∀ p ∈ calls.zip records, Conforms schema p.2 := fun p hp =>
    hconform p.2 (List.of_mem_zip hp).2
  refine ⟨m, outs, hrun, ?_⟩
  refine ((List.forall₂_and_left (calls.zip records) outs).mpr ⟨hrecords, houts⟩).imp ?_
  rintro ⟨call, record⟩ out ⟨hconforms, hanswer⟩
  refine ⟨hconforms, hanswer.imp fun out hkept => hkept.congr fun m hm => ?_⟩
  rw [hperm.mem_iff, hmem, and_iff_right hm]

/-- Calls of `nextRecord` that keep every leaf return the records themselves. An object without
leaves would be lost, which is why there is none. -/
theorem nextRecords_alike {ops : DoubleOps} {schema : MessageSchema} {records : List MessageObject}
    {start : RecordMaterializer TableColumn} {names : List Bytes}
    (hleaves : AtEveryLevel ObjectsHaveLeaves schema)
    (hnames : ∀ m ∈ messageLeaves schema, m.name [] ∈ names)
    (hcalls : ∃ bound, ∀ fuel, bound ≤ fuel → ∀ calls : List Call,
      (∀ call ∈ calls, FromEmpty call) → calls.length ≤ records.length →
      ∃ m outs, runCalls ops fuel calls start = .ok (m, outs) ∧
        List.Forall₂ (fun p out => Conforms schema p.2 ∧ Answers
            (KeptOf (fun m => m.name [] ∈ names) schema) p.2 p.1 out)
          (calls.zip records) outs) :
    ∃ bound, ∀ fuel, bound ≤ fuel → ∀ ids : List UInt32, ids.length = records.length →
      ∃ m outs, runCalls ops fuel (ids.map fun id => .next (.object id [])) start =
          .ok (m, outs.map some) ∧ List.Forall₂ Alike outs records := by
  obtain ⟨bound, hbound⟩ := hcalls
  refine ⟨bound, fun fuel hfuel ids hids => ?_⟩
  obtain ⟨m, outs, hrun, houts⟩ := hbound fuel hfuel (ids.map fun id => .next (.object id []))
    (fromEmpty_next ids) (by rw [List.length_map, hids])
  obtain ⟨outs', rfl, hall⟩ := exists_outs (Q := Alike) hids <| houts.imp fun p out h =>
    h.2.imp fun out hkept => alike_of_kept hleaves h.1
      (hkept.congr fun m hm => iff_of_true (hnames m hm) trivial)
  exact ⟨m, outs', hrun, hall⟩

/-- Without a filter, no column of the schema is left out. An empty filter is taken for none. -/
theorem mem_filteredNames_nil {schema schema' : MessageSchema}
    (hall : messageLeaves schema ⊆ messageLeaves schema') :
    ∀ m ∈ messageLeaves schema, m.name [] ∈ filteredNames [] schema' := fun _ hm =>
  List.mem_filter.mpr ⟨List.mem_map_of_mem (hall hm), rfl⟩

/-- Records of any schema, shredded into a table and read back from its file by a
materializer, come back as they were written and in their order, whatever the orders of the
hash maps are. -/
theorem fileRecords (ops : DoubleOps) {mem : Uninit} (mem' : Uninit) {order order' : HashOrder}
    {schema : MessageSchema} {t : CSTableWriter} {records : List MessageObject}
    (hdistinct : AtEveryLevel DistinctFields schema)
    (hnames : ((messageLeaves schema).map (MessageLeaf.name · [])).Nodup)
    (hleaves : AtEveryLevel ObjectsHaveLeaves schema)
    (hcreate : CSTableWriter.createFile mem order' .v0_1_0 (fromProtobuf order schema) = .ok t)
    (hconform : ∀ record ∈ records, Conforms schema record)
    (hstrings : ∀ record ∈ records, StringsFit record) :
    ∃ t', CxxM.exec (RecordShredder.addRecords t.schema
          (records.map fun record => (record, schema))) t = (.ok (), t') ∧
      (∀ t'', t'.commit mem = .ok t'' →
          ∃ table, CSTableReader.openFile mem' (contents t''.file) = .ok table ∧
            table.numRecords = UInt64.ofNat records.length ∧
            ∀ walk, ∃ bound, ∀ fuel, bound ≤ fuel → ∀ ids : List UInt32,
              ids.length = records.length →
              ∃ m outs, runCalls ops fuel (ids.map fun id => .next (.object id []))
                  (ofTable ops.toFloatOps walk schema table []) = .ok (m, outs.map some) ∧
                List.Forall₂ Alike outs records) := by
  obtain ⟨t', hexec, hfile⟩ := exists_fileCalls ops mem' hdistinct hnames hcreate hconform hstrings
  refine ⟨t', hexec, fun t'' hcommit => ?_⟩
  obtain ⟨table, hopen, hnum, hcalls⟩ := hfile t'' hcommit
  exact ⟨table, hopen, hnum, fun walk => nextRecords_alike hleaves
    (mem_filteredNames_nil (List.Subset.refl _)) (hcalls schema hnames (.refl hnames) [] walk)⟩

/-- A value holds itself only. -/
theorem hasValue_scalar {value value' : ScalarValue} {id : UInt32} :
    HasValue value (.scalar id value') ↔ value' = value := by
  constructor
  · rintro ⟨⟩
    rfl
  · rintro rfl
    exact .scalar id

/-- An object holds the values of its children. -/
theorem hasValue_object {value : ScalarValue} {id : UInt32} {children : List MessageObject} :
    HasValue value (.object id children) ↔ ∃ c ∈ children, HasValue value c := by
  constructor
  · intro h
    cases h with
    | object hc h => exact ⟨_, hc, h⟩
  · rintro ⟨c, hc, h⟩
    exact .object hc h

/-- The strings of the sample are short. -/
theorem sampleRecords_strings : ∀ record ∈ sampleRecords, StringsFit record := by
  intro record hrecord s hs
  simp only [sampleRecords, List.mem_cons, List.not_mem_nil, or_false] at hrecord
  rcases hrecord with rfl | rfl <;>
    simp only [hasValue_object, hasValue_scalar, List.mem_cons, List.not_mem_nil, or_false,
      exists_eq_or_imp, exists_eq_left, ScalarValue.string.injEq, reduceCtorEq, false_and,
      exists_false, false_or] at hs
  rcases hs with rfl | rfl <;> decide

/-- The records of the sample with their children in another order. -/
def swappedRecords : List MessageObject :=
  [.object 9 [.object 1 [.scalar 2 (.uint64 7), .scalar 3 (.string [0x78]), .scalar 3 (.string [])],
    .object 1 [], .scalar 4 (.boolean true)],
    .object 0 [.scalar 4 (.boolean false)]]

/-- The sample with two siblings of different ids swapped conforms too. -/
theorem swappedRecords_conform : ∀ record ∈ swappedRecords, Conforms sampleSchema record := by
  intro record hrecord
  rcases List.mem_cons.mp hrecord with rfl | hrecord
  · refine ⟨_, _, rfl, by decide, ?_⟩
    simp [sampleSchema, FieldsConform, FieldConforms, childrenOf, MessageObject.id,
      MessageSchemaField.id, occurs_iff, ScalarValue.type]
  · exact sampleRecords_conform record (List.mem_cons_of_mem _ hrecord)

/-- And its strings are the same. -/
theorem swappedRecords_strings : ∀ record ∈ swappedRecords, StringsFit record := by
  intro record hrecord s hs
  simp only [swappedRecords, List.mem_cons, List.not_mem_nil, or_false] at hrecord
  rcases hrecord with rfl | rfl <;>
    simp only [hasValue_object, hasValue_scalar, List.mem_cons, List.not_mem_nil, or_false,
      exists_eq_or_imp, exists_eq_left, ScalarValue.string.injEq, reduceCtorEq, false_and,
      exists_false, false_or] at hs
  rcases hs with rfl | rfl <;> decide

/-- The tables of the samples can be committed, whatever memory holds. The witnesses of the
results on files rest on this one. -/
theorem sampleFile {mem : Uninit} (hmem : mem = zeroUninit ∨ mem = oneUninit)
    {records : List MessageObject} (h : records = sampleRecords ∨ records = swappedRecords) :
    let order : HashOrder := ⟨id, fun _ => .refl _⟩
    ∃ t t' t'',
      CSTableWriter.createFile mem order .v0_1_0 (fromProtobuf order sampleSchema) = .ok t ∧
      CxxM.exec (RecordShredder.addRecords t.schema
        (records.map fun record => (record, sampleSchema))) t = (.ok (), t') ∧
      t'.commit mem = .ok t'' := by
  intro order
  obtain ⟨t, ht⟩ : ∃ t, CSTableWriter.createFile mem order .v0_1_0
      (fromProtobuf order sampleSchema) = .ok t := ⟨_, rfl⟩
  have hnames : ((messageLeaves sampleSchema).map (MessageLeaf.name · [])).Nodup := by decide
  have hconform : ∀ record ∈ records, Conforms sampleSchema record := by
    rcases h with rfl | rfl
    · exact sampleRecords_conform
    · exact swappedRecords_conform
  obtain ⟨t', hexec, -⟩ := RecordShredder.addRecords_conforming sampleSchema_distinct
    (RecordShredder.recordsWritten_createFile hnames ht) hconform
  obtain rfl : t' = (CxxM.exec (RecordShredder.addRecords t.schema
    (records.map fun record => (record, sampleSchema))) t).2 := (congrArg Prod.snd hexec).symm
  have hrun : ∃ t'', (CxxM.exec (RecordShredder.addRecords t.schema
      (records.map fun record => (record, sampleSchema))) t).2.commit mem = .ok t'' := by
    cases ht
    rcases hmem with rfl | rfl <;> rcases h with rfl | rfl <;>
      exact Result.exists_eq_ok (by decide +kernel)
  obtain ⟨t'', hcommit⟩ := hrun
  exact ⟨t, _, t'', ht, hexec, hcommit⟩

/-- The records of the sample through a file, with a materializer that walks its columns
backwards. -/
theorem fileRecords_sample :
    let mem : Uninit := zeroUninit
    let order : HashOrder := ⟨id, fun _ => .refl _⟩
    let walk : WalkOrder TableColumn := ⟨List.reverse, List.reverse_perm⟩
    let ops : DoubleOps := ⟨v1.noFloats, fun _ => 0⟩
    ∃ t t' t'' table, CSTableWriter.createFile mem order .v0_1_0 (fromProtobuf order sampleSchema) =
        .ok t ∧
      CxxM.exec (RecordShredder.addRecords t.schema
        (sampleRecords.map fun record => (record, sampleSchema))) t = (.ok (), t') ∧
      t'.commit mem = .ok t'' ∧ CSTableReader.openFile mem (contents t''.file) = .ok table ∧
      table.numRecords = 2 ∧
      ∃ fuel m outs, runCalls ops fuel [.next (.object 0 []), .next (.object 0 [])]
          (ofTable ops.toFloatOps walk sampleSchema table []) = .ok (m, outs.map some) ∧
        List.Forall₂ Alike outs sampleRecords := by
  intro mem order walk ops
  obtain ⟨t, t', t'', ht, hexec, hcommit⟩ := sampleFile (Or.inl rfl) (Or.inl rfl)
  obtain ⟨u, hexec', hfile⟩ := fileRecords ops mem sampleSchema_distinct (by decide)
    sampleSchema_leaves ht sampleRecords_conform sampleRecords_strings
  obtain rfl : t' = u := (Prod.mk.inj (hexec.symm.trans hexec')).2
  obtain ⟨table, hopen, hrows, hread⟩ := hfile t'' hcommit
  obtain ⟨bound, hbound⟩ := hread walk
  exact ⟨t, t', t'', table, ht, hexec, hcommit, hopen, hrows, bound,
    hbound bound (Nat.le_refl _) [0, 0] rfl⟩

/-! ### Some of the columns, some of the records -/

mutual

/-- All of a conforming record is kept with all leaves. An object of which nothing is kept would
be one without leaves. -/
theorem fieldKept_self (f : MessageSchemaField) (hleaves : fieldLeaves f ≠ [])
    (hinside : InsideField ObjectsHaveLeaves f) {occurrences : List MessageObject}
    (hconform : FieldConforms f occurrences) :
    FieldKept (fun _ => True) f occurrences occurrences := by
  match f with
  | .scalar id name type repeated optional => exact ⟨fun _ => rfl, fun h => absurd trivial h⟩
  | .object id name repeated optional schema =>
    rw [InsideField] at hinside
    rw [FieldConforms] at hconform
    rw [fieldLeaves, Ne, List.map_eq_nil_iff] at hleaves
    rw [FieldKept]
    refine ⟨fun _ => List.forall₂_same.mpr fun o ho => ?_, fun hnone => ?_⟩
    · obtain ⟨children, heq, hknown, hconform'⟩ := hconform.2 o ho
      exact ⟨children, children, heq, heq, hknown,
        fieldsKept_self schema hinside.1 hinside.2 hconform'⟩
    · obtain ⟨p, hp⟩ := List.exists_mem_of_ne_nil _ hleaves
      exact absurd trivial (hnone p hp)

/-- The same for all the fields of a level. -/
theorem fieldsKept_self (fs : List MessageSchemaField) (hleaves : ∀ f ∈ fs, fieldLeaves f ≠ [])
    (hinside : InsideFields ObjectsHaveLeaves fs) {children : List MessageObject}
    (hconform : FieldsConform fs children) :
    FieldsKept (fun _ => True) fs children children := by
  match fs with
  | [] => exact trivial
  | f :: fs =>
    rw [InsideFields] at hinside
    rw [FieldsConform] at hconform
    rw [FieldsKept]
    exact ⟨fieldKept_self f (hleaves f List.mem_cons_self) hinside.1 hconform.1,
      fieldsKept_self fs (fun g hg => hleaves g (List.mem_cons_of_mem f hg)) hinside.2 hconform.2⟩

end

/-- What some columns leave of a record is its projection, up to the order of siblings with
different ids. -/
theorem alike_project_record {columns : List Bytes} {schema : MessageSchema}
    (hdistinct : AtEveryLevel DistinctFields schema)
    (hleaves : AtEveryLevel ObjectsHaveLeaves schema) {out record : MessageObject}
    (hconform : Conforms schema record)
    (hkept : KeptOf (fun m => m.name [] ∈ columns) schema out record) :
    Alike out (project columns schema record) := by
  refine alike_project_contains hdistinct hconform
    (hkept.congr fun m _ => List.contains_iff_mem.symm) ?_
  obtain ⟨id, children, rfl, hconform⟩ := hconform
  exact ⟨id, id, children, children, rfl, rfl, hconform.known,
    fieldsKept_self schema hleaves.1 hleaves.2 hconform.fields⟩

/-- Any calls on a materializer with a filter, over the file of a table: a record that is
read is the projection of the one that was written at its position, however many of the
records before it were read and how many skipped. -/
theorem fileCalls (ops : DoubleOps) {mem : Uninit} (mem' : Uninit) {order order' : HashOrder}
    {schema : MessageSchema} {t : CSTableWriter} {records : List MessageObject}
    {columns : List Bytes} (hdistinct : AtEveryLevel DistinctFields schema)
    (hnames : ((messageLeaves schema).map (MessageLeaf.name · [])).Nodup)
    (hleaves : AtEveryLevel ObjectsHaveLeaves schema)
    (hcreate : CSTableWriter.createFile mem order' .v0_1_0 (fromProtobuf order schema) = .ok t)
    (hconform : ∀ record ∈ records, Conforms schema record)
    (hstrings : ∀ record ∈ records, StringsFit record) (hcolumns : columns ≠ []) :
    ∃ t', CxxM.exec (RecordShredder.addRecords t.schema
          (records.map fun record => (record, schema))) t = (.ok (), t') ∧
      (∀ t'', t'.commit mem = .ok t'' →
          ∃ table, CSTableReader.openFile mem' (contents t''.file) = .ok table ∧
            ∀ walk, ∃ bound, ∀ fuel, bound ≤ fuel → ∀ calls : List Call,
              (∀ call ∈ calls, FromEmpty call) → calls.length ≤ records.length →
              ∃ m outs, runCalls ops fuel calls
                  (ofTable ops.toFloatOps walk schema table columns) = .ok (m, outs) ∧
                List.Forall₂ (fun p out => Answers
                    (fun out record => Alike out (project columns schema record)) p.2 p.1 out)
                  (calls.zip records) outs) := by
  obtain ⟨t', hexec, hfile⟩ := exists_fileCalls ops mem' hdistinct hnames hcreate hconform hstrings
  refine ⟨t', hexec, fun t'' hcommit => ?_⟩
  obtain ⟨table, hopen, -, hcalls⟩ := hfile t'' hcommit
  refine ⟨table, hopen, fun walk => ?_⟩
  obtain ⟨bound, hbound⟩ := hcalls schema hnames (.refl hnames) columns walk
  refine ⟨bound, fun fuel hfuel calls hempty hlen => ?_⟩
  obtain ⟨m, outs, hrun, houts⟩ := hbound fuel hfuel calls hempty hlen
  refine ⟨m, outs, hrun, houts.imp fun p out h => h.2.imp fun out hkept =>
    alike_project_record hdistinct hleaves h.1 (hkept.congr fun m hm => ?_)⟩
  unfold filteredNames InFilter
  rw [List.mem_filter, and_iff_right (List.mem_map_of_mem hm),
    List.isEmpty_eq_false_iff.mpr hcolumns, Bool.false_or, List.contains_iff_mem]

/-- One leaf of the second record of the sample, after the first one was skipped. -/
theorem fileCalls_sample :
    let mem : Uninit := zeroUninit
    let order : HashOrder := ⟨id, fun _ => .refl _⟩
    let walk : WalkOrder TableColumn := ⟨List.reverse, List.reverse_perm⟩
    let ops : DoubleOps := ⟨v1.noFloats, fun _ => 0⟩
    let columns : List Bytes := [[0x64]]
    ∃ t t' t'' table, CSTableWriter.createFile mem order .v0_1_0 (fromProtobuf order sampleSchema) =
        .ok t ∧
      CxxM.exec (RecordShredder.addRecords t.schema
        (sampleRecords.map fun record => (record, sampleSchema))) t = (.ok (), t') ∧
      t'.commit mem = .ok t'' ∧ CSTableReader.openFile mem (contents t''.file) = .ok table ∧
      ∃ fuel m outs, runCalls ops fuel [.skip, .next (.object 0 [])]
          (ofTable ops.toFloatOps walk sampleSchema table columns) = .ok (m, outs) ∧
        List.Forall₂ (fun p out => Answers
            (fun out record => Alike out (project columns sampleSchema record)) p.2 p.1 out)
          (([.skip, .next (.object 0 [])] : List Call).zip sampleRecords) outs := by
  intro mem order walk ops columns
  obtain ⟨t, t', t'', ht, hexec, hcommit⟩ := sampleFile (Or.inl rfl) (Or.inl rfl)
  obtain ⟨u, hexec', hfile⟩ := fileCalls ops mem sampleSchema_distinct (by decide)
    sampleSchema_leaves ht sampleRecords_conform sampleRecords_strings
    (List.cons_ne_nil _ _ : columns ≠ [])
  obtain rfl : t' = u := (Prod.mk.inj (hexec.symm.trans hexec')).2
  obtain ⟨table, hopen, hread⟩ := hfile t'' hcommit
  obtain ⟨bound, hbound⟩ := hread walk
  refine ⟨t, t', t'', table, ht, hexec, hcommit, hopen, bound,
    hbound bound (Nat.le_refl _) _ (fun call hcall record hrecord => ?_) (Nat.le_refl _)⟩
  simp only [List.mem_cons, List.not_mem_nil, or_false] at hcall
  rcases hcall with rfl | rfl
  · cases hrecord
  · cases hrecord
    exact ⟨0, rfl⟩

end RecordMaterializer

end CStable
