import CStable.Proofs.Conformance

/-!
# `CStable.Proofs.WrittenRecords`: tables of conforming records

A new table with the schema `fromProtobuf` makes of a message schema takes every record
that conforms to the message schema (`addRecords_conforming`). After any number of them
each column holds, record by record, the stripe of what the record holds on the way to
its leaf (`RecordsWritten`).
-/

set_option autoImplicit false

namespace CStable

open TableSchema (columnOfFieldType fromProtobuf copy)
open Support.Striping

namespace RecordShredder

open CSTableWriter (OwnSchema OpenedFor openColumns_spec createFile_ownSchema)

/-! ### Accepted calls -/

/-- A data writer accepts what has the size of its class: eight bytes, or any text for
strings. -/
theorem addDatum_ok {w : v1.DataWriter} {data : Bytes}
    (h : data.length = 8 ∨ w.encoding = .STRING_PLAIN) : ∃ w', w.addDatum data = .ok w' := by
  cases w with
  | string w => exact ⟨_, rfl⟩
  | _ =>
    obtain hlen : data.length = 8 := h.resolve_right ColumnEncoding.noConfusion
    unfold v1.DataWriter.addDatum
    simp [hlen]

/-- A writer raises on nothing but a string that is not for it. -/
theorem call_ok {w : v1.ColumnWriter} {arg : WriteArg} (h : Takes w.data_writer.encoding arg)
    (r d : Nat) : ∃ w', w.call ⟨r, d, arg⟩ = .ok w' := by
  have hdatum : ∀ data, data.length = 8 ∨ w.data_writer.encoding = .STRING_PLAIN →
      ∃ w', w.addDatum r d data = .ok w' := by
    intro data hdata
    obtain ⟨w', hw'⟩ := addDatum_ok hdata
    unfold v1.ColumnWriter.addDatum
    rw [hw']
    exact ⟨_, rfl⟩
  cases arg with
  | null => exact ⟨_, rfl⟩
  | string str => exact hdatum str (Or.inr (h str rfl))
  | _ => exact hdatum _ (Or.inl (Support.leBytes_length _ _))

/-- The table has a writer for the leaf, of its encoding. -/
def HasWriter (t : CSTableWriter) (p : LeafPath) : Prop :=
  ∃ i slot w, t.getColumnWriter (p.name []) = .ok i ∧ t.column_writers[i]? = some slot ∧
    slot.writer = .v1 w ∧ w.data_writer.encoding = p.encoding

/-- Adding records neither adds nor removes a column, so a leaf keeps its writer. -/
theorem HasWriter.of_wrote {t t' : CSTableWriter} {calls : Nat → List WriteCall} {p : LeafPath}
    (h : HasWriter t p) (hwrote : Wrote t t' calls) : HasWriter t' p := by
  obtain ⟨i, slot, w, hget, hslot, hw, hencoding⟩ := h
  obtain ⟨slot', hslot', -, hwriter⟩ := hwrote.slots i slot hslot
  refine ⟨i, slot', _, (getColumnWriter_congr hwrote.columns _).trans hget, hslot',
    (hwriter w hw).1, ?_⟩
  rw [v1.ColumnWriter.encoding_callAll, hencoding]

/-- Steps that land on leaves with writers do not fail. -/
theorem execSteps_land {paths : List LeafPath} {steps : List Step} :
    ∀ {t : CSTableWriter}, AllLand [] paths steps → (∀ p ∈ paths, HasWriter t p) →
      ∃ t', CxxM.exec (execSteps steps) t = (.ok (), t') := by
  induction steps with
  | nil => exact fun _ _ => ⟨_, rfl⟩
  | cons s ss ih =>
    intro t hland hwriters
    -- the step finds a column that takes its argument
    have hstep : (CxxM.exec s.exec t).1 = .ok () := by
      obtain ⟨p, hp, r, d, arg, rfl, htakes⟩ := hland s List.mem_cons_self
      obtain ⟨i, slot, w, hget, hslot, hw, hencoding⟩ := hwriters p hp
      rw [← hencoding] at htakes
      obtain ⟨w', hw'⟩ := call_ok htakes r d
      have hcol : CxxM.exec (getColumnWriter (p.name [])) t = (.ok i, t) := by
        rw [← hget]
        rfl
      unfold Step.exec
      rw [CxxM.exec_bind_ok hcol, CxxM.lift_ok_bind]
      unfold CxxM.exec CSTableWriter.writeColumn CSTableWriter.slot
      rw [hslot]
      dsimp only
      rw [hw]
      dsimp only
      rw [hw']
    rcases exec_step s t with ⟨hok, -, hwrote⟩ | ⟨⟨e, herror⟩, -⟩
    · rw [execSteps, CxxM.exec_bind_ok (Prod.ext hok rfl :
        CxxM.exec s.exec t = (.ok (), (CxxM.exec s.exec t).2))]
      exact ih (fun s' hs' => hland s' (List.mem_cons_of_mem s hs')) fun p hp =>
        (hwriters p hp).of_wrote hwrote
    · rw [hstep] at herror
      cases herror

/-! ### Tables of records -/

/-- What a record holds on the way to a leaf. -/
def RecordContains (m : MessageLeaf) (record : MessageObject) (c : Nest ScalarValue m.path.hops) :
    Prop :=
  (∃ id children, record = .object id children ∧ Contains m.type m.leaf m.parents children c) ∧
    Present m.path.hops c ∧ Single m.path.hops c

/-- The calls of a record on the column of a leaf. -/
def leafCalls (m : MessageLeaf) (c : Nest ScalarValue m.path.hops) : List WriteCall :=
  (stripe m.path.hops 0 0 0 (Nest.map ScalarValue.arg _ c)).map toCall

/-- The slot has a writer for the leaf, and the calls of the records. -/
def HoldsCalls (m : MessageLeaf) (records : List MessageObject) (slot : ColumnSlot) : Prop :=
  (∃ w, slot.writer = .v1 w ∧ w.data_writer.encoding = m.path.encoding) ∧
    ∃ cs, List.Forall₂ (RecordContains m) records cs ∧ slot.history = cs.flatMap (leafCalls m)

/-- A table for a message schema, with the calls of the records in its columns. -/
structure RecordsWritten (mem : Uninit) (schema : MessageSchema) (t : CSTableWriter)
    (records : List MessageObject) : Prop where
  own : t.OwnSchema mem
  names : (t.columns.map ColumnConfig.column_name).Nodup
  columns : ColumnsFor t.schema schema
  paths : (schemaPaths t.schema).Perm ((messageLeaves schema).map MessageLeaf.path)
  slots : ∀ m ∈ messageLeaves schema, ∀ i : Nat, (schemaPaths t.schema)[i]? = some m.path →
    ∃ slot, t.column_writers[i]? = some slot ∧ HoldsCalls m records slot

/-- No scalar type of a message is stored in the one encoding that has no class in version
0.1.0. -/
theorem columnOfFieldType_encoding (type : ScalarType) :
    (columnOfFieldType type).2 ≠ .UINT64_PLAIN := by
  obtain ⟨type, htype⟩ := type
  cases type with
  | OBJECT => exact absurd rfl htype
  | _ => exact ColumnEncoding.noConfusion

/-- The writer a new table has for a leaf. A table of v0.2.0 has none: there is no column
of the encoding it knows. -/
theorem holdsCalls_of_openedFor {version : BinaryFormatVersion} {m : MessageLeaf} {mem : Uninit}
    {i : Nat} {slot : ColumnSlot}
    (h : OpenedFor version ((m.path.flat [] 0 0).config mem i) slot) : HoldsCalls m [] slot := by
  have hcode : ColumnEncoding.ofCode? ((m.path.flat [] 0 0).config mem i).storage_type =
      some m.path.encoding := ColumnEncoding.ofCode?_code _
  cases version with
  | v0_1_0 =>
    obtain ⟨w, hw, rfl⟩ := h
    unfold CSTableWriter.openColumnV1 at hw
    rw [hcode] at hw
    cases hw
    refine ⟨⟨_, rfl, ?_⟩, [], .nil, rfl⟩
    show (v1.ColumnWriter.newDataWriter _ _).encoding = _
    cases m.path.encoding <;> rfl
  | v0_2_0 =>
    obtain ⟨w, pages, pages', hw, rfl⟩ := h
    unfold CSTableWriter.openColumnV2 at hw
    split at hw
    · unfold UnsignedIntColumnWriter.new at hw
      rcases DefaultColumnWriter.new ((m.path.flat [] 0 0).config mem i) pages with ⟨base, s⟩
      dsimp only at hw
      rw [hcode] at hw
      split at hw
      · next heq => exact absurd (Option.some.inj heq) (columnOfFieldType_encoding m.type)
      · cases hw
    · cases hw

/-- A new table holds no records. -/
theorem recordsWritten_createFile {mem : Uninit} {order order' : HashOrder}
    {version : BinaryFormatVersion} {schema : MessageSchema} {t : CSTableWriter}
    (hnames : ((messageLeaves schema).map (MessageLeaf.name · [])).Nodup)
    (h : CSTableWriter.createFile mem order' version (fromProtobuf order schema) = .ok t) :
    RecordsWritten mem schema t [] := by
  have hown : t.OwnSchema mem := createFile_ownSchema h
  obtain ⟨⟨file, header_size⟩, -, hnew⟩ := Result.bind_eq_ok.mp h
  obtain ⟨⟨slots, pages⟩, hopen, hret⟩ := Result.bind_eq_ok.mp hnew
  have hschema : t.schema = copy order' (fromProtobuf order schema) := by
    cases hret
    rfl
  have hopened : List.Forall₂ (OpenedFor t.version) t.columns t.column_writers := by
    cases hret
    exact openColumns_spec hopen
  -- the map of columns may list the leaves in another order, under the same names
  have hpaths : (schemaPaths t.schema).Perm ((messageLeaves schema).map MessageLeaf.path) := by
    rw [hschema]
    exact (schemaPaths_copy order' _).trans (schemaPaths_fromProtobuf order schema)
  refine ⟨hown, ?_, ?_, hpaths, fun m hm i hi => ?_⟩
  · rw [hown.map_column_name]
    have hperm := hpaths.map fun p => p.name []
    rw [List.map_map] at hperm
    exact hperm.nodup_iff.mpr hnames
  · rw [hschema]
    exact (columnsFor_fromProtobuf order schema schema fun _ hf => hf).copy order'
  · have hcol : t.columns[i]? = some ((m.path.flat [] 0 0).config mem i) := by
      rw [hown.getElem?_columns, hi]
      rfl
    obtain ⟨hci, hcol⟩ := List.getElem?_eq_some_iff.mp hcol
    have hlt : i < t.column_writers.length := hown.length ▸ hci
    have hopenedi := (List.forall₂_iff_get.mp hopened).2 i hci hlt
    rw [List.get_eq_getElem, List.get_eq_getElem, hcol] at hopenedi
    exact ⟨_, List.getElem?_eq_getElem hlt, holdsCalls_of_openedFor hopenedi⟩

/-- In a table made for the schema every leaf has its column writer, after any number of
records. -/
theorem RecordsWritten.hasWriter {mem : Uninit} {schema : MessageSchema} {t : CSTableWriter}
    {records : List MessageObject} (h : RecordsWritten mem schema t records) :
    ∀ p ∈ schemaPaths t.schema, HasWriter t p := by
  intro p hp
  obtain ⟨i, hi⟩ := List.mem_iff_getElem?.mp hp
  obtain ⟨m, hm, rfl⟩ := List.mem_map.mp (h.paths.mem_iff.mp hp)
  obtain ⟨slot, hslot, ⟨w, hw, hencoding⟩, -⟩ := h.slots m hm i hi
  have hcol : t.columns[i]? = some ((m.path.flat [] 0 0).config mem i) := by
    rw [h.own.getElem?_columns, hi]
    rfl
  exact ⟨i, slot, w, (CSTableWriter.getColumnWriter_eq_ok h.names hcol _).mpr rfl, hslot, hw,
    hencoding⟩

/-- A conforming record is accepted, and its content is added to every column. -/
theorem addRecordFromProtobuf_conforming {mem : Uninit} {schema : MessageSchema}
    {t : CSTableWriter} {records : List MessageObject} {record : MessageObject}
    (hdistinct : AtEveryLevel DistinctFields schema) (h : RecordsWritten mem schema t records)
    (hconform : Conforms schema record) :
    ∃ t', CxxM.exec (addRecordFromProtobuf t.schema record schema) t = (.ok (), t') ∧
      t'.schema = t.schema ∧ RecordsWritten mem schema t' (records ++ [record]) := by
  obtain ⟨id, children, rfl, hconform⟩ := hconform
  have hland : AllLand [] (schemaPaths t.schema)
      (recordSteps t.schema (.object id children) schema) :=
    fieldStepsOf_land 0 0 0 [] t.schema h.columns hdistinct hconform.fields
  obtain ⟨t₁, ht₁⟩ := execSteps_land hland h.hasWriter
  have hexec : CxxM.exec (addRecordFromProtobuf t.schema (.object id children) schema) t =
      (.ok (), t₁.addRow) := by
    rw [exec_addRecord, ht₁]
  have hshredded := addRecordFromProtobuf_ok h.own h.names hexec
  refine ⟨_, hexec, hshredded.schema, ?_, ?_, ?_, ?_, fun m hm i hi => ?_⟩
  · have hkeep := (CSTableWriter.keptByWrites_ownSchema mem).addRecord t.schema
      (.object id children) schema t h.own
    rwa [hexec] at hkeep
  · rw [hshredded.columns]
    exact h.names
  · rw [hshredded.schema]
    exact h.columns
  · rw [hshredded.schema]
    exact h.paths
  · rw [hshredded.schema] at hi
    obtain ⟨slot, hslot, ⟨w, hw, hencoding⟩, cs, hcs, hhistory⟩ := h.slots m hm i hi
    obtain ⟨slot', c', hslot', hc', -, hhistory', hwriter⟩ := hshredded.slots i m.path slot hi hslot
    obtain ⟨c, hc, hoccurs⟩ : ∃ c : Nest ScalarValue m.path.hops,
        Contains m.type m.leaf m.parents children c ∧ Present m.path.hops c ∧
          Single m.path.hops c := exists_contains hm hconform.fields
    -- the content the shredder wrote is the content the record has
    have heq := hc'.unique (hasContent_of_contains hdistinct hm hc)
    subst heq
    refine ⟨slot', hslot', ⟨_, (hwriter w hw).1, ?_⟩, cs ++ [c], ?_, ?_⟩
    · rw [v1.ColumnWriter.encoding_callAll, hencoding]
    · exact List.rel_append hcs (.cons ⟨⟨id, children, rfl, hc⟩, hoccurs⟩ .nil)
    · rw [hhistory', hhistory, List.flatMap_append, List.flatMap_singleton]
      rfl

/-- Conforming records are accepted one after the other. -/
theorem addRecords_conforming {mem : Uninit} {schema : MessageSchema}
    (hdistinct : AtEveryLevel DistinctFields schema) {records : List MessageObject} :
    ∀ {t : CSTableWriter} {written : List MessageObject}, RecordsWritten mem schema t written →
      (∀ record ∈ records, Conforms schema record) →
      ∃ t', CxxM.exec (addRecords t.schema (records.map fun record => (record, schema))) t =
          (.ok (), t') ∧ RecordsWritten mem schema t' (written ++ records) := by
  induction records with
  | nil =>
    intro t written h _
    refine ⟨t, rfl, ?_⟩
    rw [List.append_nil]
    exact h
  | cons record records ih =>
    intro t written h hconform
    obtain ⟨t₁, hexec, hschema, h₁⟩ := addRecordFromProtobuf_conforming hdistinct h
      (hconform record List.mem_cons_self)
    obtain ⟨t', hexec', h'⟩ := ih h₁ fun r hr => hconform r (List.mem_cons_of_mem record hr)
    rw [hschema] at hexec'
    rw [List.append_assoc, List.singleton_append] at h'
    refine ⟨t', ?_, h'⟩
    rw [List.map_cons, addRecords, CxxM.exec_bind_ok hexec, hexec']

end RecordShredder

end CStable
