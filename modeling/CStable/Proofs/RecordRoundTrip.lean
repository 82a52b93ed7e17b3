import CStable.Proofs.LoadedRecords

/-!
# `CStable.Proofs.RecordRoundTrip`: records that are shredded and read back

Children of an object with different ids come from different columns, and the order of
the columns is that of a hash map. What is read back is therefore the record that was
written up to the order of such children (`Alike`).

* `shredded_materialized`: records of any schema come back as they were written, whatever
  the orders of the hash maps are.
-/

set_option autoImplicit false

namespace CStable

open TableSchema (fromProtobuf)

/-- The messages are equal but for the order of children with different ids: for every id
the children with it are the same in number and order, and equal in this sense. The ids of
the messages themselves are not compared. -/
inductive Alike : MessageObject → MessageObject → Prop where
  | scalar (id : UInt32) (value : ScalarValue) : Alike (.scalar id value) (.scalar id value)
  | object {id id' : UInt32} {children children' : List MessageObject}
      (h : ∀ i, List.Forall₂ Alike (childrenOf i children) (childrenOf i children')) :
      Alike (.object id children) (.object id' children')

/-- Every object of the schema has a leaf below it. -/
def ObjectsHaveLeaves (schema : MessageSchema) : Prop := ∀ f ∈ schema, fieldLeaves f ≠ []

/-- No child of a conforming object has an id that is not in the schema. -/
theorem childrenOf_eq_nil_of_not_mem {schema : MessageSchema} {children : List MessageObject}
    (hknown : ∀ c ∈ children, c.id ∈ schema.map MessageSchemaField.id) {id : UInt32}
    (hid : id ∉ schema.map MessageSchemaField.id) : childrenOf id children = [] :=
  RecordMaterializer.childrenOf_eq_nil fun c hc heq => hid (heq ▸ hknown c hc)

mutual

/-- With all leaves kept the occurrences of a field are those of the record. -/
theorem alike_field (f : MessageSchemaField) (hleaves : fieldLeaves f ≠ [])
    (hinside : InsideField ObjectsHaveLeaves f) {occurrences kept : List MessageObject}
    (hconform : FieldConforms f occurrences)
    (hkept : FieldKept (fun _ => True) f occurrences kept) :
    List.Forall₂ Alike kept occurrences := by
  match f with
  | .scalar id name type repeated optional =>
    rw [hkept.1 trivial]
    refine List.forall₂_same.mpr fun o ho => ?_
    obtain ⟨value, rfl, -⟩ := hconform.2 o ho
    exact .scalar id value
  | .object id name repeated optional schema =>
    rw [InsideField] at hinside
    rw [FieldConforms] at hconform
    rw [fieldLeaves, Ne, List.map_eq_nil_iff] at hleaves
    -- an object is built for the sake of a leaf below it, so it has to have one
    obtain ⟨p, hp⟩ := List.exists_mem_of_ne_nil _ hleaves
    have hobjects : ObjectsKept (fun _ => True) ⟨id, ⟨name, repeated, optional⟩⟩ schema
        occurrences kept := fieldKept_object.mp hkept
    have hall := (List.forall₂_and_left _ _).mpr ⟨hconform.2, hobjects.any ⟨p, hp, trivial⟩⟩
    refine hall.flip.imp fun k o hok => ?_
    obtain ⟨⟨children, heq, hknown, hconform'⟩, children', kept', rfl, rfl, hkept'⟩ := hok
    cases heq
    refine .object fun i => ?_
    by_cases hi : i ∈ schema.map MessageSchemaField.id
    · obtain ⟨g, hg, rfl⟩ := List.mem_map.mp hi
      exact alike_fields schema hinside.1 hinside.2 hconform' hkept'.fields g hg
    · rw [childrenOf_eq_nil_of_not_mem hkept'.known hi, childrenOf_eq_nil_of_not_mem hknown hi]
      exact .nil

/-- The fields of a message one by one: each keeps its children, in their order. This is the
step of the induction on the schema. -/
theorem alike_fields (fs : List MessageSchemaField) (hleaves : ∀ f ∈ fs, fieldLeaves f ≠ [])
    (hinside : InsideFields ObjectsHaveLeaves fs) {children kept : List MessageObject}
    (hconform : FieldsConform fs children) (hkept : FieldsKept (fun _ => True) fs children kept) :
    ∀ f ∈ fs, List.Forall₂ Alike (childrenOf f.id kept) (childrenOf f.id children) := by
  match fs with
  | [] => exact fun f hf => absurd hf List.not_mem_nil
  | f :: fs =>
    rw [InsideFields] at hinside
    rw [FieldsConform] at hconform
    rw [FieldsKept] at hkept
    intro g hg
    rcases List.mem_cons.mp hg with heq | hg
    · rw [heq]
      exact alike_field f (hleaves f List.mem_cons_self) hinside.1 hconform.1 hkept.1
    · exact alike_fields fs (fun f' hf' => hleaves f' (List.mem_cons_of_mem f hf')) hinside.2
        hconform.2 hkept.2 g hg

end

/-- With all leaves kept the record is the one that was written. -/
theorem alike_of_kept {schema : MessageSchema} (hleaves : AtEveryLevel ObjectsHaveLeaves schema)
    {out record : MessageObject} (hconform : Conforms schema record)
    (hkept : RecordMaterializer.KeptOf (fun _ => True) schema out record) : Alike out record := by
  obtain ⟨rid, children, rfl, hconform⟩ := hconform
  obtain ⟨id, id', children', kept, heq, rfl, hkept⟩ := hkept
  cases heq
  refine .object fun i => ?_
  by_cases hi : i ∈ schema.map MessageSchemaField.id
  · obtain ⟨g, hg, rfl⟩ := List.mem_map.mp hi
    exact alike_fields schema hleaves.1 hleaves.2 hconform.fields hkept.fields g hg
  · rw [childrenOf_eq_nil_of_not_mem hkept.known hi, childrenOf_eq_nil_of_not_mem hconform.known hi]
    exact .nil

namespace RecordMaterializer

variable {ρ : Type} [AbstractColumnReader ρ]

/-- Records that conform to a schema are accepted by a table with the schema `fromProtobuf`
makes of it, and a materializer over columns that return what was written to them returns
them one after the other. -/
theorem shredded_materialized (ops : DoubleOps) (walk : WalkOrder ρ) {mem : Uninit}
    {order order' : HashOrder} {version : BinaryFormatVersion} {schema : MessageSchema}
    {t : CSTableWriter} {records : List MessageObject}
    (hdistinct : AtEveryLevel DistinctFields schema)
    (hnames : ((messageLeaves schema).map (MessageLeaf.name · [])).Nodup)
    (hleaves : AtEveryLevel ObjectsHaveLeaves schema)
    (hcreate : CSTableWriter.createFile mem order' version (fromProtobuf order schema) = .ok t)
    (hconform : ∀ record ∈ records, Conforms schema record) :
    ∃ t', CxxM.exec (RecordShredder.addRecords t.schema
          (records.map fun record => (record, schema))) t = (.ok (), t') ∧
      ∀ reader : Bytes → Option ρ, ReadsBack t' reader →
        ∃ bound, ∀ fuel, bound ≤ fuel → ∀ ids : List UInt32, ids.length = records.length →
          ∃ m' outs, runCalls ops fuel (ids.map fun id => .next (.object id []))
              (new walk schema reader []) = .ok (m', outs.map some) ∧
            List.Forall₂ Alike outs records := by
  obtain ⟨t', hexec, hwritten⟩ := RecordShredder.addRecords_conforming hdistinct
    (RecordShredder.recordsWritten_createFile hnames hcreate) hconform
  rw [List.nil_append] at hwritten
  refine ⟨t', hexec, fun reader hreads => ?_⟩
  obtain ⟨bound, hbound⟩ := nextRecord_kept ops walk hdistinct hnames hwritten hconform hreads []
  refine ⟨bound, fun fuel hfuel ids hids => ?_⟩
  obtain ⟨m', outs, hrun, houts⟩ := hbound fuel hfuel ids hids
  refine ⟨m', outs, hrun, ?_⟩
  have hall := (List.forall₂_and_left records outs).mpr ⟨hconform, houts.flip⟩
  refine hall.flip.imp fun out record h => alike_of_kept hleaves h.1 ?_
  obtain ⟨id, id', children, kept, heq, hout, hkept⟩ := h.2
  exact ⟨id, id', children, kept, heq, hout, hkept.congr fun m _ => iff_true_intro rfl⟩

/-- A repeated object with an optional and a repeated field, and a required field. -/
def sampleSchema : MessageSchema :=
  [.object 1 [0x61] true false
    [.scalar 2 [0x62] ⟨.UINT64, FieldType.noConfusion⟩ false true,
      .scalar 3 [0x63] ⟨.STRING, FieldType.noConfusion⟩ true false],
    .scalar 4 [0x64] ⟨.BOOLEAN, FieldType.noConfusion⟩ false false]

/-- Two objects around the required field, the second of them empty; and no object. -/
def sampleRecords : List MessageObject :=
  [.object 0 [.object 1 [.scalar 3 (.string [0x78]), .scalar 2 (.uint64 7), .scalar 3 (.string [])],
    .scalar 4 (.boolean true), .object 1 []],
    .object 0 [.scalar 4 (.boolean false)]]

/-- The fields of the sample schema have ids of their own at every level. -/
theorem sampleSchema_distinct : AtEveryLevel DistinctFields sampleSchema :=
  ⟨⟨by decide, by decide⟩, ⟨⟨by decide, by decide⟩, trivial, trivial, trivial⟩, trivial, trivial⟩

/-- Every object of the sample schema has a leaf below it. -/
theorem sampleSchema_leaves : AtEveryLevel ObjectsHaveLeaves sampleSchema := by
  simp [sampleSchema, AtEveryLevel, InsideFields, InsideField, ObjectsHaveLeaves, fieldLeaves,
    messageLeaves]

/-- The sample records have no field that the schema lacks, and every required field. -/
theorem sampleRecords_conform : ∀ record ∈ sampleRecords, Conforms sampleSchema record := by
  intro record hrecord
  rcases List.mem_cons.mp hrecord with rfl | hrecord
  · refine ⟨_, _, rfl, by decide, ?_⟩
    simp [sampleSchema, FieldsConform, FieldConforms, childrenOf, MessageObject.id,
      MessageSchemaField.id, occurs_iff, ScalarValue.type]
  · obtain rfl := List.mem_singleton.mp hrecord
    refine ⟨_, _, rfl, by decide, ?_⟩
    simp [sampleSchema, FieldsConform, FieldConforms, childrenOf, MessageObject.id,
      MessageSchemaField.id, occurs_iff, ScalarValue.type]

/-- The records of the sample, read from columns that hold what was written. -/
theorem shredded_materialized_sample :
    let mem : Uninit := zeroUninit
    let order : HashOrder := ⟨id, fun _ => .refl _⟩
    let walk : WalkOrder EntryReader := ⟨List.reverse, List.reverse_perm⟩
    let ops : DoubleOps := ⟨v1.noFloats, fun _ => 0⟩
    ∃ t t', CSTableWriter.createFile mem order .v0_1_0 (fromProtobuf order sampleSchema) = .ok t ∧
      CxxM.exec (RecordShredder.addRecords t.schema
        (sampleRecords.map fun record => (record, sampleSchema))) t = (.ok (), t') ∧
      ∃ fuel m' outs, runCalls ops fuel [.next (.object 0 []), .next (.object 0 [])]
          (new walk sampleSchema (entryReaders t') []) = .ok (m', outs.map some) ∧
        List.Forall₂ Alike outs sampleRecords := by
  intro mem order walk ops
  obtain ⟨t, ht⟩ : ∃ t, CSTableWriter.createFile mem order .v0_1_0
      (fromProtobuf order sampleSchema) = .ok t := ⟨_, rfl⟩
  have hnames : ((messageLeaves sampleSchema).map (MessageLeaf.name · [])).Nodup := by decide
  obtain ⟨t', hexec, hread⟩ := shredded_materialized ops walk sampleSchema_distinct hnames
    sampleSchema_leaves ht sampleRecords_conform
  obtain ⟨t'', hexec', hwritten⟩ := RecordShredder.addRecords_conforming sampleSchema_distinct
    (RecordShredder.recordsWritten_createFile hnames ht) sampleRecords_conform
  obtain rfl : t' = t'' := (Prod.mk.inj (hexec.symm.trans hexec')).2
  obtain ⟨bound, hbound⟩ := hread (entryReaders t') (readsBack_entryReaders hwritten)
  exact ⟨t, t', ht, hexec, bound, hbound bound (Nat.le_refl _) [0, 0] rfl⟩

end RecordMaterializer

end CStable
