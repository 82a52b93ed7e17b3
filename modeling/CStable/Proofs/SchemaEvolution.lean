import CStable.Proofs.RecordFile

/-!
# `CStable.Proofs.SchemaEvolution`: reading a file with another schema

A materializer need not be given the schema the table was written with: it opens the
columns whose names both have, and leaves the others out. When the columns of the same name
are the same leaf in both schemas (`Compatible`), what it reads is the projection of the
records to these columns (`evolvedSchema`), and the records themselves when no column is
missing from the schema it is given (`newerSchema`).
-/

set_option autoImplicit false

namespace CStable

open TableSchema (fromProtobuf)

namespace RecordMaterializer

/-- Any calls on a materializer that was given another schema than the one the file was
written with, and a filter: a record that is read is the projection of the one at its
position to the columns both schemas have. -/
theorem evolvedSchema (ops : DoubleOps) {mem : Uninit} (mem' : Uninit) {order order' : HashOrder}
    {schema schema' : MessageSchema} {t : CSTableWriter} {records : List MessageObject}
    (columns : List Bytes) (hdistinct : AtEveryLevel DistinctFields schema)
    (hnames : ((messageLeaves schema).map (MessageLeaf.name · [])).Nodup)
    (hnames' : ((messageLeaves schema').map (MessageLeaf.name · [])).Nodup)
    (hleaves : AtEveryLevel ObjectsHaveLeaves schema) (hcompatible : Compatible schema schema')
    (hcreate : CSTableWriter.createFile mem order' .v0_1_0 (fromProtobuf order schema) = .ok t)
    (hconform : ∀ record ∈ records, Conforms schema record)
    (hstrings : ∀ record ∈ records, StringsFit record) :
    ∃ t', CxxM.exec (RecordShredder.addRecords t.schema
          (records.map fun record => (record, schema))) t = (.ok (), t') ∧
      (∀ t'', t'.commit mem = .ok t'' →
          ∃ table, CSTableReader.openFile mem' (contents t''.file) = .ok table ∧
            ∀ walk, ∃ bound, ∀ fuel, bound ≤ fuel → ∀ calls : List Call,
              (∀ call ∈ calls, FromEmpty call) → calls.length ≤ records.length →
              ∃ m outs, runCalls ops fuel calls
                  (ofTable ops.toFloatOps walk schema' table columns) = .ok (m, outs) ∧
                List.Forall₂ (fun p out => Answers (fun out record => Alike out
                    (project (filteredNames columns schema') schema record)) p.2 p.1 out)
                  (calls.zip records) outs) := by
  obtain ⟨t', hexec, hfile⟩ := exists_fileCalls ops mem' hdistinct hnames hcreate hconform hstrings
  refine ⟨t', hexec, fun t'' hcommit => ?_⟩
  obtain ⟨table, hopen, -, hcalls⟩ := hfile t'' hcommit
  refine ⟨table, hopen, fun walk => ?_⟩
  obtain ⟨bound, hbound⟩ := hcalls schema' hnames' hcompatible columns walk
  refine ⟨bound, fun fuel hfuel calls hempty hlen => ?_⟩
  obtain ⟨m, outs, hrun, houts⟩ := hbound fuel hfuel calls hempty hlen
  exact ⟨m, outs, hrun, houts.imp fun p out h => h.2.imp fun out hkept =>
    alike_project_record hdistinct hleaves h.1 hkept⟩

deriving instance DecidableEq for MessageLeaf

/-- A schema without two of the fields of the sample, and with two new ones. -/
def otherSchema : MessageSchema :=
  [.scalar 8 [0x66] ⟨.BOOLEAN, FieldType.noConfusion⟩ false true,
    .object 1 [0x61] true false
      [.scalar 7 [0x65] ⟨.UINT64, FieldType.noConfusion⟩ false false,
        .scalar 3 [0x63] ⟨.STRING, FieldType.noConfusion⟩ true false]]

/-- The strings of the sample, through the other schema. -/
theorem evolvedSchema_sample :
    let mem : Uninit := zeroUninit
    let order : HashOrder := ⟨id, fun _ => .refl _⟩
    let walk : WalkOrder TableColumn := ⟨List.reverse, List.reverse_perm⟩
    let ops : DoubleOps := ⟨v1.noFloats, fun _ => 0⟩
    let calls : List Call := [.next (.object 0 []), .skip]
    ∃ t t' t'' table, CSTableWriter.createFile mem order .v0_1_0 (fromProtobuf order sampleSchema) =
        .ok t ∧
      CxxM.exec (RecordShredder.addRecords t.schema
        (sampleRecords.map fun record => (record, sampleSchema))) t = (.ok (), t') ∧
      t'.commit mem = .ok t'' ∧ CSTableReader.openFile mem (contents t''.file) = .ok table ∧
      ∃ fuel m outs, runCalls ops fuel calls
          (ofTable ops.toFloatOps walk otherSchema table []) = .ok (m, outs) ∧
        List.Forall₂ (fun p out => Answers (fun out record => Alike out
            (project [[0x66], [0x61, 0x2e, 0x65], [0x61, 0x2e, 0x63]] sampleSchema record))
            p.2 p.1 out)
          (calls.zip sampleRecords) outs := by
  intro mem order walk ops calls
  obtain ⟨t, t', t'', ht, hexec, hcommit⟩ := sampleFile (Or.inl rfl) (Or.inl rfl)
  have hcompatible : Compatible sampleSchema otherSchema := by
    unfold Compatible
    decide
  obtain ⟨u, hexec', hfile⟩ := @evolvedSchema ops mem mem order order sampleSchema otherSchema t
    sampleRecords [] sampleSchema_distinct (by decide) (by decide)
    sampleSchema_leaves hcompatible ht sampleRecords_conform
    sampleRecords_strings
  obtain rfl : t' = u := (Prod.mk.inj (hexec.symm.trans hexec')).2
  obtain ⟨table, hopen, hread⟩ := hfile t'' hcommit
  obtain ⟨bound, hbound⟩ := hread walk
  refine ⟨t, t', t'', table, ht, hexec, hcommit, hopen, bound,
    hbound bound (Nat.le_refl _) calls (fun call hcall record hrecord => ?_) (Nat.le_refl _)⟩
  simp only [calls, List.mem_cons, List.not_mem_nil, or_false] at hcall
  rcases hcall with rfl | rfl
  · cases hrecord
    exact ⟨0, rfl⟩
  · cases hrecord

/-- A file that was written with an older schema returns its records through any schema that
has all of its columns. -/
theorem newerSchema (ops : DoubleOps) {mem : Uninit} (mem' : Uninit) {order order' : HashOrder}
    {schema schema' : MessageSchema} {t : CSTableWriter} {records : List MessageObject}
    (hdistinct : AtEveryLevel DistinctFields schema)
    (hnames : ((messageLeaves schema).map (MessageLeaf.name · [])).Nodup)
    (hnames' : ((messageLeaves schema').map (MessageLeaf.name · [])).Nodup)
    (hleaves : AtEveryLevel ObjectsHaveLeaves schema)
    (hnewer : messageLeaves schema ⊆ messageLeaves schema')
    (hcreate : CSTableWriter.createFile mem order' .v0_1_0 (fromProtobuf order schema) = .ok t)
    (hconform : ∀ record ∈ records, Conforms schema record)
    (hstrings : ∀ record ∈ records, StringsFit record) :
    ∃ t', CxxM.exec (RecordShredder.addRecords t.schema
          (records.map fun record => (record, schema))) t = (.ok (), t') ∧
      (∀ t'', t'.commit mem = .ok t'' →
          ∃ table, CSTableReader.openFile mem' (contents t''.file) = .ok table ∧
            ∀ walk, ∃ bound, ∀ fuel, bound ≤ fuel → ∀ ids : List UInt32,
              ids.length = records.length →
              ∃ m outs, runCalls ops fuel (ids.map fun id => .next (.object id []))
                  (ofTable ops.toFloatOps walk schema' table []) = .ok (m, outs.map some) ∧
                List.Forall₂ Alike outs records) := by
  have hcompatible : Compatible schema schema' := fun m hm m' hm' hname =>
    List.inj_on_of_nodup_map hnames' (hnewer hm) hm' hname
  obtain ⟨t', hexec, hfile⟩ := exists_fileCalls ops mem' hdistinct hnames hcreate hconform hstrings
  refine ⟨t', hexec, fun t'' hcommit => ?_⟩
  obtain ⟨table, hopen, -, hcalls⟩ := hfile t'' hcommit
  exact ⟨table, hopen, fun walk => nextRecords_alike hleaves (mem_filteredNames_nil hnewer)
    (hcalls schema' hnames' hcompatible [] walk)⟩

/-- The schema of the sample with a field more in the object and one more in front. -/
def extendedSchema : MessageSchema :=
  [.scalar 8 [0x66] ⟨.BOOLEAN, FieldType.noConfusion⟩ false true,
    .object 1 [0x61] true false
      [.scalar 2 [0x62] ⟨.UINT64, FieldType.noConfusion⟩ false true,
        .scalar 7 [0x65] ⟨.UINT64, FieldType.noConfusion⟩ false true,
        .scalar 3 [0x63] ⟨.STRING, FieldType.noConfusion⟩ true false],
    .scalar 4 [0x64] ⟨.BOOLEAN, FieldType.noConfusion⟩ false false]

/-- The records of the sample through the extended schema. -/
theorem newerSchema_sample :
    let mem : Uninit := zeroUninit
    let order : HashOrder := ⟨id, fun _ => .refl _⟩
    let walk : WalkOrder TableColumn := ⟨List.reverse, List.reverse_perm⟩
    let ops : DoubleOps := ⟨v1.noFloats, fun _ => 0⟩
    ∃ t t' t'' table, CSTableWriter.createFile mem order .v0_1_0 (fromProtobuf order sampleSchema) =
        .ok t ∧
      CxxM.exec (RecordShredder.addRecords t.schema
        (sampleRecords.map fun record => (record, sampleSchema))) t = (.ok (), t') ∧
      t'.commit mem = .ok t'' ∧ CSTableReader.openFile mem (contents t''.file) = .ok table ∧
      ∃ fuel m outs, runCalls ops fuel [.next (.object 0 []), .next (.object 0 [])]
          (ofTable ops.toFloatOps walk extendedSchema table []) = .ok (m, outs.map some) ∧
        List.Forall₂ Alike outs sampleRecords := by
  intro mem order walk ops
  obtain ⟨t, t', t'', ht, hexec, hcommit⟩ := sampleFile (Or.inl rfl) (Or.inl rfl)
  have hnewer : ∀ m ∈ messageLeaves sampleSchema, m ∈ messageLeaves extendedSchema := by decide
  obtain ⟨u, hexec', hfile⟩ := @newerSchema ops mem mem order order sampleSchema extendedSchema t
    sampleRecords sampleSchema_distinct (by decide) (by decide) sampleSchema_leaves
    (fun m hm => hnewer m hm) ht sampleRecords_conform sampleRecords_strings
  obtain rfl : t' = u := (Prod.mk.inj (hexec.symm.trans hexec')).2
  obtain ⟨table, hopen, hread⟩ := hfile t'' hcommit
  obtain ⟨bound, hbound⟩ := hread walk
  exact ⟨t, t', t'', table, ht, hexec, hcommit, hopen, bound,
    hbound bound (Nat.le_refl _) [0, 0] rfl⟩

end RecordMaterializer

end CStable
