import CStable.Proofs.SameTables

/-!
# `CStable.Proofs.Canonical`: records that make the same file

The walk over a record looks the children of an object up by their id, so it does not see
the order of children with different ids (`recordSteps_alike`). What it writes determines
the record up to this order, since the record can be read back. So the file of a v0.1.0
table is a canonical form of its records (`sameFile_iff`), and writing records that were
read from a file gives the same file once more (`rewriteFile`).
-/

set_option autoImplicit false

namespace CStable

open TableSchema (fromProtobuf)

/-! ### Messages that are alike -/

/-- Messages as they are built: a property of the children of an object holds of it. -/
theorem MessageObject.induction {P : MessageObject → Prop}
    (hscalar : ∀ id value, P (.scalar id value))
    (hobject : ∀ id children, (∀ c ∈ children, P c) → P (.object id children)) :
    ∀ msg, P msg
  | .scalar id value => hscalar id value
  | .object id children => hobject id children fun c _ =>
    MessageObject.induction hscalar hobject c

namespace Alike

/-- A message is like itself. -/
theorem refl (msg : MessageObject) : Alike msg msg := by
  induction msg using MessageObject.induction with
  | hscalar id value => exact .scalar id value
  | hobject id children ih =>
    exact .object fun i => List.forall₂_same.mpr fun c hc => ih c (List.mem_filter.mp hc).1

/-- Being alike goes both ways. -/
theorem symm {msg msg' : MessageObject} (h : Alike msg msg') : Alike msg' msg := by
  induction msg using MessageObject.induction generalizing msg' with
  | hscalar id value =>
    cases h
    exact .scalar id value
  | hobject id children ih =>
    cases h with
    | object h =>
      refine .object fun i => ?_
      have hchildren : ∀ c ∈ childrenOf i children, ∀ c', Alike c c' → Alike c' c := fun c hc _ =>
        ih c (List.mem_filter.mp hc).1
      have hboth := (List.forall₂_and_left _ _).mpr ⟨hchildren, h i⟩
      exact hboth.flip.imp fun c' c hc => hc.1 c' hc.2

/-- Messages like the same one are alike. -/
theorem trans {msg msg' msg'' : MessageObject} (h : Alike msg msg') (h' : Alike msg' msg'') :
    Alike msg msg'' := by
  induction msg using MessageObject.induction generalizing msg' msg'' with
  | hscalar id value =>
    cases h
    exact h'
  | hobject id children ih =>
    cases h with
    | object h =>
      cases h' with
      | object h' =>
        refine .object fun i => ?_
        have hchildren : ∀ c ∈ childrenOf i children, ∀ c' c'', Alike c c' → Alike c' c'' →
            Alike c c'' := fun c hc _ _ => ih c (List.mem_filter.mp hc).1
        have hboth := (List.forall₂_and_left _ _).mpr
          ⟨hchildren, forall₂_of_common (h i).flip (h' i)⟩
        refine hboth.imp fun c c'' hc => ?_
        obtain ⟨hc, c', -, hcc', hc'⟩ := hc
        exact hc c' c'' hcc' hc'

end Alike

/-- Lists of messages that are alike one by one, the other way around. -/
theorem alikes_symm {xs ys : List MessageObject} (h : List.Forall₂ Alike xs ys) :
    List.Forall₂ Alike ys xs := h.flip.imp fun _ _ hxy => hxy.symm

/-- And over a list in between. -/
theorem alikes_trans {xs ys zs : List MessageObject} (h : List.Forall₂ Alike xs ys)
    (h' : List.Forall₂ Alike ys zs) : List.Forall₂ Alike xs zs := by
  refine (forall₂_of_common h.flip h').imp fun x z hxz => ?_
  obtain ⟨y, -, hxy, hyz⟩ := hxz
  exact Alike.trans hxy hyz

namespace RecordShredder

/-! ### The walk over messages that are alike -/

/-- Messages that are alike have the same value, or none of them has one. -/
theorem protoArg_alike {msg msg' : MessageObject} (h : Alike msg msg') (type : LeafType) :
    protoArg type msg = protoArg type msg' := by
  cases h with
  | scalar id value => rfl
  | object h =>
    obtain ⟨type, htype⟩ := type
    cases type <;> rfl

/-- The occurrences of a field are alike one by one, or can not be looked up in either
message. -/
theorem occurrencesOf_alike {msg msg' : MessageObject} (h : Alike msg msg') (schema : MessageSchema)
    (name : Bytes) :
    (∃ e, occurrencesOf schema name msg = .error e ∧ occurrencesOf schema name msg' = .error e) ∨
      ∃ id os os', occurrencesOf schema name msg = .ok (id, os) ∧
        occurrencesOf schema name msg' = .ok (id, os') ∧ List.Forall₂ Alike os os' := by
  unfold occurrencesOf
  cases schema.fieldId name with
  | error e => exact Or.inl ⟨e, rfl, rfl⟩
  | ok id =>
    cases h with
    | scalar _ value => exact Or.inl ⟨_, rfl, rfl⟩
    | object h => exact Or.inr ⟨id, _, _, rfl, rfl, h id⟩

/-- A field of messages that are alike has the same steps, when those of its occurrences are the
same. -/
theorem forFieldSteps_alike {msg msg' : MessageObject} (h : Alike msg msg')
    {act act' : UInt32 → Nat → MessageObject → List Step}
    (hact : ∀ id r o o', Alike o o' → act id r o = act' id r o') (r rmax d : Nat)
    (schema : MessageSchema) (column : Bytes) (field : Column) :
    forFieldSteps r rmax d msg schema column field act =
      forFieldSteps r rmax d msg' schema column field act' := by
  unfold forFieldSteps
  rcases occurrencesOf_alike h schema field.name with ⟨e, he, he'⟩ | ⟨id, os, os', ho, ho', hall⟩
  · rw [he, he']
  · rw [ho, ho']
    clear ho ho'
    cases hall with
    | nil => rfl
    | @cons o o' os os' hoo' hall =>
      have hrest : os.flatMap (act id (rmax + field.hop.rep)) =
          os'.flatMap (act' id (rmax + field.hop.rep)) := by
        induction hall with
        | nil => rfl
        | cons hx _ ih => rw [List.flatMap_cons, List.flatMap_cons, hact _ _ _ _ hx, ih]
      dsimp only [occurrenceSteps]
      rw [hact id r o o' hoo', hrest]

mutual

/-- The steps of a field are the same for messages that are alike, step by step. By recursion on
the column. -/
theorem fieldSteps_alike {msg msg' : MessageObject} (h : Alike msg msg') (r rmax d : Nat)
    (schema : MessageSchema) (column : Bytes) (field : Column) :
    fieldSteps r rmax d msg schema column field = fieldSteps r rmax d msg' schema column field := by
  match field with
  | .leaf name type encoding repeated optional =>
    rw [fieldSteps, fieldSteps]
    refine forFieldSteps_alike h (fun id r o o' hoo' => ?_) r rmax d schema column _
    rw [protoArg_alike hoo']
  | .subrecord name subschema repeated optional =>
    rw [fieldSteps, fieldSteps]
    refine forFieldSteps_alike h (fun id r o o' hoo' => ?_) r rmax d schema column _
    refine congrArg (stepsWith _) (funext fun o_schema => ?_)
    exact fieldStepsOf_alike hoo' _ _ _ o_schema _ subschema

/-- So are those of all fields of a schema. -/
theorem fieldStepsOf_alike {msg msg' : MessageObject} (h : Alike msg msg') (r rmax d : Nat)
    (schema : Option MessageSchema) (column : Bytes) (fields : List Column) :
    fieldStepsOf r rmax d msg schema column fields =
      fieldStepsOf r rmax d msg' schema column fields := by
  match fields with
  | [] => rfl
  | f :: fs =>
    cases schema with
    | none => rw [fieldStepsOf, fieldStepsOf]
    | some schema =>
      rw [fieldStepsOf, fieldStepsOf, fieldSteps_alike h, fieldStepsOf_alike h]

end

/-- A shredder does the same with messages that are alike, whatever the table, the schema
of the messages and the messages are, also where it raises. -/
theorem addRecordFromProtobuf_alike {msg msg' : MessageObject} (h : Alike msg msg')
    (schema_ : TableSchema) (schema : MessageSchema) :
    addRecordFromProtobuf schema_ msg schema = addRecordFromProtobuf schema_ msg' schema := by
  unfold addRecordFromProtobuf
  rw [addProtoRecordFields_eq, addProtoRecordFields_eq, fieldStepsOf_alike h]

/-- Shredding lists of records that are alike is the same computation. -/
theorem addRecords_alike {records records' : List MessageObject}
    (h : List.Forall₂ Alike records records') (schema_ : TableSchema) (schema : MessageSchema) :
    addRecords schema_ (records.map fun record => (record, schema)) =
      addRecords schema_ (records'.map fun record => (record, schema)) := by
  induction h with
  | nil => rfl
  | cons hx _ ih =>
    rw [List.map_cons, List.map_cons, addRecords, addRecords, addRecordFromProtobuf_alike hx, ih]

end RecordShredder

namespace RecordMaterializer

/-- Two lists of records that conform to a schema are shredded to the same file exactly when
they are alike one by one: the file is a canonical form of its records. The two tables are
created and committed at different times, so that memory holds different things. -/
theorem sameFile_iff {mem mem' : Uninit} {order order' : HashOrder} {schema : MessageSchema}
    {t t' : CSTableWriter} {records records' : List MessageObject}
    (hdistinct : AtEveryLevel DistinctFields schema)
    (hnames : ((messageLeaves schema).map (MessageLeaf.name · [])).Nodup)
    (hleaves : AtEveryLevel ObjectsHaveLeaves schema) (hdoubles : NoDoubles schema)
    (hcreate : CSTableWriter.createFile mem order' .v0_1_0 (fromProtobuf order schema) = .ok t)
    (hcreate' : CSTableWriter.createFile mem' order' .v0_1_0 (fromProtobuf order schema) = .ok t')
    (hconform : ∀ record ∈ records, Conforms schema record)
    (hconform' : ∀ record ∈ records', Conforms schema record)
    (hstrings : ∀ record ∈ records, StringsFit record)
    (hstrings' : ∀ record ∈ records', StringsFit record) (hlength : records.length < 2 ^ 64)
    (hlength' : records'.length < 2 ^ 64) :
    ∃ u u', CxxM.exec (RecordShredder.addRecords t.schema
          (records.map fun record => (record, schema))) t = (.ok (), u) ∧
      CxxM.exec (RecordShredder.addRecords t'.schema
          (records'.map fun record => (record, schema))) t' = (.ok (), u') ∧
      ∀ v v', u.commit mem = .ok v → u'.commit mem' = .ok v' →
        (contents v.file = contents v'.file ↔ List.Forall₂ Alike records records') := by
  let ops : DoubleOps := ⟨v1.noFloats, fun _ => 0⟩
  let walk : WalkOrder TableColumn := ⟨id, fun _ => .refl _⟩
  obtain ⟨u, hexec, hfile⟩ := exists_fileCalls ops mem hdistinct hnames hcreate hconform hstrings
  obtain ⟨u', hexec', hfile'⟩ := exists_fileCalls ops mem hdistinct hnames hcreate' hconform'
    hstrings'
  refine ⟨u, u', hexec, hexec', fun v v' hcommit hcommit' => ⟨fun hsame => ?_, fun halike => ?_⟩⟩
  · obtain ⟨table, hopen, hrows, hread⟩ := hfile v hcommit
    obtain ⟨table', hopen', hrows', hread'⟩ := hfile' v' hcommit'
    rw [hsame] at hopen
    obtain rfl : table = table' := Except.ok.inj (hopen.symm.trans hopen')
    have hlen : records.length = records'.length := by
      have heq := congrArg UInt64.toNat (hrows.symm.trans hrows')
      rwa [UInt64.toNat_ofNat_of_lt' hlength, UInt64.toNat_ofNat_of_lt' hlength'] at heq
    -- one materializer reads both lists
    obtain ⟨bound, hbound⟩ := nextRecords_alike hleaves
      (mem_filteredNames_nil (List.Subset.refl _)) (hread schema hnames (.refl hnames) [] walk)
    obtain ⟨bound', hbound'⟩ := nextRecords_alike hleaves
      (mem_filteredNames_nil (List.Subset.refl _)) (hread' schema hnames (.refl hnames) [] walk)
    obtain ⟨m, outs, hrun, houts⟩ := hbound (max bound bound') (Nat.le_max_left _ _)
      (List.replicate records.length 0) List.length_replicate
    obtain ⟨m', outs', hrun', houts'⟩ := hbound' (max bound bound') (Nat.le_max_right _ _)
      (List.replicate records.length 0) (List.length_replicate.trans hlen)
    have hsame' := (Prod.mk.inj (Except.ok.inj (hrun.symm.trans hrun'))).2
    obtain rfl : outs = outs' := List.map_injective_iff.mpr (Option.some_injective _) hsame'
    exact alikes_trans (alikes_symm houts) houts'
  · rw [← RecordShredder.addRecords_alike halike] at hexec'
    obtain ⟨w, hw, hfiles⟩ := commit_records hdistinct hnames hdoubles hcreate hcreate' hconform
      hexec hexec' hcommit
    obtain rfl : v' = w := Except.ok.inj (hcommit'.symm.trans hw)
    exact hfiles.symm

/-- The sample in another order of its children, written where memory holds something else. -/
theorem sameFile_sample :
    let mem : Uninit := zeroUninit
    let mem' : Uninit := oneUninit
    let order : HashOrder := ⟨id, fun _ => .refl _⟩
    ∃ t t' u u' v v', CSTableWriter.createFile mem order .v0_1_0 (fromProtobuf order sampleSchema) =
        .ok t ∧
      CSTableWriter.createFile mem' order .v0_1_0 (fromProtobuf order sampleSchema) = .ok t' ∧
      CxxM.exec (RecordShredder.addRecords t.schema
        (sampleRecords.map fun record => (record, sampleSchema))) t = (.ok (), u) ∧
      CxxM.exec (RecordShredder.addRecords t'.schema
        (swappedRecords.map fun record => (record, sampleSchema))) t' = (.ok (), u') ∧
      u.commit mem = .ok v ∧ u'.commit mem' = .ok v' ∧ contents v.file = contents v'.file ∧
      List.Forall₂ Alike sampleRecords swappedRecords := by
  intro mem mem' order
  obtain ⟨t, u, v, ht, hexec, hcommit⟩ := sampleFile (Or.inl rfl) (Or.inl rfl)
  obtain ⟨t', u', v', ht', hexec', hcommit'⟩ := sampleFile (Or.inr rfl) (Or.inr rfl)
  obtain ⟨w, w', hexec₁, hexec₂, hiff⟩ := sameFile_iff sampleSchema_distinct (by decide)
    sampleSchema_leaves sampleSchema_noDoubles ht ht' sampleRecords_conform swappedRecords_conform
    sampleRecords_strings swappedRecords_strings (by decide) (by decide)
  obtain rfl : u = w := (Prod.mk.inj (hexec.symm.trans hexec₁)).2
  obtain rfl : u' = w' := (Prod.mk.inj (hexec'.symm.trans hexec₂)).2
  have hfiles : (u.commit mem).toOption.map (contents ·.file) =
      (u'.commit mem').toOption.map (contents ·.file) := by
    obtain rfl : _ = u := congrArg Prod.snd hexec
    obtain rfl : _ = u' := congrArg Prod.snd hexec'
    cases ht
    cases ht'
    decide +kernel
  rw [hcommit, hcommit'] at hfiles
  have hsame : contents v.file = contents v'.file := Option.some.inj hfiles
  exact ⟨t, t', u, u', v, v', ht, ht', hexec, hexec', hcommit, hcommit', hsame,
    (hiff v v' hcommit hcommit').mp hsame⟩

/-- Records that were read from the file of a table and are written to a new table with the
same schema make the same file, byte for byte. The new table is created and committed at
another time, so that memory holds different things. -/
theorem rewriteFile (ops : DoubleOps) {mem : Uninit} (mem' : Uninit) {order order' : HashOrder}
    {schema : MessageSchema} {t t₂ : CSTableWriter} {records : List MessageObject}
    (hdistinct : AtEveryLevel DistinctFields schema)
    (hnames : ((messageLeaves schema).map (MessageLeaf.name · [])).Nodup)
    (hleaves : AtEveryLevel ObjectsHaveLeaves schema) (hdoubles : NoDoubles schema)
    (hcreate : CSTableWriter.createFile mem order' .v0_1_0 (fromProtobuf order schema) = .ok t)
    (hcreate₂ : CSTableWriter.createFile mem' order' .v0_1_0 (fromProtobuf order schema) = .ok t₂)
    (hconform : ∀ record ∈ records, Conforms schema record)
    (hstrings : ∀ record ∈ records, StringsFit record) :
    ∃ t', CxxM.exec (RecordShredder.addRecords t.schema
          (records.map fun record => (record, schema))) t = (.ok (), t') ∧
      ∀ t'', t'.commit mem = .ok t'' →
        ∃ table, CSTableReader.openFile mem' (contents t''.file) = .ok table ∧
          ∀ walk, ∃ bound, ∀ fuel, bound ≤ fuel → ∀ ids : List UInt32,
            ids.length = records.length →
            ∃ m, ∃ outs : List MessageObject,
              runCalls ops fuel (ids.map fun id => .next (.object id []))
                (ofTable ops.toFloatOps walk schema table []) = .ok (m, outs.map some) ∧
              ∃ u u', CxxM.exec (RecordShredder.addRecords t₂.schema
                  (outs.map fun record => (record, schema))) t₂ = (.ok (), u) ∧
                u.commit mem' = .ok u' ∧ contents u'.file = contents t''.file := by
  obtain ⟨t', hexec, hfile⟩ := exists_fileCalls ops mem' hdistinct hnames hcreate hconform hstrings
  obtain ⟨u, hexec₂, -⟩ := exists_recordTable hdistinct hnames hcreate₂ hconform
  refine ⟨t', hexec, fun t'' hcommit => ?_⟩
  obtain ⟨table, hopen, -, hread⟩ := hfile t'' hcommit
  refine ⟨table, hopen, fun walk => ?_⟩
  obtain ⟨bound, hbound⟩ := nextRecords_alike hleaves
    (mem_filteredNames_nil (List.Subset.refl _)) (hread schema hnames (.refl hnames) [] walk)
  refine ⟨bound, fun fuel hfuel ids hids => ?_⟩
  obtain ⟨m, outs, hrun, houts⟩ := hbound fuel hfuel ids hids
  obtain ⟨u', hu', hfiles⟩ := commit_records hdistinct hnames hdoubles hcreate hcreate₂ hconform
    hexec hexec₂ hcommit
  refine ⟨m, outs, hrun, u, u', ?_, hu', hfiles⟩
  -- the shredder does not see the order of fields, which is all that was lost
  rw [RecordShredder.addRecords_alike houts]
  exact hexec₂

/-- The records of the sample, read and written once more, where memory holds something else. -/
theorem rewriteFile_sample :
    let mem : Uninit := zeroUninit
    let mem' : Uninit := oneUninit
    let order : HashOrder := ⟨id, fun _ => .refl _⟩
    let walk : WalkOrder TableColumn := ⟨List.reverse, List.reverse_perm⟩
    let ops : DoubleOps := ⟨v1.noFloats, fun _ => 0⟩
    ∃ t t₂ t' t'' table,
      CSTableWriter.createFile mem order .v0_1_0 (fromProtobuf order sampleSchema) = .ok t ∧
      CSTableWriter.createFile mem' order .v0_1_0 (fromProtobuf order sampleSchema) = .ok t₂ ∧
      CxxM.exec (RecordShredder.addRecords t.schema
        (sampleRecords.map fun record => (record, sampleSchema))) t = (.ok (), t') ∧
      t'.commit mem = .ok t'' ∧ CSTableReader.openFile mem' (contents t''.file) = .ok table ∧
      ∃ fuel m, ∃ outs : List MessageObject,
        runCalls ops fuel [.next (.object 0 []), .next (.object 0 [])]
          (ofTable ops.toFloatOps walk sampleSchema table []) = .ok (m, outs.map some) ∧
        ∃ u u', CxxM.exec (RecordShredder.addRecords t₂.schema
            (outs.map fun record => (record, sampleSchema))) t₂ = (.ok (), u) ∧
          u.commit mem' = .ok u' ∧ contents u'.file = contents t''.file := by
  intro mem mem' order walk ops
  obtain ⟨t, t', t'', ht, hexec, hcommit⟩ := sampleFile (Or.inl rfl) (Or.inl rfl)
  obtain ⟨t₂, -, -, ht₂, -⟩ := sampleFile (Or.inr rfl) (Or.inl rfl)
  obtain ⟨u, hexec', hfile⟩ := rewriteFile ops mem' sampleSchema_distinct (by decide)
    sampleSchema_leaves sampleSchema_noDoubles ht ht₂ sampleRecords_conform sampleRecords_strings
  obtain rfl : t' = u := (Prod.mk.inj (hexec.symm.trans hexec')).2
  obtain ⟨table, hopen, hread⟩ := hfile t'' hcommit
  obtain ⟨bound, hbound⟩ := hread walk
  exact ⟨t, t₂, t', t'', table, ht, ht₂, hexec, hcommit, hopen, bound,
    hbound bound (Nat.le_refl _) [0, 0] rfl⟩

end RecordMaterializer

end CStable
