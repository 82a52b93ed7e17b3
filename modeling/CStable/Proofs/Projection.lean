import CStable.Proofs.RecordRoundTrip

/-!
# `CStable.Proofs.Projection`: reading some of the columns

A materializer with a filter reads the projection of the records to the columns of the
filter: a leaf is there when its column is one of them, and an object when a leaf below it
in the schema is, whatever the leaf holds in the record (`project`).

* `filtered_materializer`: what it reads is the projection of what a materializer without a
  filter reads.
-/

set_option autoImplicit false

namespace CStable

open TableSchema (dot fromProtobuf)

/-! ### Projections -/

mutual

/-- What is left of a child of an object with the schema, below a prefix of its column
names: a leaf that is one of the columns, an object with such a leaf below it. -/
def projectChild (columns : List Bytes) (pre : Bytes) (schema : MessageSchema)
    (child : MessageObject) : List MessageObject :=
  match child with
  | .scalar id value =>
    match schema.find? fun f => f.id == id with
    | some f => if columns.contains (pre ++ f.name) then [.scalar id value] else []
    | none => []
  | .object id children =>
    match schema.find? fun f => f.id == id with
    | some (.object _ name _ _ sub) =>
      if (messageLeaves sub).any fun p => columns.contains (p.name (pre ++ name ++ [dot])) then
        [.object id (projectChildren columns (pre ++ name ++ [dot]) sub children)]
      else []
    | _ => []

/-- What is left of the children of an object. -/
def projectChildren (columns : List Bytes) (pre : Bytes) (schema : MessageSchema)
    (children : List MessageObject) : List MessageObject :=
  match children with
  | [] => []
  | c :: cs => projectChild columns pre schema c ++ projectChildren columns pre schema cs

end

/-- The record without the leaves that are not among the columns, and without the objects
that have no such leaf below them in the schema. -/
def project (columns : List Bytes) (schema : MessageSchema) : MessageObject → MessageObject
  | .object id children => .object id (projectChildren columns [] schema children)
  | .scalar id value => .scalar id value

/-- A projection keeps the field of a child. It drops children, or parts of them, and renames
nothing. -/
theorem id_of_mem_projectChild {columns : List Bytes} {pre : Bytes} {schema : MessageSchema}
    {child o : MessageObject}
    (h : o ∈ projectChild columns pre schema child) : o.id = child.id := by
  cases child with
  | scalar id value =>
    rw [projectChild] at h
    split at h
    · split_ifs at h
      · rw [List.mem_singleton.mp h]
      · cases h
    · cases h
  | object id children =>
    rw [projectChild] at h
    split at h
    · split_ifs at h
      · rw [List.mem_singleton.mp h]
        rfl
      · cases h
    · cases h

/-- The children with an id that are left are those left of the children with the id. -/
theorem childrenOf_projectChildren (columns : List Bytes) (pre : Bytes) (schema : MessageSchema)
    (id : UInt32) (children : List MessageObject) :
    childrenOf id (projectChildren columns pre schema children) =
      (childrenOf id children).flatMap (projectChild columns pre schema) := by
  induction children with
  | nil => rfl
  | cons c cs ih =>
    rw [projectChildren, RecordMaterializer.childrenOf_append, ih]
    by_cases hid : c.id = id
    · rw [RecordMaterializer.childrenOf_cons_self hid, List.flatMap_cons,
        RecordMaterializer.childrenOf_eq_self fun o ho => (id_of_mem_projectChild ho).trans hid]
    · rw [RecordMaterializer.childrenOf_cons_ne hid,
        RecordMaterializer.childrenOf_eq_nil fun o ho heq =>
        hid ((id_of_mem_projectChild ho).symm.trans heq), List.nil_append]

/-! ### Kept leaves and projections -/

/-- Lists that go with the same list go together. -/
theorem forall₂_of_common {α β γ : Type} {P : α → β → Prop} {Q : α → γ → Prop} {xs : List α}
    {ys : List β} (hy : List.Forall₂ P xs ys) :
    ∀ {zs : List γ}, List.Forall₂ Q xs zs →
      List.Forall₂ (fun y z => ∃ x ∈ xs, P x y ∧ Q x z) ys zs := by
  induction hy with
  | nil =>
    intro zs hz
    cases hz
    exact .nil
  | @cons x y xs ys hxy _ ih =>
    intro zs hz
    cases hz with
    | @cons _ z _ zs hxz hz =>
      refine .cons ⟨x, List.mem_cons_self, hxy, hxz⟩ ((ih hz).imp fun y z h => ?_)
      obtain ⟨x', hx', hrest⟩ := h
      exact ⟨x', List.mem_cons_of_mem x hx', hrest⟩

/-- One element is left of each. -/
theorem forall₂_flatMap {α β : Type} {R : α → β → Prop} {f : β → List β} {xs : List α}
    {ys : List β} (h : List.Forall₂ (fun x y => ∃ z, f y = [z] ∧ R x z) xs ys) :
    List.Forall₂ R xs (ys.flatMap f) := by
  induction h with
  | nil => exact .nil
  | cons hxy _ ih =>
    obtain ⟨z, hz, hR⟩ := hxy
    rw [List.flatMap_cons, hz]
    exact .cons hR ih

/-- A scalar field is kept with the leaf of its column, and projected where that is selected. -/
theorem alike_project_scalar (columns : List Bytes) (pre : Bytes) {schema : MessageSchema}
    {id : UInt32} {name : Bytes} {type : ScalarType} {repeated optional : Bool}
    (hfield : schema.find? (fun g => g.id == id) = some (.scalar id name type repeated optional))
    {occurrences kept : List MessageObject}
    (hconform : FieldConforms (.scalar id name type repeated optional) occurrences)
    (hkept : FieldKept (fun p => columns.contains (p.name pre) = true)
      (.scalar id name type repeated optional) occurrences kept) :
    List.Forall₂ Alike kept (occurrences.flatMap (projectChild columns pre schema)) := by
  by_cases hcol : columns.contains (pre ++ name) = true
  · rw [hkept.1 hcol]
    refine forall₂_flatMap (List.forall₂_same.mpr fun o ho => ?_)
    obtain ⟨value, rfl, -⟩ := hconform.2 o ho
    refine ⟨.scalar id value, ?_, .scalar id value⟩
    rw [projectChild, hfield]
    exact if_pos hcol
  · have hnone : occurrences.flatMap (projectChild columns pre schema) = [] := by
      refine List.flatMap_eq_nil_iff.mpr fun o ho => ?_
      obtain ⟨value, rfl, -⟩ := hconform.2 o ho
      rw [projectChild, hfield]
      exact if_neg hcol
    rw [hkept.2 hcol, hnone]
    exact .nil

mutual

/-- The occurrences of a field among the kept ones are the projections of all. -/
theorem alike_project_field (columns : List Bytes) (pre : Bytes) {schema : MessageSchema}
    (hdistinct : DistinctFields schema) (f : MessageSchemaField) (hf : f ∈ schema)
    (hinside : InsideField DistinctFields f) {occurrences kept all : List MessageObject}
    (hconform : FieldConforms f occurrences)
    (hkept : FieldKept (fun p => columns.contains (p.name pre) = true) f occurrences kept)
    (hall : FieldKept (fun _ => True) f occurrences all) :
    List.Forall₂ Alike kept (all.flatMap (projectChild columns pre schema)) := by
  match f with
  | .scalar id name type repeated optional =>
    have hfield : schema.find? (fun g => g.id == id) =
        some (.scalar id name type repeated optional) := find?_eq_some_of_nodup hdistinct.ids hf
    rw [hall.1 trivial]
    exact alike_project_scalar columns pre hfield hconform hkept
  | .object id name repeated optional sub =>
    have hfield : schema.find? (fun g => g.id == id) =
        some (.object id name repeated optional sub) := find?_eq_some_of_nodup hdistinct.ids hf
    rw [InsideField] at hinside
    rw [FieldConforms] at hconform
    have hobjects : ObjectsKept (fun p => columns.contains (p.name pre) = true)
        ⟨id, ⟨name, repeated, optional⟩⟩ sub occurrences kept := fieldKept_object.mp hkept
    have hobjects' : ObjectsKept (fun _ => True) ⟨id, ⟨name, repeated, optional⟩⟩ sub occurrences
        all := fieldKept_object.mp hall
    -- a sub-record is built for the sake of any selected leaf below it
    by_cases hany : ∃ p ∈ messageLeaves sub,
        columns.contains (p.name (pre ++ name ++ [dot])) = true
    · obtain ⟨p, hp, hcol⟩ := hany
      have hboth := forall₂_of_common (hobjects.any ⟨p, hp, hcol⟩) (hobjects'.any ⟨p, hp, trivial⟩)
      refine forall₂_flatMap (hboth.imp fun k a h => ?_)
      obtain ⟨o, ho, ⟨children, kept', rfl, rfl, hkept'⟩, children', all', heq, rfl, hall'⟩ := h
      cases heq
      obtain ⟨children', heq, -, hconform'⟩ := hconform.2 _ ho
      cases heq
      refine ⟨.object id (projectChildren columns (pre ++ name ++ [dot]) sub all'), ?_,
        .object fun i => ?_⟩
      · rw [projectChild, hfield]
        exact if_pos (List.any_eq_true.mpr ⟨p, hp, hcol⟩)
      · rw [childrenOf_projectChildren]
        by_cases hi : i ∈ sub.map MessageSchemaField.id
        · obtain ⟨g, hg, rfl⟩ := List.mem_map.mp hi
          exact alike_project_fields columns _ hinside.1 sub (fun _ h => h) hinside.2 hconform'
            hkept'.fields hall'.fields g hg
        · rw [childrenOf_eq_nil_of_not_mem hkept'.known hi,
            childrenOf_eq_nil_of_not_mem hall'.known hi]
          exact .nil
    · have hnone : all.flatMap (projectChild columns pre schema) = [] := by
        refine List.flatMap_eq_nil_iff.mpr fun a ha => ?_
        by_cases hleaf : ∃ p, p ∈ messageLeaves sub
        · obtain ⟨p, hp⟩ := hleaf
          obtain ⟨o, -, children, all', -, rfl, -⟩ :=
            Support.exists_of_mem_right (hobjects'.any ⟨p, hp, trivial⟩) ha
          rw [projectChild, hfield]
          exact if_neg fun h => hany (List.any_eq_true.mp h)
        · -- an object without leaves is not read at all
          rw [hobjects'.none fun p hp _ => hleaf ⟨p, hp⟩] at ha
          exact absurd ha List.not_mem_nil
      rw [hobjects.none fun p hp h => hany ⟨p, hp, h⟩, hnone]
      exact .nil

/-- The fields of a message one by one: what is kept below the selected leaves is the
projection. This is the step of the induction on the schema. -/
theorem alike_project_fields (columns : List Bytes) (pre : Bytes) {schema : MessageSchema}
    (hdistinct : DistinctFields schema) (fs : List MessageSchemaField)
    (hfs : ∀ f ∈ fs, f ∈ schema) (hinside : InsideFields DistinctFields fs)
    {children kept all : List MessageObject} (hconform : FieldsConform fs children)
    (hkept : FieldsKept (fun p => columns.contains (p.name pre) = true) fs children kept)
    (hall : FieldsKept (fun _ => True) fs children all) :
    ∀ f ∈ fs, List.Forall₂ Alike (childrenOf f.id kept)
      ((childrenOf f.id all).flatMap (projectChild columns pre schema)) := by
  match fs with
  | [] => exact fun f hf => absurd hf List.not_mem_nil
  | f :: fs =>
    rw [InsideFields] at hinside
    rw [FieldsConform] at hconform
    rw [FieldsKept] at hkept hall
    intro g hg
    rcases List.mem_cons.mp hg with heq | hg
    · rw [heq]
      exact alike_project_field columns pre hdistinct f (hfs f List.mem_cons_self) hinside.1
        hconform.1 hkept.1 hall.1
    · exact alike_project_fields columns pre hdistinct fs
        (fun f' hf' => hfs f' (List.mem_cons_of_mem f hf')) hinside.2 hconform.2 hkept.2 hall.2 g hg

end

/-- Of what is kept for some columns and for all of them the one is the projection of the
other. -/
theorem alike_project_contains {columns : List Bytes} {schema : MessageSchema}
    (hdistinct : AtEveryLevel DistinctFields schema) {filtered out record : MessageObject}
    (hconform : Conforms schema record)
    (hfiltered : RecordMaterializer.KeptOf (fun m => columns.contains (m.name []) = true) schema
      filtered record)
    (hout : RecordMaterializer.KeptOf (fun _ => True) schema out record) :
    Alike filtered (project columns schema out) := by
  obtain ⟨rid, children, rfl, hconform⟩ := hconform
  obtain ⟨id, id', children', kept, heq, rfl, hkept⟩ := hfiltered
  cases heq
  obtain ⟨id, id'', children', all, heq, rfl, hall⟩ := hout
  cases heq
  refine .object fun i => ?_
  rw [childrenOf_projectChildren]
  by_cases hi : i ∈ schema.map MessageSchemaField.id
  · obtain ⟨g, hg, rfl⟩ := List.mem_map.mp hi
    exact alike_project_fields columns [] hdistinct.1 schema (fun _ h => h) hdistinct.2
      hconform.fields hkept.fields hall.fields g hg
  · rw [childrenOf_eq_nil_of_not_mem hkept.known hi, childrenOf_eq_nil_of_not_mem hall.known hi]
    exact .nil

/-- Of what is kept for a filter and for none the one is the projection of the other. -/
theorem alike_project {columns : List Bytes} (hcolumns : columns ≠ []) {schema : MessageSchema}
    (hdistinct : AtEveryLevel DistinctFields schema) {filtered out record : MessageObject}
    (hconform : Conforms schema record)
    (hfiltered : RecordMaterializer.KeptOf
      (fun m => RecordMaterializer.InFilter columns (m.name [])) schema filtered record)
    (hout : RecordMaterializer.KeptOf (fun m => RecordMaterializer.InFilter [] (m.name []))
      schema out record) : Alike filtered (project columns schema out) := by
  refine alike_project_contains hdistinct hconform (hfiltered.congr fun m _ => ?_)
    (hout.congr fun m _ => iff_true_intro rfl)
  unfold RecordMaterializer.InFilter
  rw [List.isEmpty_eq_false_iff.mpr hcolumns, Bool.false_or]

namespace RecordMaterializer

variable {ρ : Type} [AbstractColumnReader ρ]

/-- What a materializer with a filter reads is the projection of what one without a filter
reads, record by record. -/
theorem filtered_materializer (ops : DoubleOps) (walk walk' : WalkOrder ρ) {mem : Uninit}
    {order order' : HashOrder} {version : BinaryFormatVersion} {schema : MessageSchema}
    {t : CSTableWriter} {records : List MessageObject} {columns : List Bytes}
    (hdistinct : AtEveryLevel DistinctFields schema)
    (hnames : ((messageLeaves schema).map (MessageLeaf.name · [])).Nodup)
    (hcreate : CSTableWriter.createFile mem order' version (fromProtobuf order schema) = .ok t)
    (hconform : ∀ record ∈ records, Conforms schema record) (hcolumns : columns ≠ []) :
    ∃ t', CxxM.exec (RecordShredder.addRecords t.schema
          (records.map fun record => (record, schema))) t = (.ok (), t') ∧
      ∀ reader : Bytes → Option ρ, ReadsBack t' reader →
        ∃ bound, ∀ fuel, bound ≤ fuel → ∀ ids ids' : List UInt32,
          ids.length = records.length → ids'.length = records.length →
          ∃ m outs m' outs', runCalls ops fuel (ids.map fun id => .next (.object id []))
              (new walk schema reader columns) = .ok (m, outs.map some) ∧
            runCalls ops fuel (ids'.map fun id => .next (.object id []))
              (new walk' schema reader []) = .ok (m', outs'.map some) ∧
            outs.length = records.length ∧
            List.Forall₂ (fun filtered out => Alike filtered (project columns schema out))
              outs outs' := by
  obtain ⟨t', hexec, hwritten⟩ := RecordShredder.addRecords_conforming hdistinct
    (RecordShredder.recordsWritten_createFile hnames hcreate) hconform
  rw [List.nil_append] at hwritten
  refine ⟨t', hexec, fun reader hreads => ?_⟩
  obtain ⟨bound, hbound⟩ :=
    nextRecord_kept ops walk hdistinct hnames hwritten hconform hreads columns
  obtain ⟨bound', hbound'⟩ :=
    nextRecord_kept ops walk' hdistinct hnames hwritten hconform hreads []
  refine ⟨max bound bound', fun fuel hfuel ids ids' hids hids' => ?_⟩
  obtain ⟨m, outs, hrun, houts⟩ := hbound fuel ((Nat.le_max_left _ _).trans hfuel) ids hids
  obtain ⟨m', outs', hrun', houts'⟩ := hbound' fuel ((Nat.le_max_right _ _).trans hfuel) ids' hids'
  refine ⟨m, outs, m', outs', hrun, hrun', houts.length_eq, ?_⟩
  -- both results keep parts of one record: the filtered one, the leaves of the columns
  refine (forall₂_of_common houts.flip houts'.flip).imp fun filtered out h => ?_
  obtain ⟨record, hrecord, hfiltered, hout⟩ := h
  exact alike_project hcolumns hdistinct (hconform record hrecord) hfiltered hout

/-- Of the records of the sample only one leaf of the repeated object: the object without
it is there. -/
theorem filtered_materializer_sample :
    let mem : Uninit := zeroUninit
    let order : HashOrder := ⟨id, fun _ => .refl _⟩
    let walk : WalkOrder EntryReader := ⟨List.reverse, List.reverse_perm⟩
    let ops : DoubleOps := ⟨v1.noFloats, fun _ => 0⟩
    let columns : List Bytes := [[0x61, 0x2e, 0x62]]
    ∃ t t' fuel m outs m' outs', CSTableWriter.createFile mem order .v0_1_0
        (fromProtobuf order sampleSchema) = .ok t ∧
      CxxM.exec (RecordShredder.addRecords t.schema
        (sampleRecords.map fun record => (record, sampleSchema))) t = (.ok (), t') ∧
      runCalls ops fuel [.next (.object 0 []), .next (.object 0 [])]
        (new walk sampleSchema (entryReaders t') columns) = .ok (m, outs.map some) ∧
      runCalls ops fuel [.next (.object 0 []), .next (.object 0 [])]
        (new walk sampleSchema (entryReaders t') []) = .ok (m', outs'.map some) ∧
      outs.length = 2 ∧
      List.Forall₂ (fun filtered out => Alike filtered (project columns sampleSchema out))
        outs outs' := by
  intro mem order walk ops columns
  obtain ⟨t, ht⟩ : ∃ t, CSTableWriter.createFile mem order .v0_1_0
      (fromProtobuf order sampleSchema) = .ok t := ⟨_, rfl⟩
  have hnames : ((messageLeaves sampleSchema).map (MessageLeaf.name · [])).Nodup := by decide
  obtain ⟨t', hexec, hread⟩ := filtered_materializer ops walk walk sampleSchema_distinct hnames
    ht sampleRecords_conform (List.cons_ne_nil _ _ : columns ≠ [])
  obtain ⟨t'', hexec', hwritten⟩ := RecordShredder.addRecords_conforming sampleSchema_distinct
    (RecordShredder.recordsWritten_createFile hnames ht) sampleRecords_conform
  obtain rfl : t' = t'' := (Prod.mk.inj (hexec.symm.trans hexec')).2
  obtain ⟨bound, hbound⟩ := hread (entryReaders t') (readsBack_entryReaders hwritten)
  obtain ⟨m, outs, m', outs', hrun⟩ := hbound bound (Nat.le_refl _) [0, 0] [0, 0] rfl rfl
  exact ⟨t, t', bound, m, outs, m', outs', ht, hexec, hrun⟩

end RecordMaterializer

end CStable
