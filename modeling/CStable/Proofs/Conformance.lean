import CStable.Proofs.DistinctColumns
import CStable.Proofs.MessageLeaves

/-!
# `CStable.Proofs.Conformance`: records that conform to their schema

A record conforms to a message schema when only fields of the schema occur in it, each
as often as it may and with children of its type (`ConformsTo`). What it holds on the way
to a leaf is then a nest of values (`exists_contains`), and that nest is what a shredder
finds there (`Contains.hasContent`).

On a table with the schema `fromProtobuf` makes of the message schema no step of a
conforming record fails (`fieldSteps_conforming`), whatever the order of the columns of
the table is.
-/

set_option autoImplicit false

namespace CStable

open TableSchema (dot columnOfFieldType columnFromProtobuf fromProtobuf copy copyColumn copyColumns)
open Support.Striping

/-! ### Levels of a message schema -/

mutual

/-- The property holds of the schemas at every level inside the field. -/
def InsideField (P : MessageSchema → Prop) : MessageSchemaField → Prop
  | .scalar _ _ _ _ _ => True
  | .object _ _ _ _ schema => P schema ∧ InsideFields P schema

/-- The property holds of the schemas at every level inside the fields. -/
def InsideFields (P : MessageSchema → Prop) : List MessageSchemaField → Prop
  | [] => True
  | f :: fs => InsideField P f ∧ InsideFields P fs

end

/-- The property holds at every level of the schema. -/
def AtEveryLevel (P : MessageSchema → Prop) (schema : MessageSchema) : Prop :=
  P schema ∧ InsideFields P schema

/-- A property inside of a list of fields is one inside of each. The definition goes through the
list so that it is a structural recursion. -/
theorem insideFields_iff {P : MessageSchema → Prop} {fs : List MessageSchemaField} :
    InsideFields P fs ↔ ∀ f ∈ fs, InsideField P f := by
  induction fs with
  | nil => exact iff_of_true trivial fun f hf => absurd hf List.not_mem_nil
  | cons f fs ih => rw [InsideFields, ih, List.forall_mem_cons]

/-- What holds at every level holds at every level of an object of the schema. The induction on
a schema goes down by this. -/
theorem AtEveryLevel.object {P : MessageSchema → Prop} {schema sub : MessageSchema}
    (h : AtEveryLevel P schema) {id : UInt32} {name : Bytes} {repeated optional : Bool}
    (hf : .object id name repeated optional sub ∈ schema) : AtEveryLevel P sub :=
  insideFields_iff.mp h.2 _ hf

/-- The fields have different ids and different names. -/
structure DistinctFields (schema : MessageSchema) : Prop where
  ids : (schema.map MessageSchemaField.id).Nodup
  names : (schema.map MessageSchemaField.name).Nodup

/-- The field found by a key is the one that has it, where keys are different. The source
searches from the front, so without that the first field of the key would be found. -/
theorem find?_eq_some_of_nodup {α β : Type} [BEq β] [LawfulBEq β] {key : α → β} {xs : List α}
    (hkeys : (xs.map key).Nodup) {x : α} (hx : x ∈ xs) :
    (xs.find? fun y => key y == key x) = some x := by
  have hsome : (xs.find? fun y => key y == key x).isSome :=
    List.find?_isSome.mpr ⟨x, hx, beq_self_eq_true _⟩
  obtain ⟨y, hy⟩ := Option.isSome_iff_exists.mp hsome
  have hkey : key y = key x := eq_of_beq (List.find?_some hy :)
  rw [hy, List.inj_on_of_nodup_map hkeys (List.mem_of_find?_eq_some hy) hx hkey]

/-- A field of the schema is found by its name. The source looks fields up, first the id by the
name and then the schema by the id. -/
theorem DistinctFields.fieldId {schema : MessageSchema} (h : DistinctFields schema)
    {f : MessageSchemaField} (hf : f ∈ schema) : schema.fieldId f.name = .ok f.id := by
  unfold MessageSchema.fieldId
  rw [find?_eq_some_of_nodup h.names hf]

/-- And its schema by its id. -/
theorem DistinctFields.fieldSchema {schema : MessageSchema} (h : DistinctFields schema)
    {f : MessageSchemaField} (hf : f ∈ schema) : schema.fieldSchema f.id = .ok f.schema := by
  unfold MessageSchema.fieldSchema
  rw [find?_eq_some_of_nodup h.ids hf]

/-- Fields of one id are one field. The children of an object are sorted to fields by
their ids. -/
theorem DistinctFields.eq_of_id {schema : MessageSchema} (h : DistinctFields schema)
    {f g : MessageSchemaField} (hf : f ∈ schema) (hg : g ∈ schema) (hid : f.id = g.id) : f = g :=
  List.inj_on_of_nodup_map h.ids hf hg hid

/-! ### Conforming records -/

/-- The children with an id. -/
def childrenOf (id : UInt32) (children : List MessageObject) : List MessageObject :=
  children.filter fun o => o.id == id

/-- How often a field may occur. -/
structure Occurs (repeated optional : Bool) (n : Nat) : Prop where
  /-- A field that is not repeated occurs at most once. -/
  le : repeated = false → n ≤ 1
  /-- A field that is not optional either occurs. -/
  pos : repeated = false → optional = false → n ≠ 0

/-- The two conditions on the number of occurrences, as a conjunction, which makes them
decidable. -/
theorem occurs_iff {repeated optional : Bool} {n : Nat} : Occurs repeated optional n ↔
    (repeated = false → n ≤ 1) ∧ (repeated = false → optional = false → n ≠ 0) :=
  ⟨fun h => ⟨h.le, h.pos⟩, fun h => ⟨h.1, h.2⟩⟩

mutual

/-- The occurrences of a field conform to it: there are as many as there may be, and each
is of the type of the field. -/
def FieldConforms (f : MessageSchemaField) (occurrences : List MessageObject) : Prop :=
  match f with
  | .scalar id _ type repeated optional =>
    Occurs repeated optional occurrences.length ∧
      ∀ o ∈ occurrences, ∃ value : ScalarValue, o = .scalar id value ∧ value.type = type.val
  | .object id _ repeated optional schema =>
    Occurs repeated optional occurrences.length ∧
      ∀ o ∈ occurrences, ∃ children, o = .object id children ∧
        (∀ c ∈ children, c.id ∈ schema.map MessageSchemaField.id) ∧ FieldsConform schema children

/-- The children of an object conform to each of the fields. -/
def FieldsConform (fs : List MessageSchemaField) (children : List MessageObject) : Prop :=
  match fs with
  | [] => True
  | f :: fs => FieldConforms f (childrenOf f.id children) ∧ FieldsConform fs children

end

/-- The children of an object conform to a schema: they are occurrences of its fields, and
conform to them. -/
structure ConformsTo (schema : MessageSchema) (children : List MessageObject) : Prop where
  known : ∀ c ∈ children, c.id ∈ schema.map MessageSchemaField.id
  fields : FieldsConform schema children

/-- A record conforms to a schema. -/
def Conforms (schema : MessageSchema) (record : MessageObject) : Prop :=
  ∃ id children, record = .object id children ∧ ConformsTo schema children

/-- The children conform when, for each field, those of its id do. `FieldsConform` is defined by
recursion on the fields, and this is the form to use. -/
theorem fieldsConform_iff {fs : List MessageSchemaField} {children : List MessageObject} :
    FieldsConform fs children ↔ ∀ f ∈ fs, FieldConforms f (childrenOf f.id children) := by
  induction fs with
  | nil => exact iff_of_true trivial fun f hf => absurd hf List.not_mem_nil
  | cons f fs ih => rw [FieldsConform, ih, List.forall_mem_cons]

/-! ### What a conforming record holds -/

/-- The children of an object hold the nest on the way to a leaf: at every field its
occurrences, at the leaf their values. -/
def Contains (type : ScalarType) (leaf : MessageStep) :
    (parents : List MessageStep) → List MessageObject →
      Nest ScalarValue (LeafPath.hopsOf leaf.field (parents.map MessageStep.field)) → Prop
  | [], children, values => childrenOf leaf.id children = values.list.map (.scalar leaf.id) ∧
    ∀ value ∈ values.list, ScalarValue.type value = type.val
  | s :: ss, children, cs => List.Forall₂ (fun o c => ∃ children, o = .object s.id children ∧
    Contains type leaf ss children c) (childrenOf s.id children) cs.list

/-- Values that are all there can be put in a list, in the order of what they belong to. By
induction on the list. -/
theorem exists_forall₂ {α β : Type} {P : α → β → Prop} {xs : List α} (h : ∀ x ∈ xs, ∃ y, P x y) :
    ∃ ys, List.Forall₂ P xs ys := by
  induction xs with
  | nil => exact ⟨[], .nil⟩
  | cons x xs ih =>
    obtain ⟨y, hy⟩ := h x List.mem_cons_self
    obtain ⟨ys, hys⟩ := ih fun x' hx' => h x' (List.mem_cons_of_mem x hx')
    exact ⟨y :: ys, .cons hy hys⟩

/-- A field that adds no definition level is required, or it is repeated; the nest of a required
one has an occurrence. -/
theorem Occurs.present {f : PathField} {n : Nat} (h : Occurs f.repeated f.optional n)
    (hopt : f.hop.opt = 0) : n ≠ 0 := by
  obtain ⟨name, repeated, optional⟩ := f
  cases repeated <;> cases optional
  case false.false => exact h.pos rfl rfl
  all_goals cases hopt

/-- A conforming record holds a nest on the way to every leaf of its schema: each field
on the way occurs as often as it may. -/
theorem exists_contains {type : ScalarType} {leaf : MessageStep} {parents : List MessageStep} :
    ∀ {schema : MessageSchema} {children : List MessageObject},
      ⟨parents, leaf, type⟩ ∈ messageLeaves schema → FieldsConform schema children →
      ∃ c, Contains type leaf parents children c ∧ Present _ c ∧ Single _ c := by
  -- down the parents of the leaf: each level has a content for every occurrence above it
  induction parents with
  | nil =>
    intro schema children hp hconform
    obtain ⟨hoccurs, hall⟩ := fieldsConform_iff.mp hconform _ (mem_messageLeaves_nil hp)
    obtain ⟨values, hvalues⟩ := exists_forall₂ hall
    have hmap : childrenOf leaf.id children = values.map (.scalar leaf.id) := by
      refine (@List.forall₂_eq_eq_eq MessageObject) ▸ (?_ : List.Forall₂ Eq _ _)
      exact List.forall₂_map_right_iff.mpr (hvalues.imp fun _ _ h => h.1)
    have hlen : values.length = (childrenOf leaf.id children).length := hvalues.length_eq.symm
    refine ⟨values, ⟨hmap, fun value hvalue => ?_⟩,
      ⟨fun hopt hnil => ?_, fun _ _ => trivial⟩, fun hrep => ?_, fun _ _ => trivial⟩
    · obtain ⟨o, -, ho⟩ := Support.exists_of_mem_right hvalues hvalue
      exact ho.2
    · exact hoccurs.present hopt (hlen.symm.trans (congrArg List.length hnil))
    · exact hlen ▸ hoccurs.le hrep
  | cons s ss ih =>
    intro schema children hp hconform
    obtain ⟨sub, hf, hp'⟩ := mem_messageLeaves_cons hp
    obtain ⟨hoccurs, hall⟩ := fieldsConform_iff.mp hconform _ hf
    have hbelow : ∀ o ∈ childrenOf s.id children, ∃ c, (∃ children, o = .object s.id children ∧
        Contains type leaf ss children c) ∧ Present _ c ∧ Single _ c := by
      intro o ho
      obtain ⟨children', rfl, -, hconform'⟩ := hall o ho
      obtain ⟨c, hc, hrest⟩ := ih hp' hconform'
      exact ⟨c, ⟨children', rfl, hc⟩, hrest⟩
    obtain ⟨cs, hcs⟩ := exists_forall₂ hbelow
    have hlen : (childrenOf s.id children).length = cs.length := hcs.length_eq
    have hrest : ∀ c ∈ cs, Present _ c ∧ Single _ c := fun c hc => by
      obtain ⟨o, -, ho⟩ := Support.exists_of_mem_right hcs hc
      exact ho.2
    refine ⟨cs, hcs.imp fun _ _ h => h.1, ⟨fun hopt hnil => ?_, fun c hc => (hrest c hc).1⟩,
      fun hrep => ?_, fun c hc => (hrest c hc).2⟩
    · exact hoccurs.present hopt (hlen.trans (congrArg List.length hnil))
    · exact hlen ▸ hoccurs.le hrep

/-- What a shredder writes for a value. -/
def ScalarValue.arg : ScalarValue → WriteArg
  | boolean value => .boolean value
  | uint32 value => .unsignedInt value.toUInt64
  | string value => .string value
  | uint64 value => .unsignedInt value
  | double value => .float value
  | dateTime value => .dateTime value

namespace RecordShredder

/-- A value of the type of its field becomes an argument of the write: the conversion of the
shredder does not fail. -/
theorem protoArg_scalar {type : ScalarType} {value : ScalarValue} (h : value.type = type.val)
    (id : UInt32) : protoArg (columnOfFieldType type).1 (.scalar id value) = .ok value.arg := by
  obtain ⟨type, htype⟩ := type
  obtain rfl : value.type = type := h
  cases value <;> rfl

/-- The occurrences of a field of the schema are the children of its id, in the order of the
record. -/
theorem occurrencesOf_object {schema : MessageSchema} (h : DistinctFields schema)
    {f : MessageSchemaField} (hf : f ∈ schema) (id : UInt32) (children : List MessageObject) :
    occurrencesOf schema f.name (.object id children) = .ok (f.id, childrenOf f.id children) := by
  unfold occurrencesOf
  rw [h.fieldId hf]
  rfl

/-- What the record holds is what a shredder finds. The two are defined apart, one by the
message schema and the other by the calls the shredder makes. -/
theorem hasContent_of_contains {type : ScalarType} {leaf : MessageStep}
    {parents : List MessageStep} :
    ∀ {schema : MessageSchema} {id : UInt32} {children : List MessageObject}
      {c : Nest ScalarValue (LeafPath.hopsOf leaf.field (parents.map MessageStep.field))},
      AtEveryLevel DistinctFields schema → ⟨parents, leaf, type⟩ ∈ messageLeaves schema →
      Contains type leaf parents children c →
        HasContent (columnOfFieldType type).1 leaf.field (parents.map MessageStep.field)
          (.object id children) (some schema) (Nest.map ScalarValue.arg _ c) := by
  induction parents with
  | nil =>
    rintro schema id children values hdistinct hp ⟨hvalues, htypes⟩
    refine ⟨schema, _, _, rfl,
      occurrencesOf_object hdistinct.1 (mem_messageLeaves_nil hp) id children, ?_⟩
    show List.Forall₂ _ (childrenOf leaf.id children) (List.map ScalarValue.arg values.list)
    rw [hvalues]
    refine List.forall₂_map_left_iff.mpr (List.forall₂_map_right_iff.mpr ?_)
    exact List.forall₂_same.mpr fun value hvalue => protoArg_scalar (htypes value hvalue) leaf.id
  | cons s ss ih =>
    intro schema id children cs hdistinct hp hcs
    obtain ⟨sub, hf, hp'⟩ := mem_messageLeaves_cons hp
    refine ⟨schema, _, _, rfl, occurrencesOf_object hdistinct.1 hf id children, ?_⟩
    refine List.forall₂_map_right_iff.mpr (hcs.imp fun o c h => ?_)
    obtain ⟨children', rfl, hc⟩ := h
    exact ⟨some sub, hdistinct.1.fieldSchema hf, ih (hdistinct.object hf) hp' hc⟩

end RecordShredder

/-! ### Columns for the fields of a schema -/

mutual

/-- The column is the one `fromProtobuf` makes of the field, but for the order of the
columns inside it. -/
def ColumnFor (column : Column) (f : MessageSchemaField) : Prop :=
  match column with
  | .leaf name type encoding repeated optional => ∃ id scalar,
    f = .scalar id name scalar repeated optional ∧ columnOfFieldType scalar = (type, encoding)
  | .subrecord name subschema repeated optional => ∃ id schema,
    f = .object id name repeated optional schema ∧ ColumnsFor subschema schema

/-- Every column is one for a field of the schema. -/
def ColumnsFor (columns : List Column) (schema : MessageSchema) : Prop :=
  match columns with
  | [] => True
  | c :: cs => (∃ f ∈ schema, ColumnFor c f) ∧ ColumnsFor cs schema

end

/-- Columns are for the fields of a schema when each of them is for one of its fields. The order
does not matter then. -/
theorem columnsFor_iff {columns : List Column} {schema : MessageSchema} :
    ColumnsFor columns schema ↔ ∀ c ∈ columns, ∃ f ∈ schema, ColumnFor c f := by
  induction columns with
  | nil => exact iff_of_true trivial fun c hc => absurd hc List.not_mem_nil
  | cons c cs ih => rw [ColumnsFor, ih, List.forall_mem_cons]

/-- They still are in another order. -/
theorem ColumnsFor.iterate {columns : List Column} {schema : MessageSchema}
    (h : ColumnsFor columns schema) (order : HashOrder) :
    ColumnsFor (order.iterate columns) schema :=
  columnsFor_iff.mpr fun c hc => columnsFor_iff.mp h c ((order.perm columns).mem_iff.mp hc)

mutual

/-- A copy of a column is for the same field. -/
theorem ColumnFor.copyColumn (order : HashOrder) {column : Column} {f : MessageSchemaField}
    (h : ColumnFor column f) : ColumnFor (copyColumn order column) f := by
  match column with
  | .leaf name type encoding repeated optional => exact h
  | .subrecord name subschema repeated optional =>
    rw [ColumnFor] at h
    obtain ⟨id, schema, hf, hsub⟩ := h
    rw [TableSchema.copyColumn, ColumnFor]
    exact ⟨id, schema, hf, (hsub.copyColumns order).iterate order⟩

/-- Copies of columns are for the same fields. Copies have another order, and `ColumnsFor` asks
for none. -/
theorem ColumnsFor.copyColumns (order : HashOrder) {columns : List Column}
    {schema : MessageSchema} (h : ColumnsFor columns schema) :
    ColumnsFor (copyColumns order columns) schema := by
  match columns with
  | [] => exact h
  | c :: cs =>
    rw [ColumnsFor] at h
    obtain ⟨⟨f, hf, hc⟩, hcs⟩ := h
    rw [TableSchema.copyColumns, ColumnsFor]
    exact ⟨⟨f, hf, hc.copyColumn order⟩, hcs.copyColumns order⟩

end

/-- So are the columns of a copied schema, in whatever order the hash map gives them. -/
theorem ColumnsFor.copy (order : HashOrder) {columns : List Column} {schema : MessageSchema}
    (h : ColumnsFor columns schema) : ColumnsFor (copy order columns) schema :=
  (h.copyColumns order).iterate order

mutual

/-- The column `fromProtobuf` makes for a field is one for it. By recursion on the field, with
the fields of an object below it. -/
theorem columnFor_columnFromProtobuf (order : HashOrder) (f : MessageSchemaField) :
    ColumnFor (columnFromProtobuf order f) f := by
  match f with
  | .scalar id name type repeated optional => exact ⟨id, type, rfl, rfl⟩
  | .object id name repeated optional schema =>
    rw [columnFromProtobuf, ColumnFor]
    exact ⟨id, schema, rfl, (columnsFor_fromProtobuf order schema schema fun _ h => h).copy order⟩

/-- The schema `fromProtobuf` makes has columns for the fields it is made of. By recursion on
the fields. -/
theorem columnsFor_fromProtobuf (order : HashOrder) (fs : List MessageSchemaField)
    (schema : MessageSchema) (h : ∀ f ∈ fs, f ∈ schema) :
    ColumnsFor (fromProtobuf order fs) schema := by
  match fs with
  | [] => exact trivial
  | f :: fs =>
    rw [fromProtobuf, ColumnsFor]
    exact ⟨⟨f, h f List.mem_cons_self, columnFor_columnFromProtobuf order f⟩,
      columnsFor_fromProtobuf order fs schema fun g hg => h g (List.mem_cons_of_mem f hg)⟩

end

/-- A column for a field has its name and occurs as often. These are what the levels are made
from. -/
theorem ColumnFor.hop {column : Column} {f : MessageSchemaField} (h : ColumnFor column f) :
    column.name = f.name ∧ column.repeated = f.repeated ∧ column.optional = f.optional := by
  cases column with
  | leaf name type encoding repeated optional =>
    obtain ⟨id, scalar, rfl, -⟩ := h
    exact ⟨rfl, rfl, rfl⟩
  | subrecord name subschema repeated optional =>
    rw [ColumnFor] at h
    obtain ⟨id, schema, rfl, -⟩ := h
    exact ⟨rfl, rfl, rfl⟩

/-! ### The steps of a conforming record -/

namespace RecordShredder

/-- A column of the encoding takes the argument. -/
def Takes (encoding : ColumnEncoding) (arg : WriteArg) : Prop :=
  ∀ str, arg = .string str → encoding = .STRING_PLAIN

/-- The class that `fromProtobuf` chooses for a type takes the values of the type. So a
conforming record is not rejected by a column. -/
theorem takes_arg {type : ScalarType} {value : ScalarValue} (h : value.type = type.val) :
    Takes (columnOfFieldType type).2 value.arg := by
  obtain ⟨type, htype⟩ := type
  obtain rfl : value.type = type := h
  intro str harg
  cases value with
  | string value => rfl
  | _ => cases harg

/-- The step is a write to one of the leaves, which takes it. -/
def Step.Lands (pre : Bytes) (paths : List LeafPath) (s : Step) : Prop :=
  ∃ p ∈ paths, ∃ r d arg, s = .write (p.name pre) r d (.ok arg) ∧ Takes p.encoding arg

/-- All steps are writes to leaves that take them. -/
def AllLand (pre : Bytes) (paths : List LeafPath) (steps : List Step) : Prop :=
  ∀ s ∈ steps, s.Lands pre paths

/-- Steps that land at some leaves land at more of them. The leaves of a part are some of those
of the schema. -/
theorem AllLand.mono {pre : Bytes} {paths paths' : List LeafPath} {steps : List Step}
    (h : AllLand pre paths steps) (hsub : ∀ p ∈ paths, p ∈ paths') :
    AllLand pre paths' steps := by
  intro s hs
  obtain ⟨p, hp, hrest⟩ := h s hs
  exact ⟨p, hsub p hp, hrest⟩

/-- Steps of two parts of a schema land at the leaves of either. -/
theorem AllLand.append {pre : Bytes} {xs ys : List LeafPath} {steps steps' : List Step}
    (hx : AllLand pre xs steps) (hy : AllLand pre ys steps') :
    AllLand pre (xs ++ ys) (steps ++ steps') := by
  intro s hs
  rcases List.mem_append.mp hs with hs | hs
  · exact hx.mono (fun p => List.mem_append_left ys) s hs
  · exact hy.mono (fun p => List.mem_append_right xs) s hs

/-- Steps that land below a field land at the leaves that go through it. The name of the field
is in front of theirs. -/
theorem AllLand.below {pre : Bytes} {f : PathField} {paths : List LeafPath} {steps : List Step}
    (h : AllLand (pre ++ f.name ++ [dot]) paths steps) :
    AllLand pre (paths.map (LeafPath.below f)) steps := by
  intro s hs
  obtain ⟨p, hp, hrest⟩ := h s hs
  exact ⟨p.below f, List.mem_map_of_mem hp, hrest⟩

mutual

/-- The nulls for a field that is absent land at its leaves, each at one of them. By recursion
on the field. -/
theorem nullSteps_land (r d : Nat) (pre : Bytes) (field : Column) :
    AllLand pre (columnPaths field) (nullSteps r d (pre ++ field.name) field) := by
  match field with
  | .leaf name type encoding repeated optional =>
    intro s hs
    rw [nullSteps, List.mem_singleton] at hs
    exact ⟨_, List.mem_cons_self, r, d, .null, hs, fun _ h => by cases h⟩
  | .subrecord name subschema repeated optional =>
    rw [columnPaths, nullSteps]
    exact (nullStepsOf_land r d (pre ++ name ++ [dot]) subschema).below

/-- The same for all the fields of an absent object. -/
theorem nullStepsOf_land (r d : Nat) (pre : Bytes) (fields : List Column) :
    AllLand pre (schemaPaths fields) (nullStepsOf r d pre fields) := by
  match fields with
  | [] => exact fun s hs => absurd hs List.not_mem_nil
  | f :: fs =>
    rw [schemaPaths, nullStepsOf]
    exact (nullSteps_land r d pre f).append (nullStepsOf_land r d pre fs)

end

/-- The steps of a field whose occurrences conform: they land where those of one
occurrence do. -/
theorem forFieldSteps_land {r rmax d : Nat} {schema : MessageSchema} {pre : Bytes}
    {field : Column} {act : UInt32 → Nat → MessageObject → List Step} {f : MessageSchemaField}
    (hdistinct : DistinctFields schema) (hf : f ∈ schema) (hfor : ColumnFor field f)
    {id : UInt32} {children : List MessageObject}
    (hoccurs : Occurs f.repeated f.optional (childrenOf f.id children).length)
    (hact : ∀ r, ∀ o ∈ childrenOf f.id children, AllLand pre (columnPaths field) (act f.id r o)) :
    AllLand pre (columnPaths field)
      (forFieldSteps r rmax d (.object id children) schema pre field act) := by
  obtain ⟨hname, hrepeated, hoptional⟩ := hfor.hop
  unfold forFieldSteps
  rw [hname, occurrencesOf_object hdistinct hf]
  cases hos : childrenOf f.id children with
  | nil =>
    -- a record that conforms leaves out no required field
    have hmissing : (field.optional || field.repeated) = true := by
      rw [hrepeated, hoptional]
      cases hr : f.repeated with
      | true => exact Bool.or_true _
      | false =>
        cases ho : f.optional with
        | true => rfl
        | false => exact absurd (by rw [hos]; rfl) (hoccurs.pos hr ho)
    dsimp only
    rw [if_pos hmissing, ← hname]
    exact nullSteps_land r d pre field
  | cons o os =>
    rw [hos] at hact
    intro s hs
    rcases List.mem_append.mp hs with hs | hs
    · exact hact r o List.mem_cons_self s hs
    · obtain ⟨o', ho', hs⟩ := List.mem_flatMap.mp hs
      exact hact _ o' (List.mem_cons_of_mem o ho') s hs

mutual

/-- No step of a field that conforms fails. By recursion on the column, along with the
record. -/
theorem fieldSteps_land (r rmax d : Nat) (pre : Bytes) (field : Column)
    {f : MessageSchemaField} (hfor : ColumnFor field f) {schema : MessageSchema} (hf : f ∈ schema)
    (hdistinct : AtEveryLevel DistinctFields schema) {id : UInt32}
    {children : List MessageObject} (hconform : FieldConforms f (childrenOf f.id children)) :
    AllLand pre (columnPaths field)
      (fieldSteps r rmax d (.object id children) schema pre field) := by
  match field with
  | .leaf name type encoding repeated optional =>
    have hfor' := hfor
    obtain ⟨fid, scalar, rfl, hcolumn⟩ := hfor'
    obtain ⟨hoccurs, hall⟩ := hconform
    rw [fieldSteps]
    refine forFieldSteps_land hdistinct.1 hf hfor hoccurs fun r' o ho s hs => ?_
    obtain ⟨value, rfl, htype⟩ := hall o ho
    rw [List.mem_singleton] at hs
    have harg := protoArg_scalar htype fid
    have htakes := takes_arg htype
    rw [hcolumn] at harg htakes
    dsimp only at harg
    rw [harg] at hs
    exact ⟨_, List.mem_cons_self, r', _, _, hs, htakes⟩
  | .subrecord name subschema repeated optional =>
    have hfor' := hfor
    rw [ColumnFor] at hfor'
    obtain ⟨fid, sub, rfl, hsub⟩ := hfor'
    obtain ⟨hoccurs, hall⟩ := hconform
    rw [fieldSteps]
    refine forFieldSteps_land hdistinct.1 hf hfor hoccurs fun r' o ho => ?_
    obtain ⟨children', rfl, -, hconform'⟩ := hall o ho
    rw [hdistinct.1.fieldSchema hf, columnPaths]
    exact (fieldStepsOf_land _ _ _ _ subschema hsub (hdistinct.object hf) hconform').below

/-- No step of a conforming record fails: each field occurs as often as it may and holds values
of its type. -/
theorem fieldStepsOf_land (r rmax d : Nat) (pre : Bytes) (fields : List Column)
    {schema : MessageSchema} (hfor : ColumnsFor fields schema)
    (hdistinct : AtEveryLevel DistinctFields schema) {id : UInt32}
    {children : List MessageObject} (hconform : FieldsConform schema children) :
    AllLand pre (schemaPaths fields)
      (fieldStepsOf r rmax d (.object id children) (some schema) pre fields) := by
  match fields with
  | [] => exact fun s hs => absurd hs List.not_mem_nil
  | c :: cs =>
    rw [ColumnsFor] at hfor
    obtain ⟨⟨f, hf, hc⟩, hcs⟩ := hfor
    rw [schemaPaths, fieldStepsOf]
    exact (fieldSteps_land r rmax d pre c hc hf hdistinct
      (fieldsConform_iff.mp hconform f hf)).append
      (fieldStepsOf_land r rmax d pre cs hcs hdistinct hconform)

end

end RecordShredder

end CStable
