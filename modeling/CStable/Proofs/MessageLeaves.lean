import CStable.Proofs.SchemaCopy
import CStable.RecordMaterializer

/-!
# `CStable.Proofs.MessageLeaves`: the leaves of a message schema

A message schema, the table schema `fromProtobuf` makes of it and the columns of a
`RecordMaterializer` have the same leaves. A leaf of the message schema has the ids of
the fields on the way to it as well (`MessageLeaf`); without them it is a leaf of the
table schema (`schemaPaths_fromProtobuf`), and it says where the entries of its column
go (`createColumnsOf_eq`).
-/

set_option autoImplicit false

namespace CStable

open TableSchema (dot columnOfFieldType columnFromProtobuf fromProtobuf copy)
open Support.Striping (Hop)

/-! ### Leaves -/

/-- A field on the way to a leaf of a message schema. -/
structure MessageStep where
  id : UInt32
  field : PathField
  deriving DecidableEq

/-- The field as one on the way to leaves. -/
def MessageSchemaField.step (f : MessageSchemaField) : MessageStep :=
  ⟨f.id, ⟨f.name, f.repeated, f.optional⟩⟩

/-- A leaf of a message schema: the objects above it, from the outermost on, and the
field itself. -/
structure MessageLeaf where
  parents : List MessageStep
  leaf : MessageStep
  type : ScalarType

namespace MessageLeaf

/-- The leaf, one object further down. -/
def below (s : MessageStep) (p : MessageLeaf) : MessageLeaf := { p with parents := s :: p.parents }

/-- Leaves below an object are different when they are different in it. -/
theorem below_injective (s : MessageStep) : Function.Injective (below s) := by
  rintro ⟨parents, leaf, type⟩ ⟨parents', leaf', type'⟩ h
  obtain ⟨hparents, rfl, rfl⟩ := MessageLeaf.mk.inj h
  obtain ⟨-, rfl⟩ := List.cons.inj hparents
  rfl

/-- The leaf of the table schema. -/
def path (p : MessageLeaf) : LeafPath where
  parents := p.parents.map MessageStep.field
  leaf := p.leaf.field
  type := (columnOfFieldType p.type).1
  encoding := (columnOfFieldType p.type).2

/-- The dotted name of the leaf below a prefix. -/
def name (p : MessageLeaf) (pre : Bytes) : Bytes := p.path.name pre

end MessageLeaf

mutual

/-- The leaves of a field. -/
def fieldLeaves : MessageSchemaField → List MessageLeaf
  | .scalar id name type repeated optional => [⟨[], ⟨id, ⟨name, repeated, optional⟩⟩, type⟩]
  | .object id name repeated optional schema =>
    (messageLeaves schema).map (MessageLeaf.below ⟨id, ⟨name, repeated, optional⟩⟩)

/-- The leaves of a message schema. -/
def messageLeaves : List MessageSchemaField → List MessageLeaf
  | [] => []
  | f :: fs => fieldLeaves f ++ messageLeaves fs

end

/-- A leaf of a schema is one of its fields. -/
theorem mem_messageLeaves {schema : MessageSchema} {p : MessageLeaf} :
    p ∈ messageLeaves schema ↔ ∃ f ∈ schema, p ∈ fieldLeaves f := by
  induction schema with
  | nil => simp [messageLeaves]
  | cons f fs ih => rw [messageLeaves, List.mem_append, ih, List.exists_mem_cons_iff]

/-- A leaf that is a field of the schema itself: a scalar field. -/
theorem mem_messageLeaves_nil {schema : MessageSchema} {leaf : MessageStep} {type : ScalarType}
    (h : ⟨[], leaf, type⟩ ∈ messageLeaves schema) :
    .scalar leaf.id leaf.field.name type leaf.field.repeated leaf.field.optional ∈ schema := by
  obtain ⟨f, hf, hp⟩ := mem_messageLeaves.mp h
  cases f with
  | scalar id name type' repeated optional =>
    cases List.mem_singleton.mp hp
    exact hf
  | object id name repeated optional sub =>
    obtain ⟨q, -, hq⟩ := List.mem_map.mp hp
    cases hq

/-- A leaf below an object of the schema is a leaf of the schema of the object. -/
theorem mem_messageLeaves_cons {schema : MessageSchema} {s : MessageStep} {ss : List MessageStep}
    {leaf : MessageStep} {type : ScalarType}
    (h : ⟨s :: ss, leaf, type⟩ ∈ messageLeaves schema) :
    ∃ sub, .object s.id s.field.name s.field.repeated s.field.optional sub ∈ schema ∧
      ⟨ss, leaf, type⟩ ∈ messageLeaves sub := by
  obtain ⟨f, hf, hp⟩ := mem_messageLeaves.mp h
  cases f with
  | scalar id name type' repeated optional =>
    cases List.mem_singleton.mp hp
  | object id name repeated optional sub =>
    obtain ⟨q, hq, heq⟩ := List.mem_map.mp hp
    cases heq
    exact ⟨sub, hf, hq⟩

/-- The first field on the way to the leaf. -/
def MessageLeaf.first (p : MessageLeaf) : MessageStep := p.parents.headD p.leaf

/-- The way to a leaf of a field begins with the field. -/
theorem first_of_mem_fieldLeaves {f : MessageSchemaField} {p : MessageLeaf}
    (h : p ∈ fieldLeaves f) : p.first = f.step := by
  cases f with
  | scalar id name type repeated optional =>
    cases List.mem_singleton.mp h
    rfl
  | object id name repeated optional sub =>
    obtain ⟨q, -, rfl⟩ := List.mem_map.mp h
    rfl

/-! ### The table schema -/

mutual

/-- The column made for a field has its leaves, in some order of each level. The hash map
decides which. -/
theorem columnPaths_columnFromProtobuf (order : HashOrder) (f : MessageSchemaField) :
    (columnPaths (columnFromProtobuf order f)).Perm ((fieldLeaves f).map MessageLeaf.path) := by
  match f with
  | .scalar id name type repeated optional => exact .refl _
  | .object id name repeated optional schema =>
    rw [columnFromProtobuf, columnPaths, fieldLeaves, List.map_map]
    refine ((schemaPaths_copy order _).map _).trans ?_
    refine ((schemaPaths_fromProtobuf order schema).map _).trans ?_
    rw [List.map_map]
    exact .refl _

/-- The leaves of the table schema are those of the message schema. Their order is that of the
hash maps. -/
theorem schemaPaths_fromProtobuf (order : HashOrder) (fs : List MessageSchemaField) :
    (schemaPaths (fromProtobuf order fs)).Perm ((messageLeaves fs).map MessageLeaf.path) := by
  match fs with
  | [] => exact .refl _
  | f :: fs =>
    rw [fromProtobuf, schemaPaths, messageLeaves, List.map_append]
    exact (columnPaths_columnFromProtobuf order f).append (schemaPaths_fromProtobuf order fs)

end

/-! ### The columns of a materializer -/

namespace RecordMaterializer

variable {ρ : Type}

/-- The objects on the way to a leaf as `createColumns` keeps them, with the definition
level of the fields above. -/
def parentsOf : Nat → List MessageStep → List Parent
  | _, [] => []
  | d, s :: ss =>
    ⟨s.id, s.field.repeated, d + s.field.hop.opt⟩ :: parentsOf (d + s.field.hop.opt) ss

/-- The state `createColumns` gives the column of a leaf. -/
def openState [AbstractColumnReader ρ] (dmax : Nat) (parents : List Parent) (p : MessageLeaf)
    (r : ρ) : ColumnState ρ where
  reader := r
  parents := parents ++ parentsOf dmax p.parents
  field_id := p.leaf.id
  field_type := p.type
  col_type := AbstractColumnReader.type r

/-- Whether the columns are those of the filter; an empty filter lets all of them
through. -/
def InFilter (columns : List Bytes) (name : Bytes) : Bool :=
  columns.isEmpty || columns.contains name

/-- The column of a leaf, if the table has it and the filter lets it through. -/
def openColumn [AbstractColumnReader ρ] (reader : Bytes → Option ρ) (columns : List Bytes)
    (pre : Bytes) (dmax : Nat) (parents : List Parent) (p : MessageLeaf) :
    Option (Bytes × ColumnState ρ) :=
  if InFilter columns (p.name pre) then
    (reader (p.name pre)).map fun r => (p.name pre, openState dmax parents p r)
  else none

/-- A column of the materializer is kept under the dotted name of its leaf. -/
theorem name_of_mem_openColumn [AbstractColumnReader ρ] {reader : Bytes → Option ρ}
    {columns : List Bytes} {pre : Bytes} {dmax : Nat} {parents : List Parent} {p : MessageLeaf}
    {c : Bytes × ColumnState ρ} (h : c ∈ openColumn reader columns pre dmax parents p) :
    c.1 = p.name pre := by
  unfold openColumn at h
  split_ifs at h with hfilter
  · obtain ⟨r, -, rfl⟩ := Option.map_eq_some_iff.mp h
    rfl
  · cases h

/-- The names of the columns that are opened are some of those of the leaves, in order. -/
theorem openColumn_names [AbstractColumnReader ρ] (reader : Bytes → Option ρ)
    (columns : List Bytes) (pre : Bytes) (dmax : Nat) (parents : List Parent)
    (leaves : List MessageLeaf) :
    ((leaves.filterMap (openColumn reader columns pre dmax parents)).map Prod.fst).Sublist
      (leaves.map (MessageLeaf.name · pre)) := by
  induction leaves with
  | nil => exact .slnil
  | cons p ps ih =>
    rw [List.filterMap_cons, List.map_cons]
    cases hopen : openColumn reader columns pre dmax parents p with
    | none => exact ih.cons _
    | some c =>
      dsimp only
      rw [List.map_cons, name_of_mem_openColumn (Option.mem_def.mpr hopen)]
      exact ih.cons_cons _

/-- One object further down the level and the parents are those of the object. -/
theorem openColumn_below [AbstractColumnReader ρ] (reader : Bytes → Option ρ)
    (columns : List Bytes) (pre : Bytes) (dmax : Nat) (parents : List Parent) (s : MessageStep)
    (p : MessageLeaf) :
    openColumn reader columns pre dmax parents (p.below s) =
      openColumn reader columns (pre ++ s.field.name ++ [dot]) (dmax + s.field.hop.opt)
        (parents ++ [⟨s.id, s.field.repeated, dmax + s.field.hop.opt⟩]) p := by
  have hstate : @openState ρ _ dmax parents (p.below s) =
      openState (dmax + s.field.hop.opt)
        (parents ++ [⟨s.id, s.field.repeated, dmax + s.field.hop.opt⟩]) p := by
    funext r
    unfold openState
    rw [List.append_assoc]
    rfl
  unfold openColumn
  rw [hstate]
  rfl

mutual

/-- The columns that are created for a field are those of its leaves, behind the ones that are
there. By recursion on the field. The names have to be different, because the map keeps one
column for each. -/
theorem createColumns_eq [AbstractColumnReader ρ] (pre : Bytes) (dmax : Nat)
    (parents : List Parent) (f : MessageSchemaField) (reader : Bytes → Option ρ)
    (columns : List Bytes) (acc : List (Bytes × ColumnState ρ))
    (h : (acc.map Prod.fst ++ (fieldLeaves f).map (MessageLeaf.name · pre)).Nodup) :
    createColumns pre dmax parents f reader columns acc =
      acc ++ (fieldLeaves f).filterMap (openColumn reader columns pre dmax parents) := by
  match f with
  | .scalar id name type repeated optional =>
    -- the name is new to the map, so `emplace` does insert
    have hnew : (acc.any fun c => c.1 == pre ++ name) = false := by
      refine List.any_eq_false.mpr fun c hc heq => ?_
      exact (List.nodup_append.mp h).2.2 c.1 (List.mem_map_of_mem hc) (pre ++ name)
        List.mem_cons_self (beq_iff_eq.mp heq)
    have hstate : ∀ r : ρ, openState dmax parents ⟨[], ⟨id, ⟨name, repeated, optional⟩⟩, type⟩ r =
        { reader := r, parents, field_id := id, field_type := type
          col_type := AbstractColumnReader.type r } := by
      intro r
      unfold openState parentsOf
      rw [List.append_nil]
    rw [createColumns, fieldLeaves]
    have hfilter : openColumn reader columns pre dmax parents
        ⟨[], ⟨id, ⟨name, repeated, optional⟩⟩, type⟩ =
          if InFilter columns (pre ++ name) then (reader (pre ++ name)).map fun r =>
            (pre ++ name, openState dmax parents ⟨[], ⟨id, ⟨name, repeated, optional⟩⟩, type⟩ r)
          else none := rfl
    rw [List.filterMap_cons, hfilter, List.filterMap_nil]
    cases reader (pre ++ name) with
    | none =>
      rw [Option.map_none, ite_self, List.append_nil]
    | some r =>
      rw [Option.map_some, hstate]
      dsimp only
      rw [emplace, hnew, if_neg Bool.false_ne_true, ← InFilter]
      cases InFilter columns (pre ++ name) with
      | true => rfl
      | false => exact (List.append_nil acc).symm
  | .object id name repeated optional schema =>
    rw [createColumns, fieldLeaves, List.filterMap_map]
    rw [fieldLeaves, List.map_map] at h
    have hlevel : (if repeated || optional then dmax + 1 else dmax) =
        dmax + (Hop.mk repeated optional).opt := by
      cases repeated <;> cases optional <;> rfl
    rw [hlevel, createColumnsOf_eq _ _ _ schema reader columns acc h]
    exact congrArg _ (List.filterMap_congr fun p _ =>
      (openColumn_below reader columns pre dmax parents ⟨id, ⟨name, repeated, optional⟩⟩ p).symm)

/-- The columns that are created are those of the leaves, for all fields of a level. By
recursion on the fields. -/
theorem createColumnsOf_eq [AbstractColumnReader ρ] (pre : Bytes) (dmax : Nat)
    (parents : List Parent) (fs : List MessageSchemaField) (reader : Bytes → Option ρ)
    (columns : List Bytes) (acc : List (Bytes × ColumnState ρ))
    (h : (acc.map Prod.fst ++ (messageLeaves fs).map (MessageLeaf.name · pre)).Nodup) :
    createColumnsOf pre dmax parents fs reader columns acc =
      acc ++ (messageLeaves fs).filterMap (openColumn reader columns pre dmax parents) := by
  match fs with
  | [] =>
    rw [createColumnsOf, messageLeaves, List.filterMap_nil, List.append_nil]
  | f :: fs =>
    rw [messageLeaves, List.map_append, ← List.append_assoc] at h
    have hfirst := (List.nodup_append.mp h).1
    rw [createColumnsOf, messageLeaves,
      createColumns_eq pre dmax parents f reader columns acc hfirst,
      createColumnsOf_eq pre dmax parents fs reader columns, List.filterMap_append,
      List.append_assoc]
    -- the columns of the first field have names of its leaves
    refine h.sublist (List.Sublist.append_right ?_ _)
    rw [List.map_append]
    exact List.Sublist.append_left (openColumn_names _ _ _ _ _ _) _

end

end RecordMaterializer

end CStable
