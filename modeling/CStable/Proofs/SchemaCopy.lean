import CStable.Proofs.ShreddedTable
import CStable.Proofs.Store
import CStable.Support.Pieces

/-!
# `CStable.Proofs.SchemaCopy`: the order of the columns of a copied schema

The copy constructor of a schema walks the hash map of the names, not the list of the
columns, and `createFile` copies the schema it is given. A copy has the leaves of the
original (`schemaPaths_copy`), but in which order is up to the hash map.

* `copyKeepsColumns_iff`: the flat columns are the same whatever the hash map does exactly
  when at every level of the schema the flat columns of any two columns can change
  places.
-/

set_option autoImplicit false

namespace CStable

open TableSchema
open Support.Pieces

/-! ### Copies and leaves -/

/-- The columns of a schema one after the other, in the order of the list. By induction on the
list. -/
theorem listFlatColumnsOf_flatMap (pre : Bytes) (r_max d_max : Nat) (fields : List Column) :
    listFlatColumnsOf pre r_max d_max fields =
      fields.flatMap (listFlatColumns pre r_max d_max) := by
  induction fields with
  | nil => rfl
  | cons f fs ih => rw [listFlatColumnsOf, ih, List.flatMap_cons]

/-- Each column of a level is copied for itself; the order changes only where a copy walks its
map. -/
theorem copyColumns_eq_map (order : HashOrder) (fields : List Column) :
    copyColumns order fields = fields.map (copyColumn order) := by
  induction fields with
  | nil => rfl
  | cons f fs ih => rw [copyColumns, ih, List.map_cons]

/-- The leaves of a schema are those of its columns, one column after the other. -/
theorem schemaPaths_eq_flatMap (fields : List Column) :
    schemaPaths fields = fields.flatMap columnPaths := by
  induction fields with
  | nil => rfl
  | cons f fs ih => rw [schemaPaths, ih, List.flatMap_cons]

mutual

/-- A copy of a column has the same leaves, in some order of each level below it. By recursion
on the column. -/
theorem columnPaths_copyColumn (order : HashOrder) (field : Column) :
    (columnPaths (copyColumn order field)).Perm (columnPaths field) := by
  match field with
  | .leaf name type encoding repeated optional => exact .refl _
  | .subrecord name subschema repeated optional =>
    rw [copyColumn, columnPaths, columnPaths]
    refine List.Perm.map _ ?_
    rw [schemaPaths_eq_flatMap]
    refine ((order.perm _).flatMap_right columnPaths).trans ?_
    rw [← schemaPaths_eq_flatMap]
    exact schemaPaths_copyColumns order subschema

/-- So have copies of the columns of a level. A copy walks the hash map, which may give another
order at every level. -/
theorem schemaPaths_copyColumns (order : HashOrder) (fields : List Column) :
    (schemaPaths (copyColumns order fields)).Perm (schemaPaths fields) := by
  match fields with
  | [] => exact .refl _
  | f :: fs =>
    rw [copyColumns, schemaPaths, schemaPaths]
    exact (columnPaths_copyColumn order f).append (schemaPaths_copyColumns order fs)

end

/-- A copy has the leaves of the original. Only their order may be another one, as
`copyKeepsColumns_iff` says. -/
theorem schemaPaths_copy (order : HashOrder) (schema : TableSchema) :
    (schemaPaths (copy order schema)).Perm (schemaPaths schema) := by
  unfold copy
  rw [schemaPaths_eq_flatMap]
  refine ((order.perm _).flatMap_right columnPaths).trans ?_
  rw [← schemaPaths_eq_flatMap]
  exact schemaPaths_copyColumns order schema

/-! ### Levels -/

mutual

/-- The property holds of the columns at every level inside the column. -/
def EachLevel (P : List Column → Prop) : Column → Prop
  | .leaf _ _ _ _ _ => True
  | .subrecord _ subschema _ _ => P subschema ∧ EachLevelOf P subschema

/-- The property holds of the columns at every level inside the columns. -/
def EachLevelOf (P : List Column → Prop) : List Column → Prop
  | [] => True
  | f :: fs => EachLevel P f ∧ EachLevelOf P fs

end

/-- The property holds of the columns at every level of the schema. -/
def EveryLevel (P : List Column → Prop) (schema : TableSchema) : Prop :=
  P schema ∧ EachLevelOf P schema

/-- Any two columns of the level have flat columns that can change places. -/
def SiblingsCommute (fields : List Column) : Prop :=
  fields.Pairwise fun f g =>
    listFlatColumns [] 0 0 f ++ listFlatColumns [] 0 0 g =
      listFlatColumns [] 0 0 g ++ listFlatColumns [] 0 0 f

/-! ### Flat columns below a prefix -/

/-- A prefix of a dotted name is in front of it, whatever is built behind. By induction on the
parents. -/
theorem LeafPath.dotted_append (leaf : PathField) (pre : Bytes) (parents : List PathField) :
    ∀ pre', dotted leaf (pre ++ pre') parents = pre ++ dotted leaf pre' parents := by
  induction parents with
  | nil =>
    intro pre'
    exact List.append_assoc pre pre' leaf.name
  | cons f fs ih =>
    intro pre'
    rw [dotted, dotted, List.append_assoc, List.append_assoc, ih, ← List.append_assoc pre']

/-- A flat column below a prefix and levels. -/
def TableSchema.FlatColumn.shift (pre : Bytes) (r_max d_max : Nat) (c : FlatColumn) : FlatColumn :=
  { c with
    column_name := pre ++ c.column_name
    rlevel_max := r_max + c.rlevel_max
    dlevel_max := d_max + c.dlevel_max }

/-- Columns below a prefix are different when they are different without it: nothing of a column
gets lost by being further down. -/
theorem shift_injective (pre : Bytes) (r_max d_max : Nat) :
    Function.Injective (FlatColumn.shift pre r_max d_max) := by
  intro a b hab
  obtain ⟨name, encoding, type, r, d⟩ := a
  obtain ⟨name', encoding', type', r', d'⟩ := b
  obtain ⟨hname, rfl, rfl, hr, hd⟩ := FlatColumn.mk.inj hab
  obtain rfl := List.append_cancel_left hname
  obtain rfl := Nat.add_left_cancel hr
  obtain rfl := Nat.add_left_cancel hd
  rfl

/-- The flat columns below a prefix are those at the top, with the prefix in front and the
levels added. -/
theorem listFlatColumnsOf_shift (pre : Bytes) (r_max d_max : Nat) (fields : List Column) :
    listFlatColumnsOf pre r_max d_max fields =
      (listFlatColumnsOf [] 0 0 fields).map (FlatColumn.shift pre r_max d_max) := by
  rw [listFlatColumnsOf_eq, listFlatColumnsOf_eq, List.map_map]
  refine List.map_congr_left fun p _ => ?_
  have hname := LeafPath.dotted_append p.leaf pre p.parents []
  rw [List.append_nil] at hname
  simp only [LeafPath.flat, Function.comp_apply, FlatColumn.shift, LeafPath.name, hname,
    Nat.zero_add]

/-- Sub-records of one name have the same flat columns exactly when their schemas do, because
both are put below the same prefix. -/
theorem listFlatColumns_subrecord_inj {name : Bytes} {repeated optional : Bool}
    {fields fields' : List Column} :
    listFlatColumns [] 0 0 (.subrecord name fields repeated optional) =
        listFlatColumns [] 0 0 (.subrecord name fields' repeated optional) ↔
      listFlatColumnsOf [] 0 0 fields = listFlatColumnsOf [] 0 0 fields' := by
  rw [listFlatColumns, listFlatColumns, listFlatColumnsOf_shift,
    listFlatColumnsOf_shift _ _ _ fields']
  exact (List.map_injective_iff.mpr (shift_injective _ _ _)).eq_iff

/-! ### Schemas without an order -/

/-- Copies in any order, of siblings that commute: pieces that commute may be put together in
any order. -/
theorem listFlatColumnsOf_iterate (order : HashOrder) (fields : List Column)
    (h : SiblingsCommute fields)
    (hcopies : (copyColumns order fields).map (listFlatColumns [] 0 0) =
      fields.map (listFlatColumns [] 0 0)) :
    listFlatColumnsOf [] 0 0 (order.iterate (copyColumns order fields)) =
      listFlatColumnsOf [] 0 0 fields := by
  have hcommute : (copyColumns order fields).Pairwise fun f g =>
      listFlatColumns [] 0 0 f ++ listFlatColumns [] 0 0 g =
        listFlatColumns [] 0 0 g ++ listFlatColumns [] 0 0 f := by
    have hmap : (fields.map (listFlatColumns [] 0 0)).Pairwise fun a b => a ++ b = b ++ a :=
      List.pairwise_map.mpr h
    rw [← hcopies] at hmap
    exact List.pairwise_map.mp hmap
  rw [listFlatColumnsOf_flatMap, flatMap_perm (order.perm _) hcommute, listFlatColumnsOf_flatMap,
    List.flatMap_def, hcopies, ← List.flatMap_def]

mutual

/-- Where siblings commute at every level, a copy has the flat columns of the original. By
recursion on the column, with a permutation at each level. -/
theorem listFlatColumns_copyColumn (order : HashOrder) (field : Column)
    (h : EachLevel SiblingsCommute field) :
    listFlatColumns [] 0 0 (copyColumn order field) = listFlatColumns [] 0 0 field := by
  match field with
  | .leaf name type encoding repeated optional => rfl
  | .subrecord name subschema repeated optional =>
    rw [EachLevel] at h
    rw [copyColumn, listFlatColumns_subrecord_inj]
    exact listFlatColumnsOf_iterate order subschema h.1
      (listFlatColumns_copyColumns order subschema h.2)

/-- The same for the columns of a level, one by one. -/
theorem listFlatColumns_copyColumns (order : HashOrder) (fields : List Column)
    (h : EachLevelOf SiblingsCommute fields) :
    (copyColumns order fields).map (listFlatColumns [] 0 0) =
      fields.map (listFlatColumns [] 0 0) := by
  match fields with
  | [] => rfl
  | f :: fs =>
    rw [EachLevelOf] at h
    rw [copyColumns, List.map_cons, List.map_cons, listFlatColumns_copyColumn order f h.1,
      listFlatColumns_copyColumns order fs h.2]

end

/-! ### Orders that move the columns of one level -/

mutual

/-- The number of columns at all levels of a column, with itself. -/
def columnCount : Column → Nat
  | .leaf _ _ _ _ _ => 1
  | .subrecord _ subschema _ _ => columnCountOf subschema + 1

/-- The number of columns at all levels. -/
def columnCountOf : List Column → Nat
  | [] => 0
  | f :: fs => columnCount f + columnCountOf fs

end

/-- The columns of a level are counted one by one, with all that is below them. -/
theorem columnCountOf_eq_sum (fields : List Column) :
    columnCountOf fields = (fields.map columnCount).sum := by
  induction fields with
  | nil => rfl
  | cons f fs ih => rw [columnCountOf, ih, List.map_cons, List.sum_cons]

/-- The count does not depend on the order of a level. So it can measure a schema and its copy
alike. -/
theorem columnCountOf_perm {fields fields' : List Column} (h : fields.Perm fields') :
    columnCountOf fields = columnCountOf fields' := by
  rw [columnCountOf_eq_sum, columnCountOf_eq_sum]
  exact (h.map columnCount).sum_eq

/-- A column has no more columns in it than the level it is in. -/
theorem columnCount_le {fields : List Column} {f : Column} (h : f ∈ fields) :
    columnCount f ≤ columnCountOf fields := by
  induction fields with
  | nil => exact absurd h List.not_mem_nil
  | cons g gs ih =>
    rw [columnCountOf]
    rcases List.mem_cons.mp h with rfl | h
    · exact Nat.le_add_right _ _
    · exact (ih h).trans (Nat.le_add_left _ _)

mutual

/-- A copy has as many columns as the original, level by level. By recursion on the column. -/
theorem columnCount_copyColumn (order : HashOrder) (field : Column) :
    columnCount (copyColumn order field) = columnCount field := by
  match field with
  | .leaf name type encoding repeated optional => rfl
  | .subrecord name subschema repeated optional =>
    rw [copyColumn, columnCount, columnCount, columnCountOf_perm (order.perm _),
      columnCountOf_copyColumns]

/-- So has a copied level. -/
theorem columnCountOf_copyColumns (order : HashOrder) (fields : List Column) :
    columnCountOf (copyColumns order fields) = columnCountOf fields := by
  match fields with
  | [] => rfl
  | f :: fs =>
    rw [copyColumns, columnCountOf, columnCountOf, columnCount_copyColumn,
      columnCountOf_copyColumns]

end

mutual

/-- The copy of a column looks only at how smaller levels are walked. An order of the map may
therefore be changed at one level without a change below it. -/
theorem copyColumn_congr {order order' : HashOrder} {n : Nat}
    (h : ∀ fields, columnCountOf fields < n → order.iterate fields = order'.iterate fields)
    (field : Column) (hn : columnCount field ≤ n) :
    copyColumn order field = copyColumn order' field := by
  match field with
  | .leaf name type encoding repeated optional => rfl
  | .subrecord name subschema repeated optional =>
    rw [columnCount] at hn
    rw [copyColumn, copyColumn, copyColumns_congr h subschema (Nat.le_of_succ_le hn), h]
    rw [columnCountOf_copyColumns]
    exact hn

/-- The same for the copies of a level. Orders that agree on smaller levels give the same copies
of them. -/
theorem copyColumns_congr {order order' : HashOrder} {n : Nat}
    (h : ∀ fields, columnCountOf fields < n → order.iterate fields = order'.iterate fields)
    (fields : List Column) (hn : columnCountOf fields ≤ n) :
    copyColumns order fields = copyColumns order' fields := by
  match fields with
  | [] => rfl
  | f :: fs =>
    rw [columnCountOf] at hn
    rw [copyColumns, copyColumns, copyColumn_congr h f (by omega),
      copyColumns_congr h fs (by omega)]

end

/-- Walking a hash map in the order of its insertions. -/
def HashOrder.insertion : HashOrder := ⟨id, fun _ => .refl _⟩

mutual

/-- Walked in the order of insertion a column is copied as it is. By recursion on the column. -/
theorem copyColumn_insertion (field : Column) : copyColumn .insertion field = field := by
  match field with
  | .leaf name type encoding repeated optional => rfl
  | .subrecord name subschema repeated optional =>
    rw [copyColumn, copyColumns_insertion]
    rfl

/-- And so is a level. -/
theorem copyColumns_insertion (fields : List Column) : copyColumns .insertion fields = fields := by
  match fields with
  | [] => rfl
  | f :: fs => rw [copyColumns, copyColumn_insertion, copyColumns_insertion]

end

open Classical in
/-- Walk one map in another order, all others in the order of their insertions. -/
noncomputable def HashOrder.moving {fields moved : List Column} (h : moved.Perm fields) :
    HashOrder where
  iterate columns := if columns = fields then moved else columns
  perm columns := by
    split_ifs with heq
    · exact heq ▸ h
    · exact .refl _

/-- Walk the small maps as given and the others in the order of their insertions. -/
def HashOrder.below (n : Nat) (order : HashOrder) : HashOrder where
  iterate columns := if columnCountOf columns < n then order.iterate columns else columns
  perm columns := by
    split_ifs
    · exact order.perm columns
    · exact .refl _

/-- Where every copy of a schema has the flat columns of the original, the columns of its
first level commute, and so do the copies of each of them. -/
theorem siblingsCommute_of_copy {fields : List Column}
    (h : ∀ order, listFlatColumnsOf [] 0 0 (copy order fields) = listFlatColumnsOf [] 0 0 fields) :
    SiblingsCommute fields ∧ ∀ f ∈ fields, ∀ order,
      listFlatColumns [] 0 0 (copyColumn order f) = listFlatColumns [] 0 0 f := by
  constructor
  · refine pairwise_of_flatMap_perm fun moved hmoved => ?_
    -- only the map of this level is walked in the new order
    have hbelow : copyColumns (.moving hmoved) fields = fields := by
      refine Eq.trans (copyColumns_congr ?_ fields (Nat.le_refl _)) (copyColumns_insertion fields)
      intro columns hlt
      refine if_neg ?_
      rintro rfl
      exact Nat.lt_irrefl _ hlt
    have hmove := h (.moving hmoved)
    rw [copy, hbelow, listFlatColumnsOf_flatMap, listFlatColumnsOf_flatMap,
      show (HashOrder.moving hmoved).iterate fields = moved from if_pos rfl] at hmove
    exact hmove
  · intro f hf order
    have hcopies : ∀ f ∈ fields, copyColumn (.below (columnCountOf fields) order) f =
        copyColumn order f := fun f hf =>
      copyColumn_congr (fun columns hlt => if_pos hlt) f (columnCount_le hf)
    -- the map of this level is walked in the order of its insertions
    have hcopy : copy (.below (columnCountOf fields) order) fields =
        fields.map (copyColumn order) := by
      unfold copy
      rw [copyColumns_eq_map, List.map_congr_left hcopies]
      refine if_neg (Nat.not_lt.mpr (Nat.le_of_eq ?_))
      rw [← copyColumns_eq_map, columnCountOf_copyColumns]
    have heq := h (.below (columnCountOf fields) order)
    rw [hcopy, listFlatColumnsOf_flatMap, listFlatColumnsOf_flatMap, List.flatMap_map] at heq
    have hpieces := forall₂_of_flatMap_eq (List.forall₂_same.mpr fun f _ => by
      rw [listFlatColumns_eq, listFlatColumns_eq, List.length_map, List.length_map]
      exact (columnPaths_copyColumn order f).length_eq) heq
    exact List.forall₂_same.mp hpieces f hf

mutual

/-- If every copy of a column has its flat columns, siblings commute at every level below it. By
recursion on the column. -/
theorem eachLevel_of_copyColumn (field : Column) (h : ∀ order,
    listFlatColumns [] 0 0 (copyColumn order field) = listFlatColumns [] 0 0 field) :
    EachLevel SiblingsCommute field := by
  match field with
  | .leaf name type encoding repeated optional => trivial
  | .subrecord name subschema repeated optional =>
    have hsub := siblingsCommute_of_copy fun order =>
      listFlatColumns_subrecord_inj.mp (h order)
    exact ⟨hsub.1, eachLevelOf_of_copyColumns subschema hsub.2⟩

/-- The same for the columns of a level. -/
theorem eachLevelOf_of_copyColumns (fields : List Column) (h : ∀ f ∈ fields, ∀ order,
    listFlatColumns [] 0 0 (copyColumn order f) = listFlatColumns [] 0 0 f) :
    EachLevelOf SiblingsCommute fields := by
  match fields with
  | [] => trivial
  | f :: fs =>
    exact ⟨eachLevel_of_copyColumn f (h f List.mem_cons_self),
      eachLevelOf_of_copyColumns fs fun g hg => h g (List.mem_cons_of_mem f hg)⟩

end

/-! ### The columns of a table -/

/-- A header record keeps all of a flat column, so that lists of records say as much as lists of
columns. -/
theorem config_injective (mem : Uninit) (i : Nat) :
    Function.Injective (FlatColumn.config mem i) := by
  intro a b hab
  obtain ⟨name, encoding, type, r, d⟩ := a
  obtain ⟨name', encoding', type', r', d'⟩ := b
  obtain ⟨-, rfl, hencoding, htype, rfl, rfl, -, -⟩ := ColumnConfig.mk.inj hab
  obtain rfl := ColumnEncoding.code_injective hencoding
  obtain rfl := Subtype.ext (ColumnType.code_injective htype)
  rfl

/-- The same configs in the same order are the same flat columns. What memory holds makes no
difference, since it goes to the same fields of both. -/
theorem flatColumns_inj {mem : Uninit} {schema schema' : TableSchema} :
    flatColumns mem schema = flatColumns mem schema' ↔
      listFlatColumnsOf [] 0 0 schema = listFlatColumnsOf [] 0 0 schema' := by
  refine ⟨fun h => List.ext_getElem? fun i => ?_, fun h => by rw [flatColumns, h, flatColumns]⟩
  have hi := congrArg (·[i]?) h
  simp only [flatColumns, List.getElem?_mapIdx] at hi
  exact Option.map_injective (config_injective mem i) hi

/-- A copy of the schema has its flat columns in their order, and so do the tables made
with it. -/
def CopyKeepsColumns (schema : TableSchema) : Prop :=
  ∀ (mem : Uninit) (order : HashOrder),
    flatColumns mem (copy order schema) = flatColumns mem schema ∧
    ∀ version t, CSTableWriter.createFile mem order version schema = .ok t →
      t.columns = flatColumns mem schema

/-- The copy of a schema keeps the columns in order, however hash maps are walked, exactly
when siblings commute at every level. -/
theorem copyKeepsColumns_iff (schema : TableSchema) :
    CopyKeepsColumns schema ↔ EveryLevel SiblingsCommute schema := by
  constructor
  · intro h
    let mem : Uninit := zeroUninit
    have hcopy := siblingsCommute_of_copy fun order => flatColumns_inj.mp (h mem order).1
    exact ⟨hcopy.1, eachLevelOf_of_copyColumns schema hcopy.2⟩
  · rintro ⟨hfirst, hbelow⟩ mem order
    have hcopy : flatColumns mem (copy order schema) = flatColumns mem schema :=
      flatColumns_inj.mpr (listFlatColumnsOf_iterate order schema hfirst
        (listFlatColumns_copyColumns order schema hbelow))
    exact ⟨hcopy, fun version t ht => (CSTableWriter.createFile_columns ht).trans hcopy⟩

/-- Walking a hash map backwards. -/
def HashOrder.backwards : HashOrder := ⟨List.reverse, fun columns => columns.reverse_perm⟩

/-- Two columns, in a hash map that is walked backwards, change places. This is the order of
libstdc++ for a map of two short names. -/
theorem not_copyKeepsColumns_two_columns :
    ¬CopyKeepsColumns [.leaf [0x61] ⟨.UNSIGNED_INT, by decide⟩ .UINT64_LEB128 false false,
      .leaf [0x62] ⟨.UNSIGNED_INT, by decide⟩ .UINT64_LEB128 false false] := by
  intro h
  have hcopy := flatColumns_inj.mp
    (h zeroUninit .backwards).1
  exact absurd hcopy (by decide)

end CStable
