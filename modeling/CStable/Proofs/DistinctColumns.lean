import CStable.Proofs.SchemaCopy

/-!
# `CStable.Proofs.DistinctColumns`: leaves and their dotted names

A leaf is found by its dotted name. Names are not restricted, so the name of a column
may look like a dotted name itself, and two leaves may share one.

* `nodup_names_iff`: the dotted names are different exactly when, at every level, no two
  columns have a leaf name in common.

Siblings with different names are not enough: a column `a.b` shares its name with the leaf `b`
of a sub-record `a` next to it.
-/

set_option autoImplicit false

namespace CStable

open TableSchema
open Support Support.Striping

/-! ### Names at one level -/

/-- Different columns have different names. -/
def DistinctNames (fields : List Column) : Prop :=
  fields.Pairwise fun f g => f.name ≠ g.name

/-- No leaf of one column has the dotted name of a leaf of another one. -/
def LeavesApart (fields : List Column) : Prop :=
  fields.Pairwise fun f g => ∀ p ∈ columnPaths f, ∀ q ∈ columnPaths g, p.name [] ≠ q.name []

/-! ### Dotted names -/

/-- The prefix of a dotted name is in front of the name without it. -/
theorem LeafPath.name_eq (p : LeafPath) (pre : Bytes) : p.name pre = pre ++ p.name [] := by
  have h := LeafPath.dotted_append p.leaf pre p.parents []
  rwa [List.append_nil] at h

mutual

/-- Below one column, the dotted names are different when no two columns at one level share
one. -/
theorem nodup_names_columnPaths_iff (pre : Bytes) (field : Column) :
    (namesOf pre (columnPaths field)).Nodup ↔ EachLevel LeavesApart field := by
  match field with
  | .leaf name type encoding repeated optional =>
    exact iff_of_true (List.nodup_singleton _) trivial
  | .subrecord name subschema repeated optional =>
    rw [EachLevel, columnPaths, namesOf_below]
    exact nodup_names_iff _ subschema

/-- The leaves of a schema have different dotted names exactly when, at every level, no two
columns have a leaf name in common. The names of the levels above are the same for both, so
they make no difference. -/
theorem nodup_names_iff (pre : Bytes) (fields : List Column) :
    (namesOf pre (schemaPaths fields)).Nodup ↔ EveryLevel LeavesApart fields := by
  match fields with
  | [] => exact iff_of_true List.nodup_nil ⟨List.Pairwise.nil, trivial⟩
  | f :: fs =>
    have hrest := nodup_names_iff pre fs
    -- names below the same prefix differ where their paths do
    have hdisjoint :
        (∀ a ∈ namesOf pre (columnPaths f), ∀ b ∈ namesOf pre (schemaPaths fs), a ≠ b) ↔
        ∀ g ∈ fs, ∀ p ∈ columnPaths f, ∀ q ∈ columnPaths g, p.name [] ≠ q.name [] := by
      rw [schemaPaths_eq_flatMap]
      constructor
      · intro h g hg p hp q hq heq
        refine h _ (List.mem_map_of_mem hp) _
          (List.mem_map_of_mem (List.mem_flatMap.mpr ⟨g, hg, hq⟩)) ?_
        rw [p.name_eq, q.name_eq, heq]
      · intro h a ha b hb heq
        obtain ⟨p, hp, rfl⟩ := List.mem_map.mp ha
        obtain ⟨q, hq, rfl⟩ := List.mem_map.mp hb
        obtain ⟨g, hg, hq⟩ := List.mem_flatMap.mp hq
        rw [p.name_eq, q.name_eq] at heq
        exact h g hg p hp q hq (List.append_cancel_left heq)
    rw [schemaPaths, namesOf_append, List.nodup_append, nodup_names_columnPaths_iff pre f, hrest,
      hdisjoint, EveryLevel, EveryLevel, LeavesApart, LeavesApart, EachLevelOf, List.pairwise_cons]
    constructor
    · rintro ⟨hf, ⟨hfs, hlevels⟩, happart⟩
      exact ⟨⟨happart, hfs⟩, hf, hlevels⟩
    · rintro ⟨⟨happart, hfs⟩, hf, hlevels⟩
      exact ⟨hf, ⟨hfs, hlevels⟩, happart⟩

end

/-! ### Column writers -/

namespace CSTableWriter

/-- The writer of a slot is one the constructor opens for the column. -/
def OpenedFor (version : BinaryFormatVersion) (c : ColumnConfig) (slot : ColumnSlot) : Prop :=
  match version with
  | .v0_1_0 => ∃ w, openColumnV1 c = .ok w ∧ slot = ⟨.v1 w, []⟩
  | .v0_2_0 => ∃ w pages pages', openColumnV2 c pages = .ok (w, pages') ∧ slot = ⟨.v2 w, []⟩

/-- Each column is opened with a writer of its own. By induction on the columns. -/
theorem openColumns_spec {version : BinaryFormatVersion} {columns : List ColumnConfig}
    {pages pages' : PageStore} {slots : List ColumnSlot}
    (h : openColumns version pages columns = .ok (slots, pages')) :
    List.Forall₂ (OpenedFor version) columns slots := by
  induction columns generalizing pages slots with
  | nil =>
    cases version <;> cases h <;> exact .nil
  | cons c cs ih =>
    cases version with
    | v0_1_0 =>
      obtain ⟨w, hw, h₁⟩ := Result.bind_eq_ok.mp h
      obtain ⟨⟨slots', pages₂⟩, hrest, hret⟩ := Result.bind_eq_ok.mp
        ((Result.ok_bind _ _).symm.trans h₁)
      cases hret
      exact .cons ⟨w, hw, rfl⟩ (ih hrest)
    | v0_2_0 =>
      obtain ⟨⟨w, pages₁⟩, hw, h₁⟩ := Result.bind_eq_ok.mp h
      obtain ⟨⟨slots', pages₂⟩, hrest, hret⟩ := Result.bind_eq_ok.mp
        ((Result.ok_bind _ _).symm.trans h₁)
      cases hret
      exact .cons ⟨w, _, _, hw, rfl⟩ (ih hrest)

end CSTableWriter

end CStable
