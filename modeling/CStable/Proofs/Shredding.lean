import CStable.Proofs.ShredSteps

/-!
# `CStable.Proofs.Shredding`: the columns of a shredded record

The leaves of a table schema are its columns (`listFlatColumnsOf_eq`), each with the
fields on the way to it. Two recursions go down these ways: `listFlatColumns` counts
up the level maxima, `addProtoRecordField` takes the message apart. This module
follows both along the way to one column.

What a message holds on the way to a column is a nest of occurrences (`HasContent`),
and an accepted record writes to the column the stripe of that nest, an entry for
each call (`fieldSteps_calls`). The facts about levels are then those of
`Support.Striping`.
-/

set_option autoImplicit false

namespace CStable

open TableSchema (dot FlatColumn listFlatColumns listFlatColumnsOf)
open Support.Striping

/-! ### The ways to the leaves -/

/-- A field on the way to a leaf. -/
structure PathField where
  name : Bytes
  repeated : Bool
  optional : Bool
  deriving DecidableEq, Repr

/-- The field as one that adds to the levels. -/
def PathField.hop (f : PathField) : Hop := ⟨f.repeated, f.optional⟩

/-- A leaf of a schema: the sub-records above it, from the outermost on, and the
column itself. -/
structure LeafPath where
  parents : List PathField
  leaf : PathField
  type : LeafType
  encoding : ColumnEncoding

namespace LeafPath

/-- The dotted name of a leaf below a prefix. -/
def dotted (leaf : PathField) : Bytes → List PathField → Bytes
  | pre, [] => pre ++ leaf.name
  | pre, f :: fs => dotted leaf (pre ++ f.name ++ [dot]) fs

/-- The fields of a leaf as hops. -/
def hopsOf (leaf : PathField) : List PathField → List Hop
  | [] => [leaf.hop]
  | f :: fs => f.hop :: hopsOf leaf fs

/-- The dotted name of a leaf below a prefix. -/
def name (p : LeafPath) (pre : Bytes) : Bytes := dotted p.leaf pre p.parents

/-- The fields of a leaf as hops. -/
def hops (p : LeafPath) : List Hop := hopsOf p.leaf p.parents

/-- The leaf, one sub-record further down. -/
def below (f : PathField) (p : LeafPath) : LeafPath := { p with parents := f :: p.parents }

end LeafPath

mutual

/-- The leaves of a column. -/
def columnPaths : Column → List LeafPath
  | .leaf name type encoding repeated optional =>
    [⟨[], ⟨name, repeated, optional⟩, type, encoding⟩]
  | .subrecord name subschema repeated optional =>
    (schemaPaths subschema).map (LeafPath.below ⟨name, repeated, optional⟩)

/-- The leaves of a schema. -/
def schemaPaths : List Column → List LeafPath
  | [] => []
  | f :: fs => columnPaths f ++ schemaPaths fs

end

/-- The dotted names of leaves. -/
def namesOf (pre : Bytes) (paths : List LeafPath) : List Bytes := paths.map fun p => p.name pre

/-- The names of two lists of leaves are those of the first and then those of the second. -/
theorem namesOf_append (pre : Bytes) (xs ys : List LeafPath) :
    namesOf pre (xs ++ ys) = namesOf pre xs ++ namesOf pre ys := List.map_append

/-- The dotted name of a leaf has a separator for each sub-record above it, so that its length
bounds the depth. -/
theorem LeafPath.length_hopsOf_le (leaf : PathField) (parents : List PathField) :
    ∀ pre : Bytes, (LeafPath.hopsOf leaf parents).length + pre.length ≤
      (LeafPath.dotted leaf pre parents).length + 1 := by
  induction parents with
  | nil =>
    intro pre
    rw [LeafPath.hopsOf, LeafPath.dotted, List.length_append, List.length_singleton]
    omega
  | cons f fs ih =>
    intro pre
    have hrest := ih (pre ++ f.name ++ [dot])
    rw [List.length_append, List.length_append, List.length_singleton] at hrest
    rw [LeafPath.hopsOf, LeafPath.dotted, List.length_cons]
    omega

/-- The level maxima of a leaf are bounded by the length of its name. A header that holds the
name in 32 bits holds the maxima as well. -/
theorem LeafPath.levels_le (p : LeafPath) :
    reps p.hops ≤ (p.name []).length + 1 ∧ opts p.hops ≤ (p.name []).length + 1 :=
  ⟨Nat.le_trans (reps_le_length _) (LeafPath.length_hopsOf_le p.leaf p.parents []),
    Nat.le_trans (opts_le_length _) (LeafPath.length_hopsOf_le p.leaf p.parents [])⟩

/-- Leaves below a field have its name and a dot in front of theirs. The walk carries this as
its prefix. -/
theorem namesOf_below (pre : Bytes) (f : PathField) (paths : List LeafPath) :
    namesOf pre (paths.map (LeafPath.below f)) = namesOf (pre ++ f.name ++ [dot]) paths := by
  unfold namesOf
  rw [List.map_map]
  rfl

/-- The column `listFlatColumns` makes of a leaf. -/
def LeafPath.flat (p : LeafPath) (pre : Bytes) (r_max d_max : Nat) : FlatColumn where
  column_name := p.name pre
  storage_type := p.encoding
  logical_type := p.type
  rlevel_max := r_max + reps p.hops
  dlevel_max := d_max + opts p.hops

mutual

/-- The flat columns of a column are its leaves, with the levels that the fields on the way add
up to. -/
theorem listFlatColumns_eq (pre : Bytes) (r_max d_max : Nat) (field : Column) :
    listFlatColumns pre r_max d_max field =
      (columnPaths field).map fun p => p.flat pre r_max d_max := by
  match field with
  | .leaf name type encoding repeated optional =>
    cases repeated <;> cases optional <;> rfl
  | .subrecord name subschema repeated optional =>
    rw [listFlatColumns, columnPaths, listFlatColumnsOf_eq, List.map_map]
    apply List.map_congr_left
    intro p _
    cases repeated <;> cases optional <;>
      simp [LeafPath.flat, LeafPath.below, LeafPath.name, LeafPath.dotted, LeafPath.hops,
        LeafPath.hopsOf, PathField.hop, reps, opts, Hop.rep, Hop.opt, Nat.add_assoc]

/-- The flat columns of a schema are its leaves, in the order of the schema. The levels are
those at which the leaves are. -/
theorem listFlatColumnsOf_eq (pre : Bytes) (r_max d_max : Nat) (fields : List Column) :
    listFlatColumnsOf pre r_max d_max fields =
      (schemaPaths fields).map fun p => p.flat pre r_max d_max := by
  match fields with
  | [] => rfl
  | f :: fs =>
    rw [listFlatColumnsOf, schemaPaths, List.map_append, listFlatColumns_eq, listFlatColumnsOf_eq]

end

namespace RecordShredder

/-! ### What a message holds on the way to a leaf -/

/-- The content of a message below its schema, on the way to a leaf: at every field
its occurrences, at the leaf the values. Where a sub-record occurs, its schema is
the one the message schema has for the field. -/
def HasContent (type : LeafType) (leaf : PathField) :
    (parents : List PathField) → MessageObject → Option MessageSchema →
      Nest WriteArg (LeafPath.hopsOf leaf parents) → Prop
  | [], msg, schema?, cs => ∃ schema id os, schema? = some schema ∧
    occurrencesOf schema leaf.name msg = .ok (id, os) ∧
    List.Forall₂ (fun o v => protoArg type o = .ok v) os cs.list
  | f :: fs, msg, schema?, cs => ∃ schema id os, schema? = some schema ∧
    occurrencesOf schema f.name msg = .ok (id, os) ∧
    List.Forall₂ (fun o c => ∃ o_schema, schema.fieldSchema id = .ok o_schema ∧
      HasContent type leaf fs o o_schema c) os cs.list

/-- An entry of a stripe as a call. -/
def toCall (e : Entry WriteArg) : WriteCall := ⟨e.r, e.d, e.value.getD .null⟩

/-! ### The calls on one column -/

/-- The call a step makes on the column of a name. -/
def Step.callFor (name : Bytes) : Step → Option WriteCall
  | .write column r d (.ok arg) => if column = name then some ⟨r, d, arg⟩ else none
  | _ => none

/-- The calls steps make on the column of a name. -/
def callsFor (name : Bytes) (steps : List Step) : List WriteCall :=
  steps.filterMap (Step.callFor name)

/-- A write whose value could be taken from the message. -/
def Step.IsWrite (s : Step) : Prop := ∃ column r d arg, s = .write column r d (.ok arg)

/-- The steps are writes to columns of the names. -/
def WritesTo (names : List Bytes) (steps : List Step) : Prop :=
  ∀ column r d arg, .write column r d arg ∈ steps → column ∈ names

/-- Steps one after the other write where each of them does. -/
theorem WritesTo.append {names : List Bytes} {xs ys : List Step} (hx : WritesTo names xs)
    (hy : WritesTo names ys) : WritesTo names (xs ++ ys) := by
  intro column r d arg h
  rcases List.mem_append.mp h with h | h
  · exact hx column r d arg h
  · exact hy column r d arg h

/-- Steps that write to some columns write to more of them. The steps of a field are steps of
its schema. -/
theorem WritesTo.mono {names names' : List Bytes} {steps : List Step} (h : WritesTo names steps)
    (hsub : names ⊆ names') : WritesTo names' steps := fun column r d arg hmem =>
  hsub (h column r d arg hmem)

/-- A step that fails writes nowhere. -/
theorem WritesTo.fail (names : List Bytes) (e : Abort) : WritesTo names [.fail e] := by
  intro column r d arg h
  simp at h

/-- The calls on one column, of two lists of steps, come in their order. The order between
columns is not seen by any of them. -/
theorem callsFor_append (name : Bytes) (xs ys : List Step) :
    callsFor name (xs ++ ys) = callsFor name xs ++ callsFor name ys := List.filterMap_append

/-- The calls on one column, of the steps for each item of a list. -/
theorem callsFor_flatMap {α : Type} (name : Bytes) (xs : List α) (f : α → List Step) :
    callsFor name (xs.flatMap f) = xs.flatMap fun x => callsFor name (f x) := by
  unfold callsFor
  rw [List.filterMap_flatMap]

/-- Steps that write to other columns make no calls on this one. So the calls on a leaf are
those of its field. -/
theorem WritesTo.callsFor_eq_nil {names : List Bytes} {steps : List Step} {name : Bytes}
    (h : WritesTo names steps) (hname : name ∉ names) : callsFor name steps = [] := by
  refine List.filterMap_eq_nil_iff.mpr fun s hs => ?_
  cases s with
  | fail e => rfl
  | write column r d arg =>
    cases arg with
    | error e => rfl
    | ok arg =>
      have hne : column ≠ name := fun heq => hname (heq ▸ h column r d _ hs)
      exact if_neg hne

/-! ### The steps write to the leaves -/

mutual

/-- The nulls for an absent field go to its leaves. By recursion on the field. -/
theorem nullSteps_writesTo (r d : Nat) (pre : Bytes) (field : Column) :
    WritesTo (namesOf pre (columnPaths field)) (nullSteps r d (pre ++ field.name) field) := by
  match field with
  | .leaf name type encoding repeated optional =>
    intro column r' d' arg h
    rw [nullSteps, List.mem_singleton] at h
    cases h
    exact List.mem_cons_self
  | .subrecord name subschema repeated optional =>
    rw [columnPaths, namesOf_below, nullSteps]
    exact nullStepsOf_writesTo r d _ subschema

/-- The nulls for an absent object go to the leaves below it. -/
theorem nullStepsOf_writesTo (r d : Nat) (pre : Bytes) (fields : List Column) :
    WritesTo (namesOf pre (schemaPaths fields)) (nullStepsOf r d pre fields) := by
  match fields with
  | [] =>
    intro column r' d' arg h
    cases h
  | f :: fs =>
    rw [schemaPaths, namesOf_append, nullStepsOf]
    exact ((nullSteps_writesTo r d pre f).mono (List.subset_append_left _ _)).append
      ((nullStepsOf_writesTo r d pre fs).mono (List.subset_append_right _ _))

end

/-- The steps of all occurrences write where those of one do. By induction on the occurrences,
with the level going up after the first. -/
theorem occurrenceSteps_writesTo {names : List Bytes} {act : Nat → MessageObject → List Step}
    (h : ∀ r o, WritesTo names (act r o)) (r rmax : Nat) (os : List MessageObject) :
    WritesTo names (occurrenceSteps act r rmax os) := by
  cases os with
  | nil =>
    intro column r' d' arg hmem
    cases hmem
  | cons o os =>
    refine (h r o).append fun column r' d' arg hmem => ?_
    obtain ⟨o', -, hmem⟩ := List.mem_flatMap.mp hmem
    exact h rmax o' column r' d' arg hmem

/-- The steps of a field write where those of an occurrence do, and where it is absent to its
leaves. -/
theorem forFieldSteps_writesTo {r rmax d : Nat} {msg : MessageObject} {schema : MessageSchema}
    {pre : Bytes} {field : Column} {act : UInt32 → Nat → MessageObject → List Step}
    (h : ∀ id r o, WritesTo (namesOf pre (columnPaths field)) (act id r o)) :
    WritesTo (namesOf pre (columnPaths field))
      (forFieldSteps r rmax d msg schema pre field act) := by
  unfold forFieldSteps
  split
  · exact WritesTo.fail _ _
  · split_ifs
    · exact nullSteps_writesTo r d pre field
    · exact WritesTo.fail _ _
  · exact occurrenceSteps_writesTo (h _) _ _ _

mutual

/-- The steps of a field write to its leaves and nowhere else. By recursion on the column. -/
theorem fieldSteps_writesTo (r rmax d : Nat) (msg : MessageObject) (schema : MessageSchema)
    (pre : Bytes) (field : Column) :
    WritesTo (namesOf pre (columnPaths field)) (fieldSteps r rmax d msg schema pre field) := by
  match field with
  | .leaf name type encoding repeated optional =>
    rw [fieldSteps]
    refine forFieldSteps_writesTo fun id r' o column r'' d' arg h => ?_
    rw [List.mem_singleton] at h
    cases h
    exact List.mem_cons_self
  | .subrecord name subschema repeated optional =>
    rw [fieldSteps]
    refine forFieldSteps_writesTo fun id r' o => ?_
    cases schema.fieldSchema id with
    | error e => exact WritesTo.fail _ e
    | ok o_schema =>
      rw [columnPaths, namesOf_below]
      exact fieldStepsOf_writesTo _ _ _ _ _ _ _

/-- The steps of a record write to the leaves of its schema. By recursion on the fields. -/
theorem fieldStepsOf_writesTo (r rmax d : Nat) (msg : MessageObject)
    (schema? : Option MessageSchema) (pre : Bytes) (fields : List Column) :
    WritesTo (namesOf pre (schemaPaths fields)) (fieldStepsOf r rmax d msg schema? pre fields) := by
  match fields with
  | [] =>
    intro column r' d' arg h
    cases h
  | f :: fs =>
    rw [schemaPaths, namesOf_append]
    cases schema? with
    | none => exact WritesTo.fail _ _
    | some schema =>
      rw [fieldStepsOf]
      exact ((fieldSteps_writesTo r rmax d msg schema pre f).mono
        (List.subset_append_left _ _)).append
        ((fieldStepsOf_writesTo r rmax d msg (some schema) pre fs).mono
          (List.subset_append_right _ _))

end

/-! ### The calls of a record on one leaf -/

/-- Leaves of two different fields have different names, when the names of all leaves are. This
is all that distinct names are needed for here. -/
theorem not_mem_of_nodup_append {xs ys : List Bytes} (h : (xs ++ ys).Nodup) {x : Bytes}
    (hx : x ∈ xs) : x ∉ ys := fun hy => (List.nodup_append.mp h).2.2 x hx x hy rfl

/-- The name of a leaf is one of the names. -/
theorem mem_namesOf {pre : Bytes} {paths : List LeafPath} {p : LeafPath} (h : p ∈ paths) :
    p.name pre ∈ namesOf pre paths := List.mem_map_of_mem h

mutual

/-- Below a missing field every leaf gets one null, with the levels of the place where the field
is missing. -/
theorem nullSteps_calls (r d : Nat) (pre : Bytes) (field : Column)
    (hnames : (namesOf pre (columnPaths field)).Nodup) :
    ∀ p ∈ columnPaths field,
      callsFor (p.name pre) (nullSteps r d (pre ++ field.name) field) = [⟨r, d, .null⟩] := by
  match field with
  | .leaf name type encoding repeated optional =>
    intro p hp
    rw [columnPaths, List.mem_singleton] at hp
    subst hp
    rw [nullSteps]
    exact List.filterMap_cons_some (if_pos rfl)
  | .subrecord name subschema repeated optional =>
    rw [columnPaths, namesOf_below] at hnames
    intro p hp
    obtain ⟨p', hp', rfl⟩ := List.mem_map.mp hp
    rw [nullSteps]
    exact nullStepsOf_calls r d _ subschema hnames p' hp'

/-- The same for the leaves of a missing object. The names are different, so the nulls of the
others do not count. -/
theorem nullStepsOf_calls (r d : Nat) (pre : Bytes) (fields : List Column)
    (hnames : (namesOf pre (schemaPaths fields)).Nodup) :
    ∀ p ∈ schemaPaths fields,
      callsFor (p.name pre) (nullStepsOf r d pre fields) = [⟨r, d, .null⟩] := by
  match fields with
  | [] =>
    intro p hp
    cases hp
  | f :: fs =>
    rw [schemaPaths, namesOf_append] at hnames
    intro p hp
    rw [nullStepsOf, callsFor_append]
    rcases List.mem_append.mp hp with hp | hp
    · rw [nullSteps_calls r d pre f (List.nodup_append.mp hnames).1 p hp,
        (nullStepsOf_writesTo r d pre fs).callsFor_eq_nil
          (not_mem_of_nodup_append hnames (mem_namesOf hp)), List.append_nil]
    · have hnot : p.name pre ∉ namesOf pre (columnPaths f) := fun hmem =>
        not_mem_of_nodup_append hnames hmem (mem_namesOf hp)
      rw [(nullSteps_writesTo r d pre f).callsFor_eq_nil hnot, List.nil_append]
      exact nullStepsOf_calls r d pre fs (List.nodup_append.mp hnames).2.1 p hp

end

/-- The calls of all occurrences, when those of one are known. The first one has the repetition
level of the field, the others that of a repetition. -/
theorem occurrenceSteps_calls {β : Type} {P : MessageObject → β → Prop}
    {f : Nat → β → List WriteCall} {act : Nat → MessageObject → List Step} {name : Bytes}
    (h : ∀ r o, (∀ s ∈ act r o, s.IsWrite) → ∃ c, P o c ∧ callsFor name (act r o) = f r c)
    {r rmax : Nat} {o : MessageObject} {os : List MessageObject}
    (hwrites : ∀ s ∈ occurrenceSteps act r rmax (o :: os), s.IsWrite) :
    ∃ c cs, P o c ∧ List.Forall₂ P os cs ∧
      callsFor name (occurrenceSteps act r rmax (o :: os)) = f r c ++ cs.flatMap (f rmax) := by
  have hfirst : ∀ s ∈ act r o, s.IsWrite := fun s hs => hwrites s (List.mem_append_left _ hs)
  have hothers : ∀ o' ∈ os, ∀ s ∈ act rmax o', s.IsWrite := fun o' ho' s hs =>
    hwrites s (List.mem_append_right _ (List.mem_flatMap.mpr ⟨o', ho', hs⟩))
  obtain ⟨c, hc, hcalls⟩ := h r o hfirst
  -- the occurrences after the first all write at the repetition level of the field
  have hrest : ∃ cs, List.Forall₂ P os cs ∧
      (os.flatMap fun o' => callsFor name (act rmax o')) = cs.flatMap (f rmax) := by
    clear hwrites hfirst hc hcalls
    induction os with
    | nil => exact ⟨[], .nil, rfl⟩
    | cons o' os ih =>
      obtain ⟨c', hc', hcalls'⟩ := h rmax o' (hothers o' List.mem_cons_self)
      obtain ⟨cs, hcs, hflat⟩ := ih fun o'' ho'' => hothers o'' (List.mem_cons_of_mem o' ho'')
      refine ⟨c' :: cs, .cons hc' hcs, ?_⟩
      rw [List.flatMap_cons, List.flatMap_cons, hcalls', hflat]
  obtain ⟨cs, hcs, hflat⟩ := hrest
  refine ⟨c, cs, hc, hcs, ?_⟩
  rw [occurrenceSteps, callsFor_append, callsFor_flatMap, hcalls, hflat]

/-- A list of writes has no step that fails; records that are accepted are such lists. -/
theorem not_isWrite_fail {e : Abort} (h : ∀ s ∈ [Step.fail e], s.IsWrite) : False := by
  obtain ⟨column, r, d, arg, heq⟩ := h _ List.mem_cons_self
  cases heq

/-- One field, when the calls of an occurrence on a leaf are known: the leaf gets a
null where the field is missing, the calls of the occurrences otherwise. -/
theorem forFieldSteps_calls {r rmax d : Nat} {msg : MessageObject} {schema : MessageSchema}
    {pre : Bytes} {field : Column} {act : UInt32 → Nat → MessageObject → List Step} {β : Type}
    {P : UInt32 → MessageObject → β → Prop} {f : Nat → β → List WriteCall}
    (hnames : (namesOf pre (columnPaths field)).Nodup) {p : LeafPath} (hp : p ∈ columnPaths field)
    (hact : ∀ id r o, (∀ s ∈ act id r o, s.IsWrite) →
      ∃ c, P id o c ∧ callsFor (p.name pre) (act id r o) = f r c)
    (hwrites : ∀ s ∈ forFieldSteps r rmax d msg schema pre field act, s.IsWrite) :
    ∃ id os cs, occurrencesOf schema field.name msg = .ok (id, os) ∧ List.Forall₂ (P id) os cs ∧
      (cs = [] → field.hop.opt ≠ 0 ∧
        callsFor (p.name pre) (forFieldSteps r rmax d msg schema pre field act) =
          [⟨r, d, .null⟩]) ∧
      ∀ c cs', cs = c :: cs' →
        callsFor (p.name pre) (forFieldSteps r rmax d msg schema pre field act) =
          f r c ++ cs'.flatMap (f (rmax + field.hop.rep)) := by
  unfold forFieldSteps at hwrites ⊢
  cases hocc : occurrencesOf schema field.name msg with
  | error e =>
    rw [hocc] at hwrites
    exact absurd hwrites not_isWrite_fail
  | ok found =>
    obtain ⟨id, os⟩ := found
    rw [hocc] at hwrites
    cases os with
    | nil =>
      dsimp only at hwrites ⊢
      -- a field without occurrences is a null if it may be absent, and an error otherwise
      by_cases hopt : (field.optional || field.repeated) = true
      · rw [if_pos hopt] at hwrites ⊢
        refine ⟨id, [], [], rfl, .nil, fun _ => ⟨?_, nullSteps_calls r d pre field hnames p hp⟩,
          fun c cs' h => by cases h⟩
        show (if field.optional || field.repeated then 1 else 0) ≠ 0
        rw [if_pos hopt]
        exact Nat.one_ne_zero
      · rw [if_neg hopt] at hwrites
        exact absurd hwrites not_isWrite_fail
    | cons o os =>
      obtain ⟨c, cs, hc, hcs, hcalls⟩ := occurrenceSteps_calls (hact id) hwrites
      refine ⟨id, o :: os, c :: cs, rfl, .cons hc hcs, ⟨fun h => absurd h (List.cons_ne_nil c cs),
        fun c' cs' heq => ?_⟩⟩
      obtain ⟨rfl, rfl⟩ := List.cons.inj heq
      exact hcalls

/-- The calls on a leaf are the stripe of what the message holds there. -/
def StripeOf (p : LeafPath) (pre : Bytes) (r rmax d : Nat) (msg : MessageObject)
    (schema? : Option MessageSchema) (steps : List Step) : Prop :=
  ∃ c : Nest WriteArg p.hops, HasContent p.type p.leaf p.parents msg schema? c ∧ Present p.hops c ∧
    callsFor (p.name pre) steps = (stripe p.hops r rmax d c).map toCall

/-- The entries of several nests, as calls. Making a call of an entry keeps its levels. -/
theorem map_flatMap_toCall {hs : List Hop} (cs : List (Nest WriteArg hs)) (r rmax d : Nat) :
    (cs.flatMap (stripe hs r rmax d)).map toCall =
      cs.flatMap fun c => (stripe hs r rmax d c).map toCall := List.map_flatMap

/-- One field on the way to a leaf, when the calls below its occurrences are
stripes. -/
theorem stripe_of_occurrences {hop : Hop} (hs : List Hop) {r rmax d : Nat}
    {calls : List WriteCall} {cs : List (Nest WriteArg hs)}
    (hpresent : ∀ c ∈ cs, Present hs c)
    (hnil : cs = [] → hop.opt ≠ 0 ∧ calls = [⟨r, d, .null⟩])
    (hcons : ∀ c cs', cs = c :: cs' → calls =
      (stripe hs r (rmax + hop.rep) (d + hop.opt) c).map toCall ++
        cs'.flatMap fun c => (stripe hs (rmax + hop.rep) (rmax + hop.rep) (d + hop.opt) c).map
          toCall) :
    Present (hop :: hs) cs ∧ calls = (stripe (hop :: hs) r rmax d cs).map toCall := by
  cases cs with
  | nil =>
    obtain ⟨hopt, hcalls⟩ := hnil rfl
    exact ⟨⟨fun hzero => absurd hzero hopt, hpresent⟩, hcalls⟩
  | cons c cs =>
    refine ⟨⟨fun _ => List.cons_ne_nil c cs, hpresent⟩, ?_⟩
    rw [hcons c cs rfl, stripe, List.map_append, map_flatMap_toCall]

mutual

/-- An accepted field writes to each of its leaves the stripe of what the message
holds there. -/
theorem fieldSteps_calls (r rmax d : Nat) (msg : MessageObject) (schema : MessageSchema)
    (pre : Bytes) (field : Column) (hnames : (namesOf pre (columnPaths field)).Nodup)
    (hwrites : ∀ s ∈ fieldSteps r rmax d msg schema pre field, s.IsWrite) :
    ∀ p ∈ columnPaths field,
      StripeOf p pre r rmax d msg (some schema) (fieldSteps r rmax d msg schema pre field) := by
  match field with
  | .leaf name type encoding repeated optional =>
    intro p hp
    have hp' := hp
    rw [columnPaths, List.mem_singleton] at hp'
    rw [fieldSteps] at hwrites ⊢
    have hact : ∀ (id : UInt32) (r' : Nat) (o : MessageObject),
        (∀ s ∈ [Step.write (pre ++ name) r' (d + (Hop.mk repeated optional).opt)
          (protoArg type o)], s.IsWrite) →
        ∃ v, protoArg type o = .ok v ∧ callsFor (p.name pre)
          [Step.write (pre ++ name) r' (d + (Hop.mk repeated optional).opt) (protoArg type o)] =
            [⟨r', d + (Hop.mk repeated optional).opt, v⟩] := by
      intro id r' o hwrite
      obtain ⟨column, r'', d', arg, heq⟩ := hwrite _ List.mem_cons_self
      have harg : protoArg type o = .ok arg := (Step.write.inj heq).2.2.2
      rw [harg]
      refine ⟨arg, rfl, List.filterMap_cons_some (if_pos ?_)⟩
      rw [hp']
      rfl
    obtain ⟨id, os, cs, hocc, hcs, hnil, hcons⟩ := forFieldSteps_calls hnames hp hact hwrites
    obtain ⟨hpresent, hcalls⟩ := stripe_of_occurrences [] (fun _ _ => trivial) hnil hcons
    subst hp'
    exact ⟨cs, ⟨schema, id, os, rfl, hocc, hcs⟩, hpresent, hcalls⟩
  | .subrecord name subschema repeated optional =>
    intro p hp
    have hnames' := hnames
    rw [columnPaths, namesOf_below] at hnames'
    obtain ⟨q, hq, hqp⟩ := List.mem_map.mp hp
    rw [fieldSteps] at hwrites ⊢
    -- the calls below an occurrence, on this leaf
    have hact : ∀ (id : UInt32) (r' : Nat) (o : MessageObject),
        (∀ s ∈ stepsWith (schema.fieldSchema id) fun o_schema =>
          fieldStepsOf r' (rmax + (Hop.mk repeated optional).rep)
            (d + (Hop.mk repeated optional).opt) o o_schema (pre ++ name ++ [dot]) subschema,
          s.IsWrite) →
        ∃ c : Nest WriteArg q.hops, ((∃ o_schema, schema.fieldSchema id = .ok o_schema ∧
            HasContent q.type q.leaf q.parents o o_schema c) ∧ Present q.hops c) ∧
          callsFor (p.name pre) (stepsWith (schema.fieldSchema id) fun o_schema =>
            fieldStepsOf r' (rmax + (Hop.mk repeated optional).rep)
              (d + (Hop.mk repeated optional).opt) o o_schema (pre ++ name ++ [dot]) subschema) =
            (stripe q.hops r' (rmax + (Hop.mk repeated optional).rep)
              (d + (Hop.mk repeated optional).opt) c).map toCall := by
      intro id r' o hwrite
      cases hschema : schema.fieldSchema id with
      | error e =>
        rw [hschema] at hwrite
        exact absurd hwrite not_isWrite_fail
      | ok o_schema =>
        rw [hschema] at hwrite
        obtain ⟨c, hc, hpresent, hcalls⟩ := fieldStepsOf_calls r' _ _ o o_schema _ subschema
          hnames' hwrite q hq
        subst hqp
        exact ⟨c, ⟨⟨o_schema, rfl, hc⟩, hpresent⟩, hcalls⟩
    obtain ⟨id, os, cs, hocc, hcs, hnil, hcons⟩ := forFieldSteps_calls hnames hp hact hwrites
    have hpresent : ∀ c ∈ cs, Present q.hops c :=
      ((List.forall₂_and_left cs os).mp (hcs.flip.imp fun _ _ h => ⟨h.2, h.1⟩)).1
    obtain ⟨hpresent, hcalls⟩ := stripe_of_occurrences q.hops hpresent hnil hcons
    subst hqp
    exact ⟨cs, ⟨schema, id, os, rfl, hocc, hcs.imp fun _ _ h => h.1⟩, hpresent, hcalls⟩

/-- An accepted record writes to each leaf the stripe of what the message holds there. By
recursion on the columns, the first of which has its own leaves. -/
theorem fieldStepsOf_calls (r rmax d : Nat) (msg : MessageObject)
    (schema? : Option MessageSchema) (pre : Bytes) (fields : List Column)
    (hnames : (namesOf pre (schemaPaths fields)).Nodup)
    (hwrites : ∀ s ∈ fieldStepsOf r rmax d msg schema? pre fields, s.IsWrite) :
    ∀ p ∈ schemaPaths fields,
      StripeOf p pre r rmax d msg schema? (fieldStepsOf r rmax d msg schema? pre fields) := by
  match fields with
  | [] =>
    intro p hp
    cases hp
  | f :: fs =>
    cases schema? with
    -- without a message schema the first column already raises
    | none => exact absurd hwrites not_isWrite_fail
    | some schema =>
      rw [schemaPaths, namesOf_append] at hnames
      rw [fieldStepsOf] at hwrites ⊢
      intro p hp
      rcases List.mem_append.mp hp with hp | hp
      · -- a leaf of the first field: the others do not write to it
        obtain ⟨c, hc, hpresent, hcalls⟩ := fieldSteps_calls r rmax d msg schema pre f
          (List.nodup_append.mp hnames).1 (fun s hs => hwrites s (List.mem_append_left _ hs)) p hp
        refine ⟨c, hc, hpresent, ?_⟩
        rw [callsFor_append, hcalls, (fieldStepsOf_writesTo _ _ _ _ _ _ _).callsFor_eq_nil
          (not_mem_of_nodup_append hnames (mem_namesOf hp)), List.append_nil]
      · obtain ⟨c, hc, hpresent, hcalls⟩ := fieldStepsOf_calls r rmax d msg (some schema) pre fs
          (List.nodup_append.mp hnames).2.1 (fun s hs => hwrites s (List.mem_append_right _ hs))
          p hp
        have hnot : p.name pre ∉ namesOf pre (columnPaths f) := fun hmem =>
          not_mem_of_nodup_append hnames hmem (mem_namesOf hp)
        refine ⟨c, hc, hpresent, ?_⟩
        rw [callsFor_append, (fieldSteps_writesTo _ _ _ _ _ _ _).callsFor_eq_nil hnot,
          List.nil_append, hcalls]

end

end RecordShredder

end CStable
