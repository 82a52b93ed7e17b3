import CStable.Proofs.Conformance
import CStable.Proofs.SkipRecord

/-!
# `CStable.Proofs.Assemble`: one column after the other into one record

`loadColumn` inserts the entries of its column into a record that other columns may have
filled already. What such a record has to do with the one that was written is said by
`Kept`: it has the leaves of the columns that were loaded, and above them every object
that was there.

* `assembleEntries_eq`: an entry is inserted at the address its repetition level counts
  up to.
* `visit_spec`: what an insertion below a child does to the children of an object.
* `insertCells_spec`: loading a column adds its leaf to those that are kept, by induction
  over the objects above the leaf.
-/

set_option autoImplicit false

namespace CStable

open TableSchema (columnOfFieldType)
open Support.Striping

namespace RecordMaterializer

/-! ### Insertions one after the other -/

/-- Insertions into a record, one after the other. -/
def runAll (steps : List (MessageObject → Result MessageObject)) (record : MessageObject) :
    Result MessageObject :=
  steps.foldlM (fun record step => step record) record

/-- The first insertion is made first. An exception in it ends the run, as it ends the loop over
the entries. -/
theorem runAll_cons (step : MessageObject → Result MessageObject)
    (steps : List (MessageObject → Result MessageObject)) (record : MessageObject) :
    runAll (step :: steps) record = (step record >>= runAll steps) := rfl

/-- One insertion is itself. -/
theorem runAll_singleton (step : MessageObject → Result MessageObject) : runAll [step] = step :=
  funext fun record => bind_pure (step record)

/-- Insertions of two lists, one list after the other. The entries of a record are split at its
occurrences by this. -/
theorem runAll_append (xs ys : List (MessageObject → Result MessageObject))
    (record : MessageObject) :
    runAll (xs ++ ys) record = (runAll xs record >>= runAll ys) := List.foldlM_append

/-- Add the value of an entry as a child. -/
def addValue (ops : DoubleOps) (id : UInt32) (type : ScalarType) (v : Value)
    (record : MessageObject) : Result MessageObject := do
  let value ← v.toField ops type
  record.addChild (.scalar id value)

/-- Insert what a cell holds at its address. -/
def insertCell (ops : DoubleOps) (id : UInt32) (type : ScalarType) (parents : List Parent)
    (x : List Nat × Cell Value) (record : MessageObject) : Result MessageObject :=
  match x.2.value with
  | some v => insertAt (fun _ => true) (addValue ops id type v) parents x.1 record
  | none => insertAt (fun parent => !decide (parent.dmax > x.2.d)) .ok parents x.1 record

/-- Counting up is moving the counters on: the source increments one counter and resets those
behind it. -/
theorem countUp_eq {r : Nat} {indexes : List Nat} (h : r ≤ indexes.length) :
    countUp r indexes = .ok (bump r indexes) := by
  -- `bump` walks the list once; the code increments one counter and clears those behind it
  have hmap : ∀ (indexes : List Nat) (r : Nat), r < indexes.length →
      (indexes.modify r (· + 1)).mapIdx (fun x i => if r + 1 ≤ x then 0 else i) =
        bump (r + 1) indexes := by
    intro indexes
    induction indexes with
    | nil => exact fun r hr => absurd hr (Nat.not_lt_zero r)
    | cons i indexes ih =>
      intro r hr
      cases r with
      | zero =>
        rw [List.modify_zero_cons, List.mapIdx_cons, bump]
        refine congrArg (List.cons (i + 1)) (List.mapIdx_eq_replicate_iff.mpr fun x hx => ?_)
        exact if_pos (Nat.le_add_left 1 x)
      | succ r =>
        rw [List.modify_succ_cons, List.mapIdx_cons, bump, ← ih r (Nat.lt_of_succ_lt_succ hr)]
        refine congrArg₂ List.cons (if_neg (Nat.not_succ_le_zero _)) ?_
        refine List.mapIdx_eq_mapIdx_iff.mpr fun x hx => ?_
        simp only [Nat.add_le_add_iff_right]
  cases r with
  | zero => rfl
  | succ r =>
    unfold countUp
    rw [if_pos (Nat.succ_pos r), Nat.add_sub_cancel, if_pos (Nat.lt_of_succ_le h),
      hmap indexes r h]

/-- The entries of a record are inserted at the addresses they count up to. By induction on the
entries, with the counters moving on. -/
theorem assembleEntries_eq (ops : DoubleOps) (t : Target) {es : List (Entry Value)} :
    ∀ {indexes : List Nat} (record : MessageObject), (∀ e ∈ es, e.r ≤ indexes.length) →
      assembleEntries ops t es indexes record =
        runAll ((scan indexes es).map (insertCell ops t.field_id t.field_type t.parents))
          record := by
  induction es with
  | nil => exact fun _ _ => rfl
  | cons e es ih =>
    intro indexes record h
    have hinsert : ∀ record, insertEntry ops t e (bump e.r indexes) record =
        insertCell ops t.field_id t.field_type t.parents (bump e.r indexes, ⟨e.d, e.value⟩)
          record := by
      intro record
      unfold insertEntry insertCell
      cases e.value <;> rfl
    rw [assembleEntries, countUp_eq (h e List.mem_cons_self), Result.ok_bind, hinsert, scan,
      List.map_cons, runAll_cons]
    refine bind_congr fun record' => ih record' fun e' he' => ?_
    rw [bump_length]
    exact h e' (List.mem_cons_of_mem e he')

/-! ### The children of an object -/

/-- A child of the id in front is the first of them. -/
theorem childrenOf_cons_self {id : UInt32} {x : MessageObject} (h : x.id = id)
    (xs : List MessageObject) : childrenOf id (x :: xs) = x :: childrenOf id xs :=
  List.filter_cons_of_pos (beq_iff_eq.mpr h)

/-- A child of another id in front is passed over. -/
theorem childrenOf_cons_ne {id : UInt32} {x : MessageObject} (h : x.id ≠ id)
    (xs : List MessageObject) : childrenOf id (x :: xs) = childrenOf id xs :=
  List.filter_cons_of_neg (by simpa using h)

/-- The children of an id in two lists, in order. -/
theorem childrenOf_append (id : UInt32) (xs ys : List MessageObject) :
    childrenOf id (xs ++ ys) = childrenOf id xs ++ childrenOf id ys := List.filter_append xs ys

/-- Where all children have the id, they are all there is. -/
theorem childrenOf_eq_self {id : UInt32} {xs : List MessageObject} (h : ∀ x ∈ xs, x.id = id) :
    childrenOf id xs = xs := List.filter_eq_self.mpr fun x hx => beq_iff_eq.mpr (h x hx)

/-- And where none has it there are none. -/
theorem childrenOf_eq_nil {id : UInt32} {xs : List MessageObject} (h : ∀ x ∈ xs, x.id ≠ id) :
    childrenOf id xs = [] :=
  List.filter_eq_nil_iff.mpr fun x hx heq => h x hx (beq_iff_eq.mp heq)

/-- Where a child is missing it is made, with empty ones in front up to its position. The source
adds them one by one until there are enough. -/
theorem visitChild_nil (id : UInt32) (go : MessageObject → Result MessageObject) (n : Nat) :
    visitChild id go n [] =
      (go (.object id [])).map fun c => List.replicate n (.object id []) ++ [c] := by
  rw [visitChild]
  cases go (.object id []) <;> rfl

/-- The child at the position is visited. -/
theorem visitChild_zero {id : UInt32} {x : MessageObject} (h : x.id = id)
    (go : MessageObject → Result MessageObject) (xs : List MessageObject) :
    visitChild id go 0 (x :: xs) = (go x).map fun c => c :: xs := by
  rw [visitChild.eq_def]
  dsimp only
  rw [if_pos h]
  cases go x <;> rfl

/-- A child of the id in front of the position is passed over and counted. -/
theorem visitChild_succ {id : UInt32} {x : MessageObject} (h : x.id = id)
    (go : MessageObject → Result MessageObject) (n : Nat) (xs : List MessageObject) :
    visitChild id go (n + 1) (x :: xs) = (visitChild id go n xs).map fun cs => x :: cs := by
  rw [visitChild.eq_def]
  dsimp only
  rw [if_pos h]
  cases visitChild id go n xs <;> rfl

/-- A child of another id is passed over without counting. -/
theorem visitChild_ne {id : UInt32} {x : MessageObject} (h : x.id ≠ id)
    (go : MessageObject → Result MessageObject) (n : Nat) (xs : List MessageObject) :
    visitChild id go n (x :: xs) = (visitChild id go n xs).map fun cs => x :: cs := by
  rw [visitChild.eq_def]
  dsimp only
  rw [if_neg h]
  cases visitChild id go n xs <;> rfl

/-- The children of an object after the child at a position is visited. Those of other ids stay,
which is what keeps columns from disturbing each other. -/
theorem visitChild_spec {id : UInt32} {go : MessageObject → Result MessageObject}
    {y : MessageObject} (hid : y.id = id) {xs : List MessageObject} :
    ∀ {n : Nat}, n ≤ (childrenOf id xs).length →
      go ((childrenOf id xs).getD n (.object id [])) = .ok y →
      ∃ xs', visitChild id go n xs = .ok xs' ∧
        childrenOf id xs' = (childrenOf id xs).take n ++ y :: (childrenOf id xs).drop (n + 1) ∧
        ∀ id', id' ≠ id → childrenOf id' xs' = childrenOf id' xs := by
  induction xs with
  | nil =>
    intro n hn hgo
    obtain rfl := Nat.le_zero.mp hn
    have hgo : go (.object id []) = .ok y := hgo
    refine ⟨[y], ?_, childrenOf_cons_self hid [], fun id' hne => ?_⟩
    · rw [visitChild_nil, hgo]
      rfl
    · exact childrenOf_cons_ne (hid ▸ hne.symm) []
  | cons x xs ih =>
    intro n hn hgo
    -- a child of another id is passed over and counts for nothing
    by_cases hx : x.id = id
    · rw [childrenOf_cons_self hx] at hn hgo ⊢
      cases n with
      -- the child asked for is this one
      | zero =>
        have hgo : go x = .ok y := hgo
        rw [visitChild_zero hx, hgo]
        refine ⟨y :: xs, rfl, childrenOf_cons_self hid xs, fun id' hne => ?_⟩
        rw [childrenOf_cons_ne (hid ▸ hne.symm), childrenOf_cons_ne (hx ▸ hne.symm)]
      | succ n =>
        obtain ⟨xs', hvisit, hchildren, hothers⟩ := ih (Nat.le_of_succ_le_succ hn) hgo
        rw [visitChild_succ hx, hvisit]
        refine ⟨x :: xs', rfl, ?_, fun id' hne => ?_⟩
        · rw [childrenOf_cons_self hx, hchildren]
          rfl
        · rw [childrenOf_cons_ne (hx ▸ hne.symm), childrenOf_cons_ne (hx ▸ hne.symm),
            hothers id' hne]
    · rw [childrenOf_cons_ne hx] at hn hgo ⊢
      obtain ⟨xs', hvisit, hchildren, hothers⟩ := ih hn hgo
      rw [visitChild_ne hx, hvisit]
      refine ⟨x :: xs', rfl, ?_, fun id' hne => ?_⟩
      · rw [childrenOf_cons_ne hx, hchildren]
      · by_cases hx' : x.id = id'
        · rw [childrenOf_cons_self hx', childrenOf_cons_self hx', hothers id' hne]
        · rw [childrenOf_cons_ne hx', childrenOf_cons_ne hx', hothers id' hne]

/-- Two visits of one child are one, if the first does not change its id. Otherwise the second
would look for the child and not find it. -/
theorem visitChild_bind {id : UInt32} {f g : MessageObject → Result MessageObject}
    (hf : ∀ x y, f x = .ok y → y.id = x.id) {xs : List MessageObject} :
    ∀ n : Nat, (visitChild id f n xs >>= visitChild id g n) =
      visitChild id (fun x => f x >>= g) n xs := by
  induction xs with
  | nil =>
    intro n
    rw [visitChild_nil, visitChild_nil]
    cases hnew : f (.object id []) with
    | error e => rfl
    | ok y =>
      have hy : y.id = id := hf _ y hnew
      show visitChild id g n (List.replicate n (.object id []) ++ [y]) = (g y).map _
      clear hnew
      -- the children that were added are passed over
      induction n with
      | zero =>
        rw [List.replicate_zero, List.nil_append, visitChild_zero hy]
        rfl
      | succ n ih =>
        have hnew : (MessageObject.object id []).id = id := rfl
        rw [List.replicate_succ, List.cons_append, visitChild_succ hnew, ih]
        cases g y <;> rfl
  | cons x xs ih =>
    intro n
    by_cases hx : x.id = id
    · cases n with
      | zero =>
        rw [visitChild_zero hx, visitChild_zero hx]
        cases hvisit : f x with
        | error e => rfl
        | ok y => exact visitChild_zero ((hf x y hvisit).trans hx) g xs
      | succ n =>
        rw [visitChild_succ hx, visitChild_succ hx, ← ih n]
        cases visitChild id f n xs with
        | error e => rfl
        | ok xs' => exact visitChild_succ hx g n xs'
    · rw [visitChild_ne hx, visitChild_ne hx, ← ih n]
      cases visitChild id f n xs with
      | error e => rfl
      | ok xs' => exact visitChild_ne hx g n xs'

/-- A visit goes to the children of the object. A record that is no object raises, which is the
other case of `visit`. -/
theorem visit_object (id : UInt32) (n : Nat) (go : MessageObject → Result MessageObject)
    (rid : UInt32) (children : List MessageObject) :
    visit id n go (.object rid children) = (visitChild id go n children).map (.object rid) := by
  show (visitChild id go n children >>= fun children => .ok (MessageObject.object rid children)) = _
  cases visitChild id go n children <;> rfl

/-- The visit keeps the record an object of its id. -/
theorem id_visit {id : UInt32} {n : Nat} {go : MessageObject → Result MessageObject}
    {record out : MessageObject} (h : visit id n go record = .ok out) : out.id = record.id := by
  obtain ⟨children, -, h⟩ := Result.bind_eq_ok.mp h
  obtain ⟨children', -, h⟩ := Result.bind_eq_ok.mp h
  cases h
  rfl

/-- An insertion keeps the id of the record. -/
def KeepsId (step : MessageObject → Result MessageObject) : Prop :=
  ∀ record out, step record = .ok out → out.id = record.id

/-- So does an insertion at any depth. By induction on the parents, since each level is a
visit. -/
theorem keepsId_insertAt {enter : Parent → Bool} {leaf : MessageObject → Result MessageObject}
    (hleaf : KeepsId leaf) :
    ∀ (parents : List Parent) (indexes : List Nat),
    KeepsId (insertAt enter leaf parents indexes) := by
  intro parents
  cases parents with
  | nil =>
    intro indexes record out h
    exact hleaf record out h
  | cons parent parents =>
    intro indexes record out h
    unfold insertAt at h
    split_ifs at h
    · cases h
      rfl
    · cases indexes with
      | nil => cases h
      | cons i indexes => exact id_visit h
    · exact id_visit h

/-- And the insertion of an entry. -/
theorem keepsId_insertCell (ops : DoubleOps) (id : UInt32) (type : ScalarType)
    (parents : List Parent) (x : List Nat × Cell Value) :
    KeepsId (insertCell ops id type parents x) := by
  intro record out h
  unfold insertCell at h
  cases hvalue : x.2.value with
  | some v =>
    rw [hvalue] at h
    refine keepsId_insertAt (fun record out h => ?_) parents x.1 record out h
    obtain ⟨value, -, h⟩ := Result.bind_eq_ok.mp h
    cases record with
    | object rid children =>
      cases h
      rfl
    | scalar rid value => cases h
  | none =>
    rw [hvalue] at h
    refine keepsId_insertAt (fun record out h => ?_) parents x.1 record out h
    cases h
    rfl

/-- Insertions below one child, one after the other, are one visit of the child. With this the
entries below an occurrence become the insertions of a smaller schema. -/
theorem runAll_visit (id : UInt32) (n : Nat) (rid : UInt32)
    {steps : List (MessageObject → Result MessageObject)} :
    ∀ {children : List MessageObject}, steps ≠ [] → (∀ step ∈ steps, KeepsId step) →
      runAll (steps.map (visit id n)) (.object rid children) =
        visit id n (runAll steps) (.object rid children) := by
  induction steps with
  | nil => exact fun h => absurd rfl h
  | cons step steps ih =>
    intro children _ hkeep
    rw [List.map_cons, runAll_cons]
    by_cases hsteps : steps = []
    · -- the last of the insertions
      subst hsteps
      rw [runAll_singleton]
      exact bind_pure (visit id n step (.object rid children))
    · rw [visit_object, visit_object,
        show runAll (step :: steps) = fun x => step x >>= runAll steps from rfl,
        ← visitChild_bind (hkeep step List.mem_cons_self)]
      cases visitChild id step n children with
      | error e => rfl
      | ok children' =>
        exact (ih hsteps fun s hs => hkeep s (List.mem_cons_of_mem step hs)).trans
          (visit_object id n (runAll steps) rid children')

/-- The insertions below the occurrence of a field at a position: what is done with the
child there, what it is before and what it is then. -/
structure Update where
  go : MessageObject → Result MessageObject
  old : MessageObject
  new : MessageObject

/-- The insertion does what is said of it. -/
structure Update.Valid (id : UInt32) (u : Update) : Prop where
  done : u.go u.old = .ok u.new
  id : u.new.id = id

/-- Visits of the children from a position on. -/
def visitsFrom (id : UInt32) :
    Nat → List (MessageObject → Result MessageObject) → List (MessageObject → Result MessageObject)
  | _, [] => []
  | j, go :: gos => visit id j go :: visitsFrom id (j + 1) gos

/-- The children of an object after all occurrences of a field are visited, where they
are there already or none of them is. -/
theorem runAll_visitsFrom {id : UInt32} (rid : UInt32) {updates : List Update} :
    ∀ {done rest children : List MessageObject}, (∀ u ∈ updates, u.Valid id) →
      childrenOf id children = done ++ rest →
      (rest = updates.map Update.old ∨ rest = [] ∧ ∀ u ∈ updates, u.old = .object id []) →
      ∃ children',
      runAll (visitsFrom id done.length (updates.map Update.go)) (.object rid children) =
          .ok (.object rid children') ∧
        childrenOf id children' = done ++ updates.map Update.new ∧
        ∀ id', id' ≠ id → childrenOf id' children' = childrenOf id' children := by
  induction updates with
  | nil =>
    intro done rest children _ hchildren hrest
    refine ⟨children, rfl, ?_, fun _ _ => rfl⟩
    rw [hchildren]
    rcases hrest with rfl | ⟨rfl, -⟩ <;> rfl
  | cons u us ih =>
    intro done rest children hvalid hchildren hrest
    have hu := hvalid u List.mem_cons_self
    -- the first of the rest is found under its index, or made empty if none is left
    have hold : (childrenOf id children).getD done.length (.object id []) = u.old := by
      rw [hchildren, List.getD_append_right _ _ _ _ (Nat.le_refl _), Nat.sub_self]
      rcases hrest with rfl | ⟨rfl, hempty⟩
      · rfl
      · exact (hempty u List.mem_cons_self).symm
    have hlen : done.length ≤ (childrenOf id children).length := by
      rw [hchildren, List.length_append]
      exact Nat.le_add_right _ _
    obtain ⟨children₁, hvisit, hchildren₁, hothers₁⟩ := visitChild_spec hu.id hlen
      (hold ▸ hu.done)
    have hdone : childrenOf id children₁ = (done ++ [u.new]) ++ rest.tail := by
      rw [hchildren₁, hchildren, List.take_left, List.drop_append, Nat.add_sub_cancel_left,
        List.drop_eq_nil_of_le (Nat.le_succ _), List.nil_append, List.drop_one, List.append_assoc]
      rfl
    obtain ⟨children', hrun, hchildren', hothers⟩ := @ih (done ++ [u.new]) rest.tail children₁
      (fun v hv => hvalid v (List.mem_cons_of_mem u hv)) hdone (by
        rcases hrest with rfl | ⟨rfl, hempty⟩
        · exact Or.inl rfl
        · exact Or.inr ⟨rfl, fun v hv => hempty v (List.mem_cons_of_mem u hv)⟩)
    rw [List.length_append, List.length_singleton] at hrun
    refine ⟨children', ?_, ?_, fun id' hne => (hothers id' hne).trans (hothers₁ id' hne)⟩
    · rw [List.map_cons, visitsFrom, runAll_cons, visit_object, hvisit]
      exact hrun
    · rw [hchildren', List.append_assoc]
      rfl

end RecordMaterializer

/-! ### Records with some of the leaves -/

mutual

/-- Of the occurrences of a field those with leaves that are kept are there, and these
leaves. -/
def FieldKept (keep : MessageLeaf → Prop) (f : MessageSchemaField)
    (occurrences kept : List MessageObject) : Prop :=
  match f with
  | .scalar id name type repeated optional =>
    (keep ⟨[], ⟨id, ⟨name, repeated, optional⟩⟩, type⟩ → kept = occurrences) ∧
      (¬ keep ⟨[], ⟨id, ⟨name, repeated, optional⟩⟩, type⟩ → kept = [])
  | .object id name repeated optional schema =>
    ((∃ p ∈ messageLeaves schema, keep (p.below ⟨id, ⟨name, repeated, optional⟩⟩)) →
      List.Forall₂ (fun o k => ∃ children kept, o = .object id children ∧ k = .object id kept ∧
        (∀ c ∈ kept, c.id ∈ schema.map MessageSchemaField.id) ∧
        FieldsKept (fun p => keep (p.below ⟨id, ⟨name, repeated, optional⟩⟩)) schema children kept)
        occurrences kept) ∧
      ((∀ p ∈ messageLeaves schema, ¬ keep (p.below ⟨id, ⟨name, repeated, optional⟩⟩)) → kept = [])

/-- The same for each of the fields. -/
def FieldsKept (keep : MessageLeaf → Prop) (fs : List MessageSchemaField)
    (children kept : List MessageObject) : Prop :=
  match fs with
  | [] => True
  | f :: fs => FieldKept keep f (childrenOf f.id children) (childrenOf f.id kept) ∧
    FieldsKept keep fs children kept

end

/-- The children of an object that is left when only some of the leaves of its schema are
kept, and of the objects only those with such a leaf below them in the schema. -/
structure Kept (keep : MessageLeaf → Prop) (schema : MessageSchema)
    (children kept : List MessageObject) : Prop where
  known : ∀ c ∈ kept, c.id ∈ schema.map MessageSchemaField.id
  fields : FieldsKept keep schema children kept

/-- What is kept of the fields is kept of each of them. `FieldsKept` is defined by recursion on
the fields, and this form is the one to use. -/
theorem fieldsKept_iff {keep : MessageLeaf → Prop} {fs : List MessageSchemaField}
    {children kept : List MessageObject} :
    FieldsKept keep fs children kept ↔
      ∀ f ∈ fs, FieldKept keep f (childrenOf f.id children) (childrenOf f.id kept) := by
  induction fs with
  | nil => exact iff_of_true trivial fun f hf => absurd hf List.not_mem_nil
  | cons f fs ih => rw [FieldsKept, ih, List.forall_mem_cons]

/-- What is kept of the occurrences of an object. -/
structure ObjectsKept (keep : MessageLeaf → Prop) (s : MessageStep) (schema : MessageSchema)
    (occurrences kept : List MessageObject) : Prop where
  any : (∃ p ∈ messageLeaves schema, keep (p.below s)) →
    List.Forall₂ (fun o k => ∃ children kept, o = .object s.id children ∧ k = .object s.id kept ∧
      Kept (fun p => keep (p.below s)) schema children kept) occurrences kept
  none : (∀ p ∈ messageLeaves schema, ¬ keep (p.below s)) → kept = []

/-- What is kept of an object field is kept of its occurrences, one by one. -/
theorem fieldKept_object {keep : MessageLeaf → Prop} {s : MessageStep} {schema : MessageSchema}
    {occurrences kept : List MessageObject} :
    FieldKept keep (.object s.id s.field.name s.field.repeated s.field.optional schema)
      occurrences kept ↔ ObjectsKept keep s schema occurrences kept := by
  rw [FieldKept]
  constructor
  · rintro ⟨hany, hnone⟩
    refine ⟨fun h => (hany h).imp fun o k hok => ?_, hnone⟩
    obtain ⟨children, kept, ho, hk, hknown, hfields⟩ := hok
    exact ⟨children, kept, ho, hk, hknown, hfields⟩
  · rintro ⟨hany, hnone⟩
    refine ⟨fun h => (hany h).imp fun o k hok => ?_, hnone⟩
    obtain ⟨children, kept, ho, hk, hkept⟩ := hok
    exact ⟨children, kept, ho, hk, hkept.known, hkept.fields⟩

mutual

/-- Only the leaves of the field count. A condition on all leaves may be replaced by one that
agrees with it below the field. -/
theorem FieldKept.congr {keep keep' : MessageLeaf → Prop} {f : MessageSchemaField}
    {occurrences kept : List MessageObject} (h : FieldKept keep f occurrences kept)
    (heq : ∀ p ∈ fieldLeaves f, keep p ↔ keep' p) : FieldKept keep' f occurrences kept := by
  match f with
  | .scalar id name type repeated optional =>
    have hleaf := heq _ List.mem_cons_self
    exact ⟨fun hk => h.1 (hleaf.mpr hk), fun hk => h.2 fun hk' => hk (hleaf.mp hk')⟩
  | .object id name repeated optional schema =>
    rw [FieldKept] at h ⊢
    have hbelow : ∀ p ∈ messageLeaves schema, keep (p.below ⟨id, ⟨name, repeated, optional⟩⟩) ↔
        keep' (p.below ⟨id, ⟨name, repeated, optional⟩⟩) := fun p hp =>
      heq _ (List.mem_map_of_mem hp)
    refine ⟨fun hk => ?_, fun hk => h.2 fun p hp hkp => hk p hp ((hbelow p hp).mp hkp)⟩
    obtain ⟨p, hp, hkp⟩ := hk
    refine (h.1 ⟨p, hp, (hbelow p hp).mpr hkp⟩).imp fun o k hok => ?_
    obtain ⟨children, kept, ho, hk, hknown, hfields⟩ := hok
    exact ⟨children, kept, ho, hk, hknown, hfields.congr hbelow⟩

/-- Only the leaves of the fields count. -/
theorem FieldsKept.congr {keep keep' : MessageLeaf → Prop} {fs : List MessageSchemaField}
    {children kept : List MessageObject} (h : FieldsKept keep fs children kept)
    (heq : ∀ p ∈ messageLeaves fs, keep p ↔ keep' p) : FieldsKept keep' fs children kept := by
  match fs with
  | [] => trivial
  | f :: fs =>
    rw [FieldsKept] at h ⊢
    exact ⟨h.1.congr fun p hp => heq p (List.mem_append_left _ hp),
      h.2.congr fun p hp => heq p (List.mem_append_right _ hp)⟩

end

/-- Only the leaves of the schema count. -/
theorem Kept.congr {keep keep' : MessageLeaf → Prop} {schema : MessageSchema}
    {children kept : List MessageObject} (h : Kept keep schema children kept)
    (heq : ∀ p ∈ messageLeaves schema, keep p ↔ keep' p) : Kept keep' schema children kept :=
  ⟨h.known, h.fields.congr heq⟩

/-- Nothing is kept of an object none of whose leaves are; the materializer does not make it at
all. -/
theorem kept_nil {keep : MessageLeaf → Prop} {schema : MessageSchema}
    (h : ∀ p ∈ messageLeaves schema, ¬ keep p) (children : List MessageObject) :
    Kept keep schema children [] := by
  refine ⟨fun c hc => absurd hc List.not_mem_nil, fieldsKept_iff.mpr fun f hf => ?_⟩
  have hleaves : ∀ p ∈ fieldLeaves f, ¬ keep p := fun p hp =>
    h p (mem_messageLeaves.mpr ⟨f, hf, hp⟩)
  cases f with
  | scalar id name type repeated optional =>
    exact ⟨fun hk => absurd hk (hleaves _ List.mem_cons_self), fun _ => rfl⟩
  | object id name repeated optional sub =>
    rw [FieldKept]
    refine ⟨fun hk => ?_, fun _ => rfl⟩
    obtain ⟨p, hp, hkp⟩ := hk
    exact absurd hkp (hleaves _ (List.mem_map_of_mem hp))

/-- Keep one leaf more. -/
def addLeaf (keep : MessageLeaf → Prop) (p : MessageLeaf) : MessageLeaf → Prop :=
  fun q => keep q ∨ q = p

/-- Adding a leaf, seen from an object above it. The step into an object field turns one set of
leaves into the other. -/
theorem addLeaf_below (keep : MessageLeaf → Prop) (p q : MessageLeaf) (s : MessageStep) :
    addLeaf (fun q => keep (q.below s)) p q ↔ addLeaf keep (p.below s) (q.below s) :=
  or_congr_right (MessageLeaf.below_injective s).eq_iff.symm

/-- Only the occurrences of the field of a leaf change when the leaf is added. The ids of the
fields are distinct, so the other children are not touched. -/
theorem Kept.add {keep : MessageLeaf → Prop} {schema : MessageSchema}
    {children kept kept' : List MessageObject} (h : Kept keep schema children kept)
    (hdistinct : DistinctFields schema) {f : MessageSchemaField} (hf : f ∈ schema)
    {p : MessageLeaf} (hp : p ∈ fieldLeaves f)
    (hfield : FieldKept (addLeaf keep p) f (childrenOf f.id children) (childrenOf f.id kept'))
    (hothers : ∀ id, id ≠ f.id → childrenOf id kept' = childrenOf id kept) :
    Kept (addLeaf keep p) schema children kept' := by
  constructor
  · intro c hc
    by_cases hid : c.id = f.id
    · rw [hid]
      exact List.mem_map_of_mem hf
    · have hmem : c ∈ childrenOf c.id kept' := List.mem_filter.mpr ⟨hc, beq_self_eq_true _⟩
      rw [hothers c.id hid] at hmem
      exact h.known c (List.mem_filter.mp hmem).1
  · refine fieldsKept_iff.mpr fun g hg => ?_
    by_cases hid : g.id = f.id
    · rw [hdistinct.eq_of_id hg hf hid]
      exact hfield
    · rw [hothers g.id hid]
      refine (fieldsKept_iff.mp h.fields g hg).congr fun q hq => ?_
      -- a leaf of another field is not the one that is added
      have hne : q ≠ p := by
        rintro rfl
        have hstep := (first_of_mem_fieldLeaves hq).symm.trans (first_of_mem_fieldLeaves hp)
        exact hid (congrArg MessageStep.id hstep)
      exact (or_iff_left hne).symm

/-- Of an object that does not occur nothing is kept, whichever leaves are. -/
theorem ObjectsKept.eq_nil {keep : MessageLeaf → Prop} {s : MessageStep} {schema : MessageSchema}
    {kept : List MessageObject} (h : ObjectsKept keep s schema [] kept) : kept = [] := by
  by_cases hany : ∃ p ∈ messageLeaves schema, keep (p.below s)
  · exact List.forall₂_nil_left_iff.mp (h.any hany)
  · exact h.none fun p hp hk => hany ⟨p, hp, hk⟩

/-- The occurrences a column finds: those that are there already, or as many empty ones, which
its first visits make. -/
theorem ObjectsKept.exists_olds {keep : MessageLeaf → Prop} {s : MessageStep}
    {schema : MessageSchema} {occurrences kept : List MessageObject}
    (h : ObjectsKept keep s schema occurrences kept)
    (hobjects : ∀ o ∈ occurrences, ∃ children, o = .object s.id children) :
    ∃ olds, List.Forall₂ (fun o k => ∃ children kept, o = .object s.id children ∧
          k = .object s.id kept ∧ Kept (fun q => keep (q.below s)) schema children kept)
        occurrences olds ∧
      (kept = olds ∨ kept = [] ∧ ∀ k ∈ olds, k = .object s.id []) := by
  by_cases hany : ∃ q ∈ messageLeaves schema, keep (q.below s)
  · exact ⟨kept, h.any hany, Or.inl rfl⟩
  · have hnone : ∀ q ∈ messageLeaves schema, ¬ keep (q.below s) := fun q hq hk =>
      hany ⟨q, hq, hk⟩
    refine ⟨occurrences.map fun _ => .object s.id [],
      List.forall₂_map_right_iff.mpr (List.forall₂_same.mpr fun o ho => ?_),
      Or.inr ⟨h.none hnone, fun k hk => ?_⟩⟩
    · obtain ⟨children, rfl⟩ := hobjects o ho
      exact ⟨children, [], rfl, rfl, kept_nil hnone children⟩
    · obtain ⟨o, -, rfl⟩ := List.mem_map.mp hk
      rfl

/-! ### Loading a column -/

namespace RecordMaterializer

/-- What a column returns for a value that was written to it. -/
def stored : ScalarValue → Value
  | .boolean value => .uint (if value then 1 else 0)
  | .uint32 value => .uint value.toUInt64
  | .string value => .str value
  | .uint64 value => .uint value
  | .double value => .float value
  | .dateTime value => .uint value

/-- The value comes back as one of the type of its field. The stored value has the wider type of
its class. -/
theorem toField_stored (ops : DoubleOps) {type : ScalarType} {value : ScalarValue}
    (h : value.type = type.val) : (stored value).toField ops type = .ok value := by
  obtain ⟨type, htype⟩ := type
  obtain rfl : value.type = type := h
  cases value with
  | boolean value => cases value <;> rfl
  | uint32 value => exact congrArg (fun v => Except.ok (ScalarValue.uint32 v)) (by simp)
  | _ => rfl

/-- Below an object that is there an entry goes to the child its address says. The definition
level reaches the object, so the walk enters it. -/
theorem insertCell_cons (ops : DoubleOps) (id : UInt32) (type : ScalarType) {parent : Parent}
    {h : Hop} (hrep : parent.repeated = h.repeated) (parents : List Parent) (j : Nat)
    {x : List Nat × Cell Value} (hd : parent.dmax ≤ x.2.d) :
    insertCell ops id type (parent :: parents) (h.index j x.1, x.2) =
      visit parent.id (if h.repeated then j else 0) (insertCell ops id type parents x) := by
  have hvisit : ∀ (enter : Parent → Bool) (leaf : MessageObject → Result MessageObject),
      enter parent = true → insertAt enter leaf (parent :: parents) (h.index j x.1) =
        visit parent.id (if h.repeated then j else 0) (insertAt enter leaf parents x.1) := by
    intro enter leaf henter
    funext record
    rw [insertAt.eq_def]
    dsimp only
    rw [henter, hrep]
    unfold Hop.index
    cases h.repeated <;> rfl
  unfold insertCell
  cases x.2.value with
  | some v => exact hvisit _ _ rfl
  | none => exact hvisit _ _ (by simpa using hd)

/-- The entries below the occurrences of an object are visits of its occurrences, one visit for
each. -/
theorem runAll_occurrences (ops : DoubleOps) (id : UInt32) (type : ScalarType) {parent : Parent}
    {h : Hop} (hrep : parent.repeated = h.repeated) (parents : List Parent) {rid : UInt32}
    {blocks : List (List (List Nat × Cell Value))} :
    ∀ {j : Nat} {children : List MessageObject}, (∀ b ∈ blocks, b ≠ []) →
      (∀ b ∈ blocks, ∀ x ∈ b, parent.dmax ≤ x.2.d) →
      (h.repeated = true ∨ j = 0 ∧ blocks.length ≤ 1) →
      runAll ((occurrences h j blocks).map (insertCell ops id type (parent :: parents)))
          (.object rid children) =
        runAll (visitsFrom parent.id j
          (blocks.map fun b => runAll (b.map (insertCell ops id type parents))))
          (.object rid children) := by
  induction blocks with
  | nil => exact fun _ _ _ => rfl
  | cons b bs ih =>
    intro j children hne hd hsingle
    -- a parent that does not repeat has one occurrence, at index zero
    have hindex : (if h.repeated then j else 0) = j := by
      rcases hsingle with hr | ⟨rfl, -⟩
      · rw [hr, if_pos rfl]
      · exact ite_self 0
    have hfirst : (b.map fun x => (h.index j x.1, x.2)).map
          (insertCell ops id type (parent :: parents)) =
        (b.map (insertCell ops id type parents)).map (visit parent.id j) := by
      rw [List.map_map, List.map_map]
      refine List.map_congr_left fun x hx => ?_
      have hcell := insertCell_cons ops id type hrep parents j (hd b List.mem_cons_self x hx)
      rw [hindex] at hcell
      exact hcell
    rw [occurrences, List.map_append, runAll_append, hfirst, runAll_visit _ _ _
        (fun hnil => hne b List.mem_cons_self (List.map_eq_nil_iff.mp hnil))
        (fun step hstep => by
          obtain ⟨x, -, rfl⟩ := List.mem_map.mp hstep
          exact keepsId_insertCell ops id type parents x),
      List.map_cons, visitsFrom, runAll_cons, visit_object]
    cases visitChild parent.id (runAll (b.map (insertCell ops id type parents))) j children with
    | error e => rfl
    | ok children' =>
      rcases hsingle with hr | ⟨rfl, hlen⟩
      · exact ih (fun b' hb' => hne b' (List.mem_cons_of_mem b hb'))
          (fun b' hb' => hd b' (List.mem_cons_of_mem b hb')) (Or.inl hr)
      · obtain rfl : bs = [] :=
          List.eq_nil_of_length_eq_zero (Nat.le_zero.mp (Nat.le_of_succ_le_succ hlen))
        rfl

/-- The values of a leaf are added behind the children that are there. By induction on the
values, with the index as the count of those before. -/
theorem runAll_values (ops : DoubleOps) (h : Hop) (id : UInt32) {type : ScalarType} (d : Nat)
    (rid : UInt32) {values : List ScalarValue} :
    ∀ (j : Nat) (children : List MessageObject), (∀ value ∈ values, value.type = type.val) →
      runAll ((occurrences h j (values.map fun value =>
          [([], (⟨d, some (stored value)⟩ : Cell Value))])).map (insertCell ops id type []))
          (.object rid children) =
        .ok (.object rid (children ++ values.map (.scalar id))) := by
  induction values with
  | nil =>
    intro j children _
    rw [List.map_nil, List.map_nil, List.append_nil]
    rfl
  | cons value values ih =>
    intro j children htypes
    -- with no parent to enter, the value is added at the end
    have hadd : insertCell ops id type [] (h.index j [], ⟨d, some (stored value)⟩)
        (.object rid children) = .ok (.object rid (children ++ [.scalar id value])) := by
      show addValue ops id type (stored value) (.object rid children) = _
      unfold addValue
      rw [toField_stored ops (htypes value List.mem_cons_self)]
      rfl
    rw [List.map_cons, occurrences, List.map_append, runAll_append, List.map_singleton,
      List.map_singleton, runAll_singleton, hadd, Result.ok_bind,
      ih (j + 1) _ fun v hv => htypes v (List.mem_cons_of_mem value hv), List.append_assoc]
    rfl

/-- The insertions below each of the occurrences of an object, from what is known of
one. -/
theorem exists_updates {α : Type} {id : UInt32} {go : α → MessageObject → Result MessageObject}
    {R : MessageObject → α → Prop} {Q Q' : MessageObject → MessageObject → Prop}
    {os : List MessageObject} {cs : List α} (hcs : List.Forall₂ R os cs) :
    ∀ {olds : List MessageObject}, List.Forall₂ Q os olds →
      (∀ o k, ∀ c ∈ cs, R o c → Q o k → ∃ k', go c k = .ok k' ∧ k'.id = id ∧ Q' o k') →
      ∃ updates : List Update, updates.map Update.old = olds ∧
        updates.map Update.go = cs.map go ∧ (∀ u ∈ updates, u.Valid id) ∧
        List.Forall₂ Q' os (updates.map Update.new) := by
  induction hcs with
  | nil =>
    intro olds hold _
    cases hold
    exact ⟨[], rfl, rfl, fun u hu => absurd hu List.not_mem_nil, .nil⟩
  | @cons o c os cs hoc _ ih =>
    intro olds hold hstep
    cases hold with
    | @cons _ k _ olds hok hold =>
      obtain ⟨k', hgo, hid, hk'⟩ := hstep o k c List.mem_cons_self hoc hok
      obtain ⟨updates, holds, hgos, hvalid, hnews⟩ := ih hold fun o k c hc =>
        hstep o k c (List.mem_cons_of_mem _ hc)
      refine ⟨⟨go c, k, k'⟩ :: updates, ?_, ?_, ?_, .cons hk' hnews⟩
      · rw [List.map_cons, holds]
      · rw [List.map_cons, hgos, List.map_cons]
      · rintro u hu
        rcases List.mem_cons.mp hu with rfl | hu
        · exact ⟨hgo, hid⟩
        · exact hvalid u hu

/-- Loading a column without parents adds the values of its leaf, which become all the children
of its id: none were kept before. -/
theorem insertValues_spec (ops : DoubleOps) {type : ScalarType} {leaf : MessageStep}
    {schema : MessageSchema} {rid : UInt32} {children kept : List MessageObject} {d : Nat}
    {keep : MessageLeaf → Prop}
    {values : Nest ScalarValue (LeafPath.hopsOf leaf.field ([].map MessageStep.field))}
    (hdistinct : DistinctFields schema) (hp : ⟨[], leaf, type⟩ ∈ messageLeaves schema)
    (hcontains : Contains type leaf [] children values) (hkept : Kept keep schema children kept)
    (hnot : ¬ keep ⟨[], leaf, type⟩) :
    ∃ kept', runAll ((addressed _ d (Nest.map stored _ values)).map
          (insertCell ops leaf.id type (parentsOf d []))) (.object rid kept) =
        .ok (.object rid kept') ∧
      Kept (addLeaf keep ⟨[], leaf, type⟩) schema children kept' := by
  obtain ⟨hvalues, htypes⟩ := hcontains
  have hf := mem_messageLeaves_nil hp
  have hnone : childrenOf leaf.id kept = [] :=
    (fieldsKept_iff.mp hkept.fields _ hf).2 hnot
  -- with the values of the leaf the record has all its occurrences
  have hadd : ∀ kept', childrenOf leaf.id kept' = childrenOf leaf.id children →
      (∀ id, id ≠ leaf.id → childrenOf id kept' = childrenOf id kept) →
      Kept (addLeaf keep ⟨[], leaf, type⟩) schema children kept' := by
    intro kept' hleaf hothers
    refine hkept.add hdistinct hf List.mem_cons_self ⟨fun _ => hleaf, fun hk => ?_⟩ hothers
    exact absurd (Or.inr rfl) hk
  cases values with
  | nil =>
    refine ⟨kept, rfl, hadd kept ?_ fun _ _ => rfl⟩
    rw [hnone, hvalues]
    rfl
  | cons value values =>
    have hid : ∀ o ∈ (value :: values : List ScalarValue).map (MessageObject.scalar leaf.id),
        o.id = leaf.id := by
      intro o ho
      obtain ⟨v, -, rfl⟩ := List.mem_map.mp ho
      rfl
    refine ⟨kept ++ (value :: values : List ScalarValue).map (MessageObject.scalar leaf.id), ?_,
      hadd _ ?_ fun id hne => ?_⟩
    · have hcells := addressed_map_cons stored leaf.field.hop [] d value values
      refine (congrArg (fun cells => runAll (List.map _ cells) _) hcells).trans ?_
      exact runAll_values ops leaf.field.hop leaf.id _ rid 0 kept htypes
    · rw [childrenOf_append, hnone, hvalues, List.nil_append]
      exact childrenOf_eq_self hid
    · have hnil : childrenOf id ((value :: values : List ScalarValue).map
          (MessageObject.scalar leaf.id)) = [] :=
        childrenOf_eq_nil fun o ho heq => hne (heq.symm.trans (hid o ho))
      exact (childrenOf_append _ _ _).trans ((congrArg _ hnil).trans (List.append_nil _))

/-- The null of an object that does not occur lies above it, so nothing is inserted. -/
theorem runAll_absent (ops : DoubleOps) (id : UInt32) (type : ScalarType) {s : MessageStep}
    {hs : List Hop} (ss : List MessageStep) (d : Nat) (rid : UInt32) (kept : List MessageObject)
    (hopt : s.field.hop.opt ≠ 0) :
    runAll ((addressed (s.field.hop :: hs) d
        (Nest.map stored (s.field.hop :: hs) ([] : List (Nest ScalarValue hs)))).map
          (insertCell ops id type (parentsOf d (s :: ss)))) (.object rid kept) =
      .ok (.object rid kept) := by
  have henter : (!decide (d + s.field.hop.opt > d)) = false := by
    simpa using Nat.pos_of_ne_zero hopt
  show (insertAt (fun parent => !decide (parent.dmax > d)) .ok (parentsOf d (s :: ss)) _
    (.object rid kept) >>= fun record => .ok record) = _
  rw [parentsOf, insertAt.eq_def]
  dsimp only
  rw [henter]
  rfl

/-- The cells of an object that occurs are those of its occurrences, so that inserting them
visits the occurrences in turn, each with the cells below it. -/
theorem runAll_addressed (ops : DoubleOps) (id : UInt32) (type : ScalarType) (s : MessageStep)
    {hs : List Hop} (ss : List MessageStep) (d : Nat) (rid : UInt32) (kept : List MessageObject)
    {c : Nest ScalarValue hs} {cs : List (Nest ScalarValue hs)}
    (hsingle : s.field.hop.repeated = false → (c :: cs).length ≤ 1) :
    runAll ((addressed (s.field.hop :: hs) d
        (Nest.map stored (s.field.hop :: hs) (c :: cs : List (Nest ScalarValue hs)))).map
          (insertCell ops id type (parentsOf d (s :: ss)))) (.object rid kept) =
      runAll (visitsFrom s.id 0 ((c :: cs).map fun c' =>
          runAll ((addressed hs (d + s.field.hop.opt) (Nest.map stored hs c')).map
            (insertCell ops id type (parentsOf (d + s.field.hop.opt) ss)))))
        (.object rid kept) := by
  have hblocks := addressed_map_cons stored s.field.hop hs d c cs
  refine (congrArg (fun cells => runAll (List.map _ cells) _) hblocks).trans ?_
  refine (runAll_occurrences ops id type rfl _ ?_ ?_ ?_).trans ?_
  · intro b hb
    obtain ⟨c', -, rfl⟩ := List.mem_map.mp hb
    exact addressed_ne_nil _ _ _
  · intro b hb x hx
    obtain ⟨c', -, rfl⟩ := List.mem_map.mp hb
    exact le_of_mem_addressed x hx
  · cases hrep : s.field.hop.repeated with
    | true => exact Or.inl rfl
    | false =>
      refine Or.inr ⟨rfl, ?_⟩
      rw [List.length_map]
      exact hsingle hrep
  · rw [List.map_map]
    rfl

/-- Loading a column adds its leaf to those that are kept. By induction on the objects above the
leaf, for every schema and record at once. -/
theorem insertCells_spec (ops : DoubleOps) {type : ScalarType} {leaf : MessageStep}
    {parents : List MessageStep} :
    ∀ {schema : MessageSchema} {rid : UInt32} {children kept : List MessageObject} {d : Nat}
      {keep : MessageLeaf → Prop}
      {c : Nest ScalarValue (LeafPath.hopsOf leaf.field (parents.map MessageStep.field))},
      AtEveryLevel DistinctFields schema → ⟨parents, leaf, type⟩ ∈ messageLeaves schema →
      Contains type leaf parents children c → Single _ c → Present _ c →
      Kept keep schema children kept → ¬ keep ⟨parents, leaf, type⟩ →
      ∃ kept', runAll ((addressed _ d (Nest.map stored _ c)).map
            (insertCell ops leaf.id type (parentsOf d parents))) (.object rid kept) =
          .ok (.object rid kept') ∧
        Kept (addLeaf keep ⟨parents, leaf, type⟩) schema children kept' := by
  induction parents with
  | nil =>
    intro schema rid children kept d keep values hdistinct hp hcontains _ _ hkept hnot
    exact insertValues_spec ops hdistinct.1 hp hcontains hkept hnot
  | cons s ss ih =>
    intro schema rid children kept d keep cs hdistinct hp hcontains hsingle hpresent hkept hnot
    obtain ⟨sub, hf, hp'⟩ := mem_messageLeaves_cons hp
    have hfield : ObjectsKept keep s sub (childrenOf s.id children) (childrenOf s.id kept) :=
      fieldKept_object.mp (fieldsKept_iff.mp hkept.fields _ hf)
    have hleaf : (⟨s :: ss, leaf, type⟩ : MessageLeaf) ∈
        fieldLeaves (.object s.id s.field.name s.field.repeated s.field.optional sub) :=
      List.mem_map.mpr ⟨⟨ss, leaf, type⟩, hp', rfl⟩
    -- only the occurrences of the object change
    have hadd : ∀ kept', ObjectsKept (addLeaf keep ⟨s :: ss, leaf, type⟩) s sub
          (childrenOf s.id children) (childrenOf s.id kept') →
        (∀ id, id ≠ s.id → childrenOf id kept' = childrenOf id kept) →
        Kept (addLeaf keep ⟨s :: ss, leaf, type⟩) schema children kept' := fun kept' hobjects =>
      hkept.add hdistinct.1 hf hleaf (fieldKept_object.mpr hobjects)
    cases cs with
    | nil =>
      have hnone : childrenOf s.id children = [] := List.forall₂_nil_right_iff.mp hcontains
      rw [hnone] at hfield
      refine ⟨kept, runAll_absent ops leaf.id type ss d rid kept fun hzero => hpresent.1 hzero rfl,
        hadd kept ?_ fun _ _ => rfl⟩
      rw [hnone, hfield.eq_nil]
      exact ⟨fun _ => .nil, fun _ => rfl⟩
    | cons c cs =>
      obtain ⟨olds, holds, hrest⟩ := hfield.exists_olds fun o ho => by
        obtain ⟨c', -, children', rfl, -⟩ := Support.exists_of_mem_left hcontains ho
        exact ⟨children', rfl⟩
      -- below each occurrence the schema is smaller, and the induction hypothesis applies
      have hstep : ∀ (o k : MessageObject), ∀ c' ∈ (c :: cs : List (Nest ScalarValue
          (LeafPath.hopsOf leaf.field (ss.map MessageStep.field)))),
          (∃ children, o = .object s.id children ∧ Contains type leaf ss children c') →
          (∃ children kept, o = .object s.id children ∧ k = .object s.id kept ∧
            Kept (fun q => keep (q.below s)) sub children kept) →
          ∃ k' : MessageObject,
            runAll ((addressed _ (d + s.field.hop.opt) (Nest.map stored _ c')).map
              (insertCell ops leaf.id type (parentsOf (d + s.field.hop.opt) ss))) k = .ok k' ∧
            k'.id = s.id ∧ ∃ children kept, o = .object s.id children ∧ k' = .object s.id kept ∧
              Kept (fun q => addLeaf keep ⟨s :: ss, leaf, type⟩ (q.below s)) sub children kept := by
        rintro o k c' hc' ⟨children', rfl, hcontains'⟩ ⟨children'', kept', heq, rfl, hkept'⟩
        cases heq
        obtain ⟨kept'', hrun, hkept''⟩ := ih (hdistinct.object hf) hp' hcontains'
          (hsingle.2 c' hc') (hpresent.2 c' hc') hkept' hnot
        exact ⟨.object s.id kept'', hrun, rfl, children', kept'', rfl, rfl,
          hkept''.congr fun q _ => addLeaf_below keep _ q s⟩
      obtain ⟨updates, hold, hgos, hvalid, hnews⟩ := exists_updates hcontains holds hstep
      obtain ⟨kept', hrun, hchildren, hothers⟩ := runAll_visitsFrom rid hvalid
        (List.nil_append (childrenOf s.id kept)).symm (by
          rw [hold]
          refine hrest.imp id fun h => ⟨h.1, fun u hu => h.2 _ ?_⟩
          rw [← hold]
          exact List.mem_map_of_mem hu)
      refine ⟨kept', ?_, hadd kept' ⟨fun _ => ?_, fun hnone => ?_⟩ hothers⟩
      · refine (runAll_addressed ops leaf.id type s ss d rid kept hsingle.1).trans ?_
        exact hgos ▸ hrun
      · rw [hchildren]
        exact hnews
      · exact absurd (Or.inr rfl) (hnone ⟨ss, leaf, type⟩ hp')

end RecordMaterializer

end CStable
