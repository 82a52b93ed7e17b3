import CStable.Proofs.V1Column
import CStable.RecordShredder
import CStable.Support.Striping

/-!
# `CStable.Proofs.ShredSteps`: what shredding a record does to the table, step by step

`addProtoRecordField` interleaves walking the record with writing to the table. What
it writes does not depend on the table, so the walk can be done first: `fieldSteps`
lists the writes and, where the walk would end with an exception, that exception.
Carrying the list out one step after the other (`execSteps`) is the same computation
(`addProtoRecordFields_eq`).

A run of steps that succeeds adds its calls to the columns and changes nothing else
(`Wrote`, `execSteps_ok`); one that fails has carried out the steps before the one
that raised, and takes none of them back (`StoppedAt`, `execSteps_error`).
-/

set_option autoImplicit false

namespace CStable

open TableSchema (dot)
open Support.Striping (Hop)

namespace CxxM

variable {σ α β : Type}

/-- Computations on an object that do the same to every object are equal. -/
theorem ext {x y : CxxM σ α} (h : ∀ s, exec x s = exec y s) : x = y := funext h

/-- A check that passes is not there. The walk is brought to its steps by this and the next
lemma. -/
@[simp] theorem lift_ok_bind (a : α) (f : α → CxxM σ β) : lift (.ok a) >>= f = f a := rfl

/-- After a check that raises nothing is carried out. -/
@[simp] theorem lift_error_bind (e : Abort) (f : α → CxxM σ β) :
    (lift (.error e) : CxxM σ α) >>= f = lift (.error e) := rfl

end CxxM

/-- A column as a field on the way to its leaves. -/
def Column.hop (c : Column) : Hop := ⟨c.repeated, c.optional⟩

namespace RecordShredder

/-! ### Steps -/

/-- What the walk over a record does to the table: a write, where the column is
looked up before the value is taken from the message, or an exception. -/
inductive Step where
  | write (column : Bytes) (r d : Nat) (arg : Result WriteArg)
  | fail (e : Abort)

/-- Carry out a step. -/
def Step.exec : Step → CxxM CSTableWriter Unit
  | .write column r d arg => do
    let col ← getColumnWriter column
    let arg ← CxxM.lift arg
    CSTableWriter.writeColumn col ⟨r, d, arg⟩
  | .fail e => CxxM.lift (.error e)

/-- Carry out steps one after the other. -/
def execSteps : List Step → CxxM CSTableWriter Unit
  | [] => pure ()
  | s :: ss => do
    s.exec
    execSteps ss

/-- Steps are carried out one list after the other. An exception in the first list leaves the
second out. -/
theorem execSteps_append (xs ys : List Step) :
    execSteps (xs ++ ys) = (do execSteps xs; execSteps ys) := by
  induction xs with
  | nil => simp [execSteps]
  | cons x xs ih => simp [execSteps, ih]

/-- A list of one step is the step. -/
theorem execSteps_singleton (s : Step) : execSteps [s] = s.exec := by simp [execSteps]

/-- The value `writeProtoField` takes from the message for a type. -/
def protoArg (type : LeafType) (msg : MessageObject) : Result WriteArg :=
  match type.val with
  | .STRING => msg.asString.map .string
  | .UNSIGNED_INT => msg.asUInt64.map .unsignedInt
  | .SIGNED_INT => RAISE .kNotImplementedError ""
  | .DATETIME => msg.asUnixTime.map .dateTime
  | .FLOAT => msg.asDouble.map .float
  | .BOOLEAN => msg.asBool.map .boolean
  | .SUBRECORD => RAISE .kIllegalStateError ""

mutual

/-- The steps of `writeProtoNull`. -/
def nullSteps (r d : Nat) (column : Bytes) (field : Column) : List Step :=
  match field with
  | .subrecord _ subschema _ _ => nullStepsOf r d (column ++ [dot]) subschema
  | .leaf _ _ _ _ _ => [.write column r d (.ok .null)]

/-- The steps of `writeProtoNulls`. -/
def nullStepsOf (r d : Nat) (pre : Bytes) (fields : List Column) : List Step :=
  match fields with
  | [] => []
  | f :: fs => nullSteps r d (pre ++ f.name) f ++ nullStepsOf r d pre fs

end

/-- The occurrences of a field in a message; the exception where the field or its
occurrences can not be looked up. -/
def occurrencesOf (msg_schema : MessageSchema) (name : Bytes) (msg : MessageObject) :
    Result (UInt32 × List MessageObject) := do
  let field_id ← msg_schema.fieldId name
  let children ← msg.asObject
  .ok (field_id, children.filter fun o => o.id == field_id)

/-- The steps of all occurrences: the first has the repetition level `r`, the others
have `rmax`. -/
def occurrenceSteps (act : Nat → MessageObject → List Step) (r rmax : Nat) :
    List MessageObject → List Step
  | [] => []
  | o :: os => act r o ++ os.flatMap (act rmax)

/-- The steps of `forField`, with the steps of an occurrence as an argument. -/
def forFieldSteps (r rmax d : Nat) (msg : MessageObject) (msg_schema : MessageSchema)
    (column : Bytes) (field : Column) (act : UInt32 → Nat → MessageObject → List Step) :
    List Step :=
  match occurrencesOf msg_schema field.name msg with
  | .error e => [.fail e]
  | .ok (_, []) =>
    if field.optional || field.repeated then nullSteps r d (column ++ field.name) field
    else [.fail (.raised ⟨.kIllegalArgumentError, "missing field: $0", [column ++ field.name]⟩)]
  | .ok (field_id, o :: os) => occurrenceSteps (act field_id) r (rmax + field.hop.rep) (o :: os)

/-- Steps that need a value first. -/
def stepsWith {α : Type} (x : Result α) (steps : α → List Step) : List Step :=
  match x with
  | .error e => [.fail e]
  | .ok a => steps a

mutual

/-- The steps of `addProtoRecordField`. -/
def fieldSteps (r rmax d : Nat) (msg : MessageObject) (msg_schema : MessageSchema)
    (column : Bytes) (field : Column) : List Step :=
  match field with
  | .subrecord name subschema repeated optional =>
    forFieldSteps r rmax d msg msg_schema column (.subrecord name subschema repeated optional)
      fun field_id next_r o => stepsWith (msg_schema.fieldSchema field_id) fun o_schema =>
        fieldStepsOf next_r (rmax + (Hop.mk repeated optional).rep)
          (d + (Hop.mk repeated optional).opt) o o_schema (column ++ name ++ [dot]) subschema
  | .leaf name type encoding repeated optional =>
    forFieldSteps r rmax d msg msg_schema column (.leaf name type encoding repeated optional)
      fun _ next_r o =>
        [.write (column ++ name) next_r (d + (Hop.mk repeated optional).opt) (protoArg type o)]

/-- The steps of `addProtoRecordFields`. -/
def fieldStepsOf (r rmax d : Nat) (msg : MessageObject) (msg_schema : Option MessageSchema)
    (column : Bytes) (fields : List Column) : List Step :=
  match fields with
  | [] => []
  | f :: fs =>
    match msg_schema with
    | none => [.fail .fault]
    | some schema =>
      fieldSteps r rmax d msg schema column f ++
        fieldStepsOf r rmax d msg (some schema) column fs

end

/-! ### The walk and its steps -/

mutual

/-- Writing the nulls for an absent field is carrying out its null steps. By recursion on the
field. -/
theorem writeProtoNull_eq (r d : Nat) (column : Bytes) (field : Column) :
    writeProtoNull r d column field = execSteps (nullSteps r d column field) := by
  match field with
  | .subrecord name subschema repeated optional =>
    rw [writeProtoNull, nullSteps, writeProtoNulls_eq]
  | .leaf name type encoding repeated optional =>
    rw [writeProtoNull, nullSteps, execSteps_singleton]
    rfl

/-- The same for the fields of an absent object. By recursion on the fields. -/
theorem writeProtoNulls_eq (r d : Nat) (pre : Bytes) (fields : List Column) :
    writeProtoNulls r d pre fields = execSteps (nullStepsOf r d pre fields) := by
  match fields with
  | [] => rfl
  | f :: fs =>
    rw [writeProtoNulls, nullStepsOf, execSteps_append, writeProtoNull_eq, writeProtoNulls_eq]

end

/-- A leaf is one step. Its argument may be an exception, which the step raises, after the
column was looked up as in the source. -/
theorem writeProtoField_eq (r d : Nat) (msg : MessageObject) (column : Bytes) (type : LeafType) :
    writeProtoField r d msg column type =
      execSteps [.write column r d (protoArg type msg)] := by
  have hmap : ∀ {α : Type} (x : Result α) (f : α → WriteArg) (col : Nat),
      (CxxM.lift (x.map f) >>= fun arg => CSTableWriter.writeColumn col ⟨r, d, arg⟩) =
        (CxxM.lift x >>= fun a => CSTableWriter.writeColumn col ⟨r, d, f a⟩) := by
    intro α x f col
    cases x <;> rfl
  rw [execSteps_singleton]
  unfold writeProtoField Step.exec protoArg
  congr 1
  funext col
  obtain ⟨type, htype⟩ := type
  cases type with
  | SUBRECORD => exact absurd rfl htype
  | _ => first | rw [hmap] | rfl

/-- The loop over the children of a message treats the occurrences of the field, and counts
them. By induction on the children; those of other ids are passed over. -/
theorem forOccurrences_eq {field_id : UInt32} {rmax : Nat}
    {act : Nat → MessageObject → CxxM CSTableWriter Unit} {steps : Nat → MessageObject → List Step}
    (hact : ∀ r o, act r o = execSteps (steps r o)) (children : List MessageObject) :
    ∀ n next_r : Nat, forOccurrences field_id rmax act n next_r children = (do
      execSteps (occurrenceSteps steps next_r rmax (children.filter fun o => o.id == field_id))
      pure (n + (children.filter fun o => o.id == field_id).length)) := by
  induction children with
  | nil =>
    intro n next_r
    simp [forOccurrences, execSteps, occurrenceSteps]
  | cons o os ih =>
    intro n next_r
    rw [forOccurrences]
    by_cases hid : o.id = field_id
    · have hfilter : (o :: os).filter (fun o => o.id == field_id) =
          o :: os.filter fun o => o.id == field_id :=
        List.filter_cons_of_pos (by simpa using hid)
      have hcount : ∀ l : List MessageObject, n + (o :: l).length = n + 1 + l.length := by
        intro l
        rw [List.length_cons]
        omega
      -- from the second occurrence on all have the level of the field
      have hrest : ∀ l : List MessageObject,
          occurrenceSteps steps next_r rmax (o :: l) =
            steps next_r o ++ occurrenceSteps steps rmax rmax l := by
        intro l
        cases l <;> rfl
      rw [if_neg (not_not.mpr hid), hfilter, hact, ih, hcount, hrest, execSteps_append, bind_assoc]
    · have hfilter : (o :: os).filter (fun o => o.id == field_id) =
          os.filter fun o => o.id == field_id :=
        List.filter_cons_of_neg (by simpa using hid)
      rw [if_pos hid, hfilter, ih]

/-- The levels of a field, as the source counts them up: one more repetition level when it is
repeated. -/
theorem add_rep (n : Nat) (field : Column) :
    (if field.repeated then n + 1 else n) = n + field.hop.rep := by
  show _ = n + if field.repeated then 1 else 0
  split_ifs <;> rfl

/-- And one more definition level when it is optional or repeated. -/
theorem add_opt (n : Nat) (field : Column) :
    (if field.optional || field.repeated then n + 1 else n) = n + field.hop.opt := by
  show _ = n + if field.optional || field.repeated then 1 else 0
  split_ifs <;> rfl

/-- A field carries out the steps of its occurrences, the nulls where it is absent, or the
exception for one that is missing. -/
theorem forField_eq {r rmax d : Nat} {msg : MessageObject} {msg_schema : MessageSchema}
    {column : Bytes} {field : Column}
    {act : UInt32 → Nat → Nat → Nat → MessageObject → CxxM CSTableWriter Unit}
    {steps : UInt32 → Nat → MessageObject → List Step}
    (hact : ∀ id r o, act id (rmax + field.hop.rep) (d + field.hop.opt) r o =
      execSteps (steps id r o)) :
    forField r rmax d msg msg_schema column field act =
      execSteps (forFieldSteps r rmax d msg msg_schema column field steps) := by
  unfold forField forFieldSteps occurrencesOf
  dsimp only
  rw [add_rep, add_opt]
  cases msg_schema.fieldId field.name with
  | error e => simp [execSteps_singleton, Step.exec]
  | ok field_id =>
    cases msg.asObject with
    | error e => simp [execSteps_singleton, Step.exec]
    | ok children =>
      simp only [CxxM.lift_ok_bind, Result.ok_bind, forOccurrences_eq (hact field_id), bind_assoc,
        pure_bind]
      cases children.filter fun o => o.id == field_id with
      | nil =>
        simp only [occurrenceSteps, execSteps, pure_bind, List.length_nil, Nat.add_zero, if_pos]
        cases hopt : field.optional || field.repeated with
        | true => simp [writeProtoNull_eq]
        | false => simp [execSteps_singleton, Step.exec, RAISEF]
      | cons o os =>
        have hne : 0 + (o :: os).length ≠ 0 := by simp
        simp only [if_neg hne]
        simp

mutual

/-- Shredding a field carries out its steps. This and the next theorem turn the walk of the
source into a list that can be split where it fails. -/
theorem addProtoRecordField_eq (r rmax d : Nat) (msg : MessageObject) (msg_schema : MessageSchema)
    (column : Bytes) (field : Column) :
    addProtoRecordField r rmax d msg msg_schema column field =
      execSteps (fieldSteps r rmax d msg msg_schema column field) := by
  match field with
  | .subrecord name subschema repeated optional =>
    rw [addProtoRecordField, fieldSteps]
    refine forField_eq fun id r' o => ?_
    cases msg_schema.fieldSchema id with
    | error e => simp [stepsWith, execSteps_singleton, Step.exec]
    | ok o_schema =>
      simp only [CxxM.lift_ok_bind, stepsWith]
      exact addProtoRecordFields_eq _ _ _ _ _ _ _
  | .leaf name type encoding repeated optional =>
    rw [addProtoRecordField, fieldSteps]
    exact forField_eq fun id r' o => writeProtoField_eq _ _ _ _ _

/-- Shredding the fields of a schema carries out their steps, field by field. The steps are a
list that is known before anything is written. -/
theorem addProtoRecordFields_eq (r rmax d : Nat) (msg : MessageObject)
    (msg_schema : Option MessageSchema) (column : Bytes) (fields : List Column) :
    addProtoRecordFields r rmax d msg msg_schema column fields =
      execSteps (fieldStepsOf r rmax d msg msg_schema column fields) := by
  match fields with
  | [] => rfl
  | f :: fs =>
    cases msg_schema with
    | none =>
      rw [addProtoRecordFields, fieldStepsOf, execSteps_singleton]
      rfl
    | some schema =>
      rw [addProtoRecordFields, fieldStepsOf, execSteps_append, addProtoRecordField_eq,
        addProtoRecordFields_eq]

end

/-- The steps of a record. -/
def recordSteps (schema_ : TableSchema) (msg : MessageObject) (schema : MessageSchema) :
    List Step :=
  fieldStepsOf 0 0 0 msg (some schema) [] schema_

/-! ### What a run of steps leaves in the columns -/

/-- The table after calls on its columns, `calls i` on the column at position `i`:
the columns have taken their calls, nothing else has changed but the pages the
columns write to. -/
structure Wrote (t t' : CSTableWriter) (calls : Nat → List WriteCall) : Prop where
  version : t'.version = t.version
  schema : t'.schema = t.schema
  columns : t'.columns = t.columns
  num_rows : t'.num_rows = t.num_rows
  length : t'.column_writers.length = t.column_writers.length
  slots : ∀ (i : Nat) (slot : ColumnSlot), t.column_writers[i]? = some slot →
    ∃ slot', t'.column_writers[i]? = some slot' ∧ slot'.history = slot.history ++ calls i ∧
      ∀ w, slot.writer = .v1 w → slot'.writer = .v1 (w.callAll (calls i)).1 ∧
        (w.callAll (calls i)).2 = calls i

/-- Calls that are all accepted, followed by others, which may be rejected. A record that raises
part of the way is of this form. -/
theorem callAll_append {w : v1.ColumnWriter} {xs : List WriteCall} (h : (w.callAll xs).2 = xs)
    (ys : List WriteCall) :
    w.callAll (xs ++ ys) =
      (((w.callAll xs).1.callAll ys).1, xs ++ ((w.callAll xs).1.callAll ys).2) := by
  induction xs generalizing w with
  | nil => rfl
  | cons x xs ih =>
    rw [List.cons_append, v1.ColumnWriter.callAll, v1.ColumnWriter.callAll]
    rw [v1.ColumnWriter.callAll] at h
    cases hcall : w.call x with
    | ok w' =>
      rw [hcall] at h
      have hrest : (w'.callAll xs).2 = xs := (List.cons.inj h).2
      dsimp only
      rw [ih hrest]
      rfl
    | error e =>
      -- the calls that were accepted would be one fewer
      rw [hcall] at h
      have hlen := w.length_callAll_le xs
      rw [h, List.length_cons] at hlen
      omega

namespace Wrote

variable {t t' t'' : CSTableWriter} {calls calls' : Nat → List WriteCall}

/-- Nothing was written to a table that is the same. -/
theorem refl (t : CSTableWriter) : Wrote t t fun _ => [] :=
  ⟨rfl, rfl, rfl, rfl, rfl, fun _ slot h => ⟨slot, h, (List.append_nil _).symm, fun _ hw =>
    ⟨hw, rfl⟩⟩⟩

/-- What was written in two steps was written in their order, column by column. Between columns
there is no order to keep. -/
theorem trans (h : Wrote t t' calls) (h' : Wrote t' t'' calls') :
    Wrote t t'' fun i => calls i ++ calls' i := by
  refine ⟨h'.version.trans h.version, h'.schema.trans h.schema, h'.columns.trans h.columns,
    h'.num_rows.trans h.num_rows, h'.length.trans h.length, fun i slot hslot => ?_⟩
  obtain ⟨slot', hslot', hhistory, hwriter⟩ := h.slots i slot hslot
  obtain ⟨slot'', hslot'', hhistory', hwriter'⟩ := h'.slots i slot' hslot'
  refine ⟨slot'', hslot'', ?_, fun w hw => ?_⟩
  · rw [hhistory', hhistory, List.append_assoc]
  · obtain ⟨hw', hall⟩ := hwriter w hw
    obtain ⟨hw'', hall'⟩ := hwriter' _ hw'
    rw [callAll_append hall]
    exact ⟨hw'', congrArg _ hall'⟩

end Wrote

/-- A call on a column: it is added to the column, or nothing is and the call raises. In both
cases the other columns stay. -/
theorem exec_writeColumn {i : Nat} {c : WriteCall} {t : CSTableWriter} :
    ((CxxM.exec (CSTableWriter.writeColumn i c) t).1 = .ok () ∧
      Wrote t (CxxM.exec (CSTableWriter.writeColumn i c) t).2
        fun j => if i = j then [c] else []) ∨
    ((∃ e, (CxxM.exec (CSTableWriter.writeColumn i c) t).1 = .error e) ∧
      Wrote t (CxxM.exec (CSTableWriter.writeColumn i c) t).2 fun _ => []) := by
  -- the column is put back at its place, the others are left alone
  have hset : ∀ (slot : ColumnSlot) (w' : ColumnWriter) (pages : PageStore),
      t.column_writers[i]? = some slot →
      (∀ w, slot.writer = .v1 w → w' = .v1 (w.callAll [c]).1 ∧ (w.callAll [c]).2 = [c]) →
      Wrote t { t with
          pages := pages
          column_writers := t.column_writers.set i ⟨w', slot.history ++ [c]⟩ }
        fun j => if i = j then [c] else [] := by
    intro slot w' pages hslot hw'
    refine ⟨rfl, rfl, rfl, rfl, List.length_set, fun j slotj hj => ?_⟩
    by_cases hij : i = j
    · subst hij
      rw [hslot] at hj
      cases hj
      rw [if_pos rfl]
      exact ⟨_, List.getElem?_set_self (List.getElem?_eq_some_iff.mp hslot).1, rfl, hw'⟩
    · rw [if_neg hij]
      exact ⟨slotj, (List.getElem?_set_ne hij).trans hj, (List.append_nil _).symm,
        fun w hw => ⟨hw, rfl⟩⟩
  unfold CxxM.exec CSTableWriter.writeColumn CSTableWriter.slot
  cases hslot : t.column_writers[i]? with
  | none => exact Or.inr ⟨⟨_, rfl⟩, Wrote.refl t⟩
  | some slot =>
    obtain ⟨writer, history⟩ := slot
    cases writer with
    | v1 w =>
      dsimp only
      cases hcall : w.call c with
      | error e => exact Or.inr ⟨⟨e, rfl⟩, Wrote.refl t⟩
      | ok w' =>
        refine Or.inl ⟨rfl, hset _ (.v1 w') t.pages hslot fun w₀ hw₀ => ?_⟩
        cases hw₀
        simp [v1.ColumnWriter.callAll, hcall]
    | v2 w =>
      dsimp only
      cases hcall : CxxM.exec (w.call c) t.pages with
      | mk result pages =>
        cases result with
        | error e =>
          refine Or.inr ⟨⟨e, rfl⟩, rfl, rfl, rfl, rfl, rfl, fun j slotj hj => ?_⟩
          exact ⟨slotj, hj, (List.append_nil _).symm, fun w hw => ⟨hw, rfl⟩⟩
        | ok u =>
          refine Or.inl ⟨rfl, hset _ (.v2 w) pages hslot fun w₀ hw₀ => ?_⟩
          cases hw₀

/-- The call a step makes on the column at a position. -/
def Step.callAt (t : CSTableWriter) (i : Nat) : Step → Option WriteCall
  | .write column r d (.ok arg) =>
    if t.getColumnWriter column = .ok i then some ⟨r, d, arg⟩ else none
  | _ => none

/-- The calls steps make on the column at a position. -/
def callsAt (t : CSTableWriter) (steps : List Step) (i : Nat) : List WriteCall :=
  steps.filterMap (Step.callAt t i)

/-- The column for a name depends on the list of columns only, and this list never changes. -/
theorem getColumnWriter_congr {t t' : CSTableWriter} (h : t'.columns = t.columns) (column : Bytes) :
    t'.getColumnWriter column = t.getColumnWriter column := by
  unfold CSTableWriter.getColumnWriter
  rw [h]

/-- So do the calls of steps on a position, which is why they can be stated for the table before
the record. -/
theorem callsAt_congr {t t' : CSTableWriter} (h : t'.columns = t.columns) (steps : List Step) :
    callsAt t' steps = callsAt t steps := by
  have hstep : Step.callAt t' = Step.callAt t := by
    funext i s
    unfold Step.callAt
    split
    · rw [getColumnWriter_congr h]
    · rfl
  funext i
  unfold callsAt
  rw [hstep]

/-- A write that has a column and a value. -/
def Step.Writes (t : CSTableWriter) (s : Step) : Prop :=
  ∃ column r d arg i, s = .write column r d (.ok arg) ∧ t.getColumnWriter column = .ok i

/-- One step: its call is made, or it fails and no call is. Which of the two is up to the check
or the column writer. -/
theorem exec_step (s : Step) (t : CSTableWriter) :
    ((CxxM.exec s.exec t).1 = .ok () ∧ s.Writes t ∧
      Wrote t (CxxM.exec s.exec t).2 (callsAt t [s])) ∨
    ((∃ e, (CxxM.exec s.exec t).1 = .error e) ∧
      Wrote t (CxxM.exec s.exec t).2 fun _ => []) := by
  -- a step fails in the lookup, in the conversion of its argument or in the write
  cases s with
  | fail e => exact Or.inr ⟨⟨e, rfl⟩, Wrote.refl t⟩
  | write column r d arg =>
    have hcol : CxxM.exec (getColumnWriter column) t = (t.getColumnWriter column, t) := rfl
    unfold Step.exec
    cases hget : t.getColumnWriter column with
    | error e =>
      rw [hget] at hcol
      rw [CxxM.exec_bind_error hcol]
      exact Or.inr ⟨⟨e, rfl⟩, Wrote.refl t⟩
    | ok i =>
      rw [hget] at hcol
      rw [CxxM.exec_bind_ok hcol]
      cases arg with
      | error e => exact Or.inr ⟨⟨e, rfl⟩, Wrote.refl t⟩
      | ok arg =>
        rw [CxxM.lift_ok_bind]
        rcases exec_writeColumn (i := i) (c := ⟨r, d, arg⟩) (t := t) with ⟨hok, hwrote⟩ | herror
        · refine Or.inl ⟨hok, ⟨column, r, d, arg, i, rfl, hget⟩, ?_⟩
          have hcalls : callsAt t [.write column r d (.ok arg)] =
              fun j => if i = j then [⟨r, d, arg⟩] else [] := by
            funext j
            unfold callsAt
            rw [List.filterMap_cons]
            by_cases hij : i = j <;> simp [Step.callAt, hget, hij]
          rw [hcalls]
          exact hwrote
        · exact Or.inr herror

/-- The calls of steps at a position are those of the first and then those of the others. The
position is looked up in the table's columns. -/
theorem callsAt_cons (t : CSTableWriter) (s : Step) (ss : List Step) :
    callsAt t (s :: ss) = fun i => callsAt t [s] i ++ callsAt t ss i :=
  funext fun _ => List.filterMap_append (l := [s])

/-- A run that succeeds: all steps are writes, and their calls are made. By induction on the
steps. -/
theorem execSteps_ok {steps : List Step} :
    ∀ {t t' : CSTableWriter}, CxxM.exec (execSteps steps) t = (.ok (), t') →
      (∀ s ∈ steps, s.Writes t) ∧ Wrote t t' (callsAt t steps) := by
  induction steps with
  | nil =>
    intro t t' h
    cases h
    exact ⟨fun s hs => absurd hs List.not_mem_nil, Wrote.refl t⟩
  | cons s ss ih =>
    intro t t' h
    -- a step that raises would have ended the run
    rcases exec_step s t with ⟨hok, hwrites, hwrote⟩ | ⟨⟨e, herror⟩, -⟩
    · have hstep : CxxM.exec s.exec t = (.ok (), (CxxM.exec s.exec t).2) := Prod.ext hok rfl
      have hrest : CxxM.exec (execSteps ss) (CxxM.exec s.exec t).2 = (.ok (), t') := by
        rw [execSteps, CxxM.exec_bind_ok hstep] at h
        exact h
      obtain ⟨hall, hwrote'⟩ := ih hrest
      refine ⟨fun s' hs' => ?_, ?_⟩
      · rcases List.mem_cons.mp hs' with rfl | hs'
        · exact hwrites
        · obtain ⟨column, r, d, arg, i, heq, hget⟩ := hall s' hs'
          exact ⟨column, r, d, arg, i, heq, getColumnWriter_congr hwrote.columns column ▸ hget⟩
      · rw [callsAt_congr hwrote.columns] at hwrote'
        rw [callsAt_cons]
        exact hwrote.trans hwrote'
    · have hstep : CxxM.exec s.exec t = (.error e, (CxxM.exec s.exec t).2) := Prod.ext herror rfl
      rw [execSteps, CxxM.exec_bind_error hstep] at h
      cases h

/-- A run of steps that stopped at the step `failing`: the steps before it have returned and
left their calls in the columns, and from the table they left the step has raised the
exception, without adding a call to any column. Nothing is taken back. -/
structure StoppedAt (t t₁ t' : CSTableWriter) (e : Abort) (done : List Step) (failing : Step) :
    Prop where
  ran : CxxM.exec (execSteps done) t = (.ok (), t₁)
  writes : ∀ s ∈ done, s.Writes t
  wrote : Wrote t t₁ (callsAt t done)
  raised : CxxM.exec failing.exec t₁ = (.error e, t')
  kept : Wrote t₁ t' fun _ => []

/-- The columns hold the calls of the steps before the failing one, and nothing else is new.
There is no rollback in the source. -/
theorem StoppedAt.wrote_all {t t₁ t' : CSTableWriter} {e : Abort} {done : List Step}
    {failing : Step} (h : StoppedAt t t₁ t' e done failing) : Wrote t t' (callsAt t done) := by
  have hall := h.wrote.trans h.kept
  have hcalls : (fun i => callsAt t done i ++ []) = callsAt t done :=
    funext fun i => List.append_nil _
  rwa [hcalls] at hall

/-- One step more in front of those that were carried out: it is carried out first, and the run
stops where it did. -/
theorem StoppedAt.cons {t t₀ t₁ t' : CSTableWriter} {e : Abort} {s : Step} {done : List Step}
    {failing : Step} (hstep : CxxM.exec s.exec t = (.ok (), t₀))
    (h : StoppedAt t₀ t₁ t' e done failing) : StoppedAt t t₁ t' e (s :: done) failing := by
  have hran : CxxM.exec (execSteps (s :: done)) t = (.ok (), t₁) := by
    rw [execSteps, CxxM.exec_bind_ok hstep]
    exact h.ran
  obtain ⟨hwrites, hwrote⟩ := execSteps_ok hran
  exact ⟨hran, hwrites, hwrote, h.raised, h.kept⟩

/-- A run that fails stops at one of its steps. By induction on the steps, until the first that
raises. -/
theorem execSteps_error {steps : List Step} {e : Abort} :
    ∀ {t t' : CSTableWriter}, CxxM.exec (execSteps steps) t = (.error e, t') →
      ∃ done failing rest t₁, steps = done ++ failing :: rest ∧
        StoppedAt t t₁ t' e done failing := by
  induction steps with
  | nil =>
    intro t t' h
    cases h
  | cons s ss ih =>
    intro t t' h
    -- the failing step is this one, or one behind it
    rcases exec_step s t with ⟨hok, hwrites, hwrote⟩ | ⟨⟨e', herror⟩, hwrote⟩
    · have hstep : CxxM.exec s.exec t = (.ok (), (CxxM.exec s.exec t).2) := Prod.ext hok rfl
      have hrest : CxxM.exec (execSteps ss) (CxxM.exec s.exec t).2 = (.error e, t') := by
        rw [execSteps, CxxM.exec_bind_ok hstep] at h
        exact h
      obtain ⟨done, failing, rest, t₁, rfl, hstopped⟩ := ih hrest
      exact ⟨s :: done, failing, rest, t₁, rfl, hstopped.cons hstep⟩
    · have hstep : CxxM.exec s.exec t = (.error e', (CxxM.exec s.exec t).2) :=
        Prod.ext herror rfl
      rw [execSteps, CxxM.exec_bind_error hstep] at h
      cases h
      have hran : CxxM.exec (execSteps []) t = (.ok (), t) := rfl
      obtain ⟨hwrites, hnone⟩ := execSteps_ok hran
      exact ⟨[], s, ss, t, rfl, hran, hwrites, hnone, hstep, hwrote⟩

end RecordShredder

end CStable
