import CStable.Proofs.TypedViews
import CStable.RecordMaterializer
import CStable.Support.Striping

/-!
# `CStable.Proofs.SkipRecord`: reading and skipping records

The entries of a column fall into records, one for each entry with the repetition
level zero. `loadColumn` and `skipRecord` consume the entries of one record and leave
the first of the next one pending, so the columns stay together whichever of the two
is called (`runCalls_eq`), and what `nextRecord` returns is put together from the
entries of its own record (`assembleRecord`).

* `Before`: the entries a column has not consumed yet; one of them may be pending.
* `skipEntries_spec`: one record, by induction over its entries.
* `EntryReader`: a reader that returns the entries it is given.
-/

set_option autoImplicit false

namespace CStable.RecordMaterializer

open AbstractColumnReader
open Support.Striping (Entry)

/-! ### What a reader returns -/

/-- The value of an entry, by the function it is read with. -/
inductive Value where
  | uint (value : UInt64)
  | sint (value : Int64)
  | str (value : Bytes)
  | float (value : UInt64)
  deriving DecidableEq, Repr

/-- The entry of what a read function stores; the value only where it returns true. -/
def entryOf {α : Type} (f : α → Value) (v : v1.View α) : Entry Value :=
  ⟨v.rlvl, v.dlvl, if v.defined then some (f v.value) else none⟩

variable {ρ : Type} [AbstractColumnReader ρ]

/-- The next entry, read with the function for a type. -/
def readFor (type : ColumnType) (reader : ρ) : Result (Entry Value × ρ) :=
  match type with
  | .SUBRECORD => RAISE .kIllegalStateError ""
  | .BOOLEAN | .UNSIGNED_INT | .DATETIME =>
    (readUnsignedInt reader).map fun (v, reader) => (entryOf .uint v, reader)
  | .SIGNED_INT => (readSignedInt reader).map fun (v, reader) => (entryOf .sint v, reader)
  | .STRING =>
    (AbstractColumnReader.readString reader).map fun (v, reader) => (entryOf .str v, reader)
  | .FLOAT => (readFloat reader).map fun (v, reader) => (entryOf .float v, reader)

/-- The reader of a column with the maximal repetition level `rmax` returns the entries
and is at its end then. -/
def Returns (type : ColumnType) (rmax : Nat) : ρ → List (Entry Value) → Prop
  | reader, [] => maxRepetitionLevel reader = rmax ∧ eofReached reader = true
  | reader, e :: es => maxRepetitionLevel reader = rmax ∧ eofReached reader = false ∧
    ∃ reader', readFor type reader = .ok (e, reader') ∧ Returns type rmax reader' es

/-- The maximum of the repetition levels is that of the column. -/
theorem Returns.rmax {type : ColumnType} {rmax : Nat} {reader : ρ} {es : List (Entry Value)}
    (h : Returns type rmax reader es) : maxRepetitionLevel reader = rmax := by
  cases es <;> exact h.1

/-- The reader is at its end exactly when there are no entries left. -/
theorem Returns.eofReached {type : ColumnType} {rmax : Nat} {reader : ρ}
    {es : List (Entry Value)} (h : Returns type rmax reader es) :
    AbstractColumnReader.eofReached reader = es.isEmpty := by
  cases es with
  | nil => exact h.2
  | cons e es => exact h.2.1

/-! ### The state of a column -/

/-- Where the entries of a column go, and how their addresses are counted. -/
structure Target where
  parents : List Parent
  field_id : UInt32
  field_type : ScalarType
  rmax : Nat

namespace ColumnState

/-- Where the entries of the column go. -/
def target (c : ColumnState ρ) : Target :=
  ⟨c.parents, c.field_id, c.field_type, maxRepetitionLevel c.reader⟩

/-- The value the column holds, by its type. -/
def value (c : ColumnState ρ) : Value :=
  match c.col_type with
  | .SUBRECORD | .BOOLEAN | .UNSIGNED_INT | .DATETIME => .uint c.val_uint
  | .SIGNED_INT => .sint c.val_sint
  | .STRING => .str c.val_str
  | .FLOAT => .float c.val_float

/-- The entry the column holds. -/
def entry (c : ColumnState ρ) : Entry Value :=
  ⟨c.r, c.d, if c.defined then some c.value else none⟩

end ColumnState

/-- The column has the entry pending, and `es` left in its reader. -/
structure Pending (c : ColumnState ρ) (e : Entry Value) (es : List (Entry Value)) : Prop where
  pending : c.pending = true
  type : c.col_type ≠ .SUBRECORD
  entry : c.entry = e
  reader : Returns c.col_type c.target.rmax c.reader es

/-- The entries the column has not consumed yet, the pending one first. -/
def Before (c : ColumnState ρ) (es : List (Entry Value)) : Prop :=
  c.pending = false ∧ Returns c.col_type c.target.rmax c.reader es ∨
    ∃ e es', es = e :: es' ∧ Pending c e es'

/-- The states belong to the same column. -/
structure SameColumn (c c' : ColumnState ρ) : Prop where
  target : c'.target = c.target
  col_type : c'.col_type = c.col_type

/-- The part of the state that no call changes stays the same over two of them. -/
theorem SameColumn.trans {c c' c'' : ColumnState ρ} (h : SameColumn c c') (h' : SameColumn c' c'') :
    SameColumn c c'' := ⟨h'.target.trans h.target, h'.col_type.trans h.col_type⟩

omit [AbstractColumnReader ρ] in
/-- An entry that was converted comes from a value that was read. The levels are not touched by
the conversion. -/
theorem map_entryOf {α : Type} {x : Result (v1.View α × ρ)} {f : α → Value} {e : Entry Value}
    {reader : ρ} (h : (x.map fun (v, reader) => (entryOf f v, reader)) = .ok (e, reader)) :
    ∃ v, x = .ok (v, reader) ∧ entryOf f v = e := by
  cases x with
  | error abort => cases h
  | ok p =>
    cases h
    exact ⟨p.1, rfl, rfl⟩

/-- A fetch makes the next entry the pending one. With an entry pending already it does
nothing. -/
theorem fetchIfNotPending_spec {c : ColumnState ρ} {e : Entry Value} {es : List (Entry Value)}
    (h : Before c (e :: es)) :
    ∃ c', c.fetchIfNotPending = .ok c' ∧ Pending c' e es ∧ SameColumn c c' := by
  rcases h with ⟨hpending, hmax, heof, reader', hread, hrest⟩ | ⟨e', es', heq, hpending⟩
  · obtain ⟨reader, r, d, pending, defined, parents, field_id, field_type, col_type, val_str,
      val_uint,
      val_sint, val_float⟩ := c
    dsimp only at hpending hread hrest
    subst hpending
    have htarget : maxRepetitionLevel reader' = maxRepetitionLevel reader := hrest.rmax
    unfold ColumnState.fetchIfNotPending
    rw [if_neg Bool.false_ne_true]
    -- one case for each type, with the read function for it
    cases col_type
    case SUBRECORD => cases hread
    all_goals
      obtain ⟨v, hx, rfl⟩ := map_entryOf hread
      dsimp only
      rw [hx, Result.ok_bind]
      refine ⟨_, rfl, ⟨rfl, ColumnType.noConfusion, rfl, ?_⟩, ?_, rfl⟩
      · show Returns _ (maxRepetitionLevel reader') reader' es
        rw [htarget]
        exact hrest
      · unfold ColumnState.target
        dsimp only
        rw [htarget]
  · obtain ⟨rfl, rfl⟩ := List.cons.inj heq
    refine ⟨c, ?_, hpending, rfl, rfl⟩
    unfold ColumnState.fetchIfNotPending
    rw [hpending.pending, if_pos rfl]

/-- What is consumed is no longer pending, and the entries behind it come next. A record ends at
an entry that is fetched and not consumed. -/
theorem Pending.before_consume {c : ColumnState ρ} {e : Entry Value} {es : List (Entry Value)}
    (h : Pending c e es) : Before c.consume es := Or.inl ⟨rfl, h.reader⟩

/-- A pending entry is the next one of the column. -/
theorem Pending.before {c : ColumnState ρ} {e : Entry Value} {es : List (Entry Value)}
    (h : Pending c e es) : Before c (e :: es) := Or.inr ⟨e, es, rfl, h⟩

/-! ### Putting a record together from entries -/

/-- `getUnsignedInteger` of a column that holds the value. -/
def Value.toUnsignedInteger (ops : DoubleOps) : Value → Result UInt64
  | .uint v => .ok v
  | .sint v => .ok v.toUInt64
  | .str v => stoull v
  | .float v => .ok (UInt64.ofNat (ops.toUInt64 v.toNat))

/-- `getString` of a column that holds the value. -/
def Value.toStr (ops : DoubleOps) : Value → Result Bytes
  | .uint v => .ok (toText v.toNat)
  | .sint v => .ok (toTextSigned v)
  | .str v => .ok v
  | .float v => .ok (ops.toText v.toNat)

/-- `getFloat` of a column that holds the value. -/
def Value.toDouble (ops : DoubleOps) : Value → Result UInt64
  | .uint v => .ok (UInt64.ofNat (ops.ofUInt64 v.toNat))
  | .sint v => .ok (UInt64.ofNat (ops.ofInt64 v))
  | .str v => (ops.stod v).map UInt64.ofNat
  | .float v => .ok v

/-- The value of a field of the type. -/
def Value.toField (ops : DoubleOps) (type : ScalarType) (v : Value) : Result ScalarValue :=
  match type with
  | ⟨.OBJECT, h⟩ => absurd rfl h
  | ⟨.UINT32, _⟩ => (v.toUnsignedInteger ops).map fun v => .uint32 v.toUInt32
  | ⟨.UINT64, _⟩ => (v.toUnsignedInteger ops).map .uint64
  | ⟨.DATETIME, _⟩ => (v.toUnsignedInteger ops).map .dateTime
  | ⟨.STRING, _⟩ => (v.toStr ops).map .string
  | ⟨.BOOLEAN, _⟩ => (v.toUnsignedInteger ops).map fun v => .boolean (v == 1)
  | ⟨.DOUBLE, _⟩ => (v.toDouble ops).map .double

omit [AbstractColumnReader ρ] in
/-- The value of a column goes to its field by the type of the field. -/
theorem fieldValue_eq (ops : DoubleOps) {c : ColumnState ρ} (h : c.col_type ≠ .SUBRECORD) :
    c.fieldValue ops = c.value.toField ops c.field_type := by
  have hget : c.getUnsignedInteger ops = c.value.toUnsignedInteger ops ∧
      c.getString ops = c.value.toStr ops ∧ c.getFloat ops = c.value.toDouble ops := by
    unfold ColumnState.getUnsignedInteger ColumnState.getString ColumnState.getFloat
      ColumnState.value
    cases htype : c.col_type
    case SUBRECORD => exact absurd htype h
    all_goals exact ⟨rfl, rfl, rfl⟩
  obtain ⟨hunsigned, hstring, hfloat⟩ := hget
  unfold ColumnState.fieldValue Value.toField
  cases c.field_type with
  | mk type htype => cases type <;> simp only [hunsigned, hstring, hfloat]

/-- Insert an entry at the indexes. -/
def insertEntry (ops : DoubleOps) (t : Target) (e : Entry Value) (indexes : List Nat)
    (record : MessageObject) : Result MessageObject :=
  match e.value with
  | some v =>
    insertAt (fun _ => true)
      (fun record => do
        let value ← v.toField ops t.field_type
        record.addChild (.scalar t.field_id value))
      t.parents indexes record
  | none => insertAt (fun parent => !decide (parent.dmax > e.d)) .ok t.parents indexes record

/-- Insert the entries of a record, counting their indexes. -/
def assembleEntries (ops : DoubleOps) (t : Target) :
    List (Entry Value) → List Nat → MessageObject → Result MessageObject
  | [], _, record => .ok record
  | e :: es, indexes, record => do
    let indexes ← countUp e.r indexes
    let record ← insertEntry ops t e indexes record
    assembleEntries ops t es indexes record

/-- The pending entry is inserted as one of the column, a value or a null. -/
theorem Pending.insert_eq {c : ColumnState ρ} {e : Entry Value} {es : List (Entry Value)}
    (h : Pending c e es) (ops : DoubleOps) (indexes : List Nat) (record : MessageObject) :
    (if c.defined then insertValue ops c indexes record else insertNull c indexes record) =
      insertEntry ops c.target e indexes record := by
  obtain rfl := h.entry
  unfold insertEntry ColumnState.entry insertValue insertNull
  cases c.defined with
  | true =>
    rw [fieldValue_eq ops h.type]
    rfl
  | false => rfl

/-- A record starts with the repetition level zero, which does not occur in it again. -/
def IsRecord (es : List (Entry Value)) : Prop :=
  ∃ e tail, es = e :: tail ∧ e.r = 0 ∧ ∀ x ∈ tail, 0 < x.r

/-- A round of `skipRecord` whose entry is fetched: it stops at the end of the column or at the
next record. -/
theorem skipEntries_succ {c c₁ : ColumnState ρ} {e : Entry Value} {es : List (Entry Value)}
    (hfetch : c.fetchIfNotPending = .ok c₁) (h : Pending c₁ e es) (fuel : Nat) :
    skipEntries (fuel + 1) c =
      if es.isEmpty then .ok c₁.consume
      else c₁.consume.fetchIfNotPending >>= fun c₂ =>
        if c₂.r = 0 then .ok c₂ else skipEntries fuel c₂ := by
  rw [skipEntries, hfetch, Result.ok_bind]
  dsimp only
  rw [show eofReached c₁.consume.reader = es.isEmpty from h.reader.eofReached]

/-- A round of `loadColumn` whose entry is fetched: it counts the entry, inserts it, and stops
where a round of `skipRecord` does. -/
theorem loadEntries_succ {c c₁ : ColumnState ρ} {e : Entry Value} {es : List (Entry Value)}
    (hfetch : c.fetchIfNotPending = .ok c₁) (h : Pending c₁ e es) (ops : DoubleOps) (fuel : Nat)
    (indexes : List Nat) (record : MessageObject) :
    loadEntries ops (fuel + 1) c indexes record = (do
      let indexes ← countUp e.r indexes
      let record ← insertEntry ops c₁.target e indexes record
      if es.isEmpty then .ok (c₁.consume, record)
      else c₁.consume.fetchIfNotPending >>= fun c₂ =>
        if c₂.r = 0 then .ok (c₂, record) else loadEntries ops fuel c₂ indexes record) := by
  have hr : c₁.r = e.r := congrArg Entry.r h.entry
  rw [loadEntries, hfetch, Result.ok_bind, hr]
  refine bind_congr fun indexes => ?_
  rw [h.insert_eq]
  dsimp only
  rw [show eofReached c₁.consume.reader = es.isEmpty from h.reader.eofReached]

/-- A round of `loadColumn` in front of others. It assembles its entry, and what the round does
after that is to assemble the entries behind it. -/
theorem loadEntries_cons {c c₁ c' : ColumnState ρ} {e : Entry Value} {es tail : List (Entry Value)}
    (hfetch : c.fetchIfNotPending = .ok c₁) (h : Pending c₁ e es) (htarget : c₁.target = c.target)
    {ops : DoubleOps} {fuel : Nat}
    (hrest : ∀ indexes record,
      (if es.isEmpty then .ok (c₁.consume, record)
        else c₁.consume.fetchIfNotPending >>= fun c₂ =>
          if c₂.r = 0 then .ok (c₂, record) else loadEntries ops fuel c₂ indexes record) =
        (assembleEntries ops c.target tail indexes record).map (Prod.mk c'))
    (indexes : List Nat) (record : MessageObject) :
    loadEntries ops (fuel + 1) c indexes record =
      (assembleEntries ops c.target (e :: tail) indexes record).map (Prod.mk c') := by
  rw [loadEntries_succ hfetch h, assembleEntries, htarget]
  cases countUp e.r indexes with
  | error abort => rfl
  | ok indexes =>
    rw [Result.ok_bind, Result.ok_bind]
    cases insertEntry ops c.target e indexes record with
    | error abort => rfl
    | ok record =>
      rw [Result.ok_bind, Result.ok_bind]
      exact hrest indexes record

/-- One record: `skipRecord` and `loadColumn` stop at the same place, and the one that
loads inserts the entries it consumes. -/
theorem skipEntries_spec {tail : List (Entry Value)} :
    ∀ {c : ColumnState ρ} {e : Entry Value} {rest : List (Entry Value)},
      (∀ x ∈ tail, 0 < x.r) → (∀ x ∈ rest.head?, x.r = 0) → Before c (e :: (tail ++ rest)) →
      ∃ c', Before c' rest ∧ SameColumn c c' ∧ ∀ fuel, tail.length ≤ fuel →
        skipEntries (fuel + 1) c = .ok c' ∧ ∀ ops indexes record,
          loadEntries ops (fuel + 1) c indexes record =
            (assembleEntries ops c.target (e :: tail) indexes record).map (Prod.mk c') := by
  induction tail with
  | nil =>
    intro c e rest _ hrest h
    obtain ⟨c₁, hfetch, hpending, hsame⟩ := fetchIfNotPending_spec h
    -- the next entry, if there is one, starts another record
    cases rest with
    | nil =>
      refine ⟨c₁.consume, hpending.before_consume, ⟨hsame.target, hsame.col_type⟩,
        fun fuel _ => ⟨skipEntries_succ hfetch hpending fuel, fun ops indexes record => ?_⟩⟩
      exact loadEntries_cons hfetch hpending hsame.target (fun _ _ => rfl) indexes record
    | cons x xs =>
      obtain ⟨c₂, hfetch₂, hpending₂, hsame₂⟩ :=
        fetchIfNotPending_spec hpending.before_consume
      have hr : c₂.r = 0 := (congrArg Entry.r hpending₂.entry).trans (hrest x rfl)
      refine ⟨c₂, hpending₂.before, hsame.trans ⟨hsame₂.target, hsame₂.col_type⟩,
        fun fuel _ => ⟨?_, fun ops indexes record => ?_⟩⟩
      · rw [skipEntries_succ hfetch hpending, hfetch₂]
        exact if_pos hr
      · refine loadEntries_cons hfetch hpending hsame.target (fun _ record => ?_) indexes record
        rw [hfetch₂]
        exact if_pos hr
  | cons x tail ih =>
    intro c e rest htail hrest h
    obtain ⟨c₁, hfetch, hpending, hsame⟩ := fetchIfNotPending_spec h
    obtain ⟨c₂, hfetch₂, hpending₂, hsame₂⟩ := fetchIfNotPending_spec hpending.before_consume
    have hr : c₂.r ≠ 0 := by
      have hx := htail x List.mem_cons_self
      rw [← congrArg Entry.r hpending₂.entry] at hx
      exact Nat.pos_iff_ne_zero.mp hx
    obtain ⟨c', hbefore, hsame', hrun⟩ := ih (fun y hy => htail y (List.mem_cons_of_mem x hy))
      hrest hpending₂.before
    have htarget : c₂.target = c.target := hsame₂.target.trans hsame.target
    refine ⟨c', hbefore, hsame.trans (SameColumn.trans ⟨hsame₂.target, hsame₂.col_type⟩ hsame'),
      fun fuel hfuel => ?_⟩
    obtain ⟨fuel, rfl⟩ := Nat.exists_eq_succ_of_ne_zero (Nat.ne_of_gt (Nat.lt_of_lt_of_le
      (Nat.succ_pos _) hfuel))
    obtain ⟨hskip, hload⟩ := hrun fuel (Nat.le_of_succ_le_succ hfuel)
    refine ⟨?_, fun ops indexes record => ?_⟩
    · rw [skipEntries_succ hfetch hpending, hfetch₂]
      exact (if_neg hr).trans hskip
    · refine loadEntries_cons hfetch hpending hsame.target (fun indexes record => ?_) indexes record
      rw [hfetch₂]
      refine (if_neg hr).trans ?_
      rw [hload, htarget]

/-! ### Records of all columns -/

/-- The columns have `n` records left, given by their entries. -/
structure HoldsRecords (m : RecordMaterializer ρ) (n : Nat)
    (streams : List (List (List (Entry Value)))) : Prop where
  columns : List.Forall₂ (fun c stream => Before c.2 stream.flatten) m.columns_ streams
  length : ∀ stream ∈ streams, stream.length = n
  records : ∀ stream ∈ streams, ∀ es ∈ stream, IsRecord es

/-- Where the columns go. -/
def targets (m : RecordMaterializer ρ) : List Target := m.columns_.map fun c => c.2.target

/-- The entries of the record at a position, with the targets of their columns. -/
def recordAt (targets : List Target) (streams : List (List (List (Entry Value)))) (k : Nat) :
    List (Target × List (Entry Value)) :=
  List.zipWith (fun t stream => (t, stream.getD k [])) targets streams

/-- Insert the entries of one column after the other. -/
def assembleRecord (ops : DoubleOps) :
    List (Target × List (Entry Value)) → MessageObject → Result MessageObject
  | [], record => .ok record
  | (t, es) :: columns, record => do
    let record ← assembleEntries ops t es (List.replicate t.rmax 0) record
    assembleRecord ops columns record

/-- A fuel that is enough for every record. -/
def Enough (streams : List (List (List (Entry Value)))) (fuel : Nat) : Prop :=
  ∀ stream ∈ streams, ∀ es ∈ stream, es.length ≤ fuel

/-- The record of one column, skipped or loaded: the same entries are consumed. Only whether
they are inserted differs. -/
theorem skipColumn_spec {c : ColumnState ρ} {es : List (Entry Value)}
    {stream : List (List (Entry Value))} (h : Before c (es :: stream).flatten) (hes : IsRecord es)
    (hstream : ∀ es ∈ stream, IsRecord es) :
    ∃ c', Before c' stream.flatten ∧ SameColumn c c' ∧ ∀ fuel, es.length ≤ fuel →
      skipEntries fuel c = .ok c' ∧ ∀ ops record, loadColumn ops fuel c record =
        (assembleEntries ops c.target es (List.replicate c.target.rmax 0) record).map
          (Prod.mk c') := by
  obtain ⟨e, tail, rfl, -, htail⟩ := hes
  -- what follows the record, if anything does, is the start of another one
  have hhead : ∀ x ∈ stream.flatten.head?, x.r = 0 := by
    intro x hx
    cases stream with
    | nil => cases hx
    | cons es' stream =>
      obtain ⟨e', tail', rfl, he', -⟩ := hstream es' List.mem_cons_self
      cases hx
      exact he'
  obtain ⟨c', hbefore, hsame, hrun⟩ := skipEntries_spec htail hhead h
  refine ⟨c', hbefore, hsame, fun fuel hfuel => ?_⟩
  obtain ⟨fuel, rfl⟩ : ∃ n, fuel = n + 1 := Nat.exists_eq_succ_of_ne_zero (by
    rintro rfl
    cases hfuel)
  obtain ⟨hskip, hload⟩ := hrun fuel (Nat.le_of_succ_le_succ hfuel)
  exact ⟨hskip, fun ops record => hload ops _ record⟩

/-- One record of all columns: the loop of `skipRecord` leaves them as the one of
`nextRecord` does. -/
theorem skipColumns_spec {columns_ : List (Bytes × ColumnState ρ)}
    {streams : List (List (List (Entry Value)))}
    (h : List.Forall₂ (fun c stream => Before c.2 stream.flatten) columns_ streams) :
    (∀ stream ∈ streams, stream ≠ []) → (∀ stream ∈ streams, ∀ es ∈ stream, IsRecord es) →
    ∃ columns', List.Forall₂ (fun c stream => Before c.2 stream.flatten) columns'
        (streams.map List.tail) ∧
      columns'.map (fun c => c.2.target) = columns_.map (fun c => c.2.target) ∧
      ∀ fuel, Enough streams fuel → skipColumns fuel columns_ = .ok columns' ∧
        ∀ ops record, loadColumns ops fuel columns_ record =
          (assembleRecord ops (recordAt (columns_.map fun c => c.2.target) streams 0) record).map
            (Prod.mk columns') := by
  induction h with
  | nil =>
    intro _ _
    exact ⟨[], .nil, rfl, fun fuel _ => ⟨rfl, fun ops record => rfl⟩⟩
  | @cons c stream columns_ streams hc _ ih =>
    intro hne hrecords
    obtain ⟨es, stream, rfl⟩ := List.exists_cons_of_ne_nil (hne stream List.mem_cons_self)
    have hstream := hrecords _ List.mem_cons_self
    obtain ⟨c', hbefore, hsame, hrun⟩ := skipColumn_spec hc (hstream es List.mem_cons_self)
      fun es' hes' => hstream es' (List.mem_cons_of_mem es hes')
    obtain ⟨columns', hall, htargets, hruns⟩ := ih
      (fun s hs => hne s (List.mem_cons_of_mem _ hs))
      fun s hs => hrecords s (List.mem_cons_of_mem _ hs)
    refine ⟨(c.1, c') :: columns', .cons hbefore hall, ?_, fun fuel hfuel => ?_⟩
    · rw [List.map_cons, List.map_cons, htargets, hsame.target]
    · obtain ⟨hskip, hload⟩ := hrun fuel (hfuel _ List.mem_cons_self es List.mem_cons_self)
      obtain ⟨hskips, hloads⟩ := hruns fuel fun s hs => hfuel s (List.mem_cons_of_mem _ hs)
      obtain ⟨name, c⟩ := c
      refine ⟨?_, fun ops record => ?_⟩
      · rw [skipColumns, hskip, Result.ok_bind, hskips]
        rfl
      · rw [loadColumns, hload]
        show _ = (assembleRecord ops ((c.target, es) :: recordAt _ streams 0) record).map _
        rw [assembleRecord]
        dsimp only
        -- a conversion that fails ends the load of every later column
        cases assembleEntries ops c.target es (List.replicate c.target.rmax 0) record with
        | error abort => rfl
        | ok out =>
          show (loadColumns ops fuel columns_ out >>= _) = Except.map _ (assembleRecord ops _ out)
          rw [hloads]
          cases assembleRecord ops (recordAt (columns_.map fun c => c.2.target) streams 0) out <;>
            rfl

/-- One record: `skipRecord` leaves the materializer as `nextRecord` does. What it would have
returned is put together from the entries that are consumed. -/
theorem skipRecord_spec {m : RecordMaterializer ρ} {n : Nat}
    {streams : List (List (List (Entry Value)))} (h : HoldsRecords m (n + 1) streams) :
    ∃ m', HoldsRecords m' n (streams.map List.tail) ∧ m'.targets = m.targets ∧
      ∀ fuel, Enough streams fuel → skipRecord fuel m = .ok m' ∧ ∀ ops record,
        nextRecord ops fuel m record =
          (assembleRecord ops (recordAt m.targets streams 0) record).map (Prod.mk m') := by
  have hne : ∀ stream ∈ streams, stream ≠ [] := by
    rintro stream hstream rfl
    cases h.length [] hstream
  obtain ⟨columns', hbefore, htargets, hrun⟩ := skipColumns_spec h.columns hne h.records
  refine ⟨⟨columns'⟩, ⟨hbefore, ?_, ?_⟩, htargets, fun fuel hfuel => ?_⟩
  · intro stream' hstream'
    obtain ⟨stream, hstream, rfl⟩ := List.mem_map.mp hstream'
    rw [List.length_tail, h.length stream hstream, Nat.add_sub_cancel]
  · intro stream' hstream' es hes
    obtain ⟨stream, hstream, rfl⟩ := List.mem_map.mp hstream'
    exact h.records stream hstream es (List.mem_of_mem_tail hes)
  · obtain ⟨hskip, hload⟩ := hrun fuel hfuel
    refine ⟨?_, fun ops record => ?_⟩
    · unfold skipRecord
      rw [hskip]
      rfl
    · unfold nextRecord targets
      rw [hload]
      cases assembleRecord ops (recordAt (m.columns_.map fun c => c.2.target) streams 0) record <;>
        rfl

/-- A record further on is one of the streams without their first record. So a run of calls
moves along the streams. -/
theorem recordAt_succ (targets : List Target) (streams : List (List (List (Entry Value))))
    (k : Nat) : recordAt targets streams (k + 1) = recordAt targets (streams.map List.tail) k := by
  unfold recordAt
  rw [List.zipWith_map_right]
  congr 1
  funext t stream
  cases stream <;> rfl

/-- The states of a materializer after each of its records. By induction on the number of
records. -/
theorem exists_states {n : Nat} :
    ∀ {m : RecordMaterializer ρ} {streams : List (List (List (Entry Value)))},
      HoldsRecords m n streams →
      ∃ state : Nat → RecordMaterializer ρ, state 0 = m ∧ ∀ k < n, ∀ fuel, Enough streams fuel →
        skipRecord fuel (state k) = .ok (state (k + 1)) ∧ ∀ ops record,
          nextRecord ops fuel (state k) record =
            (assembleRecord ops (recordAt m.targets streams k) record).map
              (Prod.mk (state (k + 1))) := by
  induction n with
  | zero =>
    intro m streams _
    exact ⟨fun _ => m, rfl, fun k hk => absurd hk (Nat.not_lt_zero k)⟩
  | succ n ih =>
    intro m streams h
    obtain ⟨m', h', htargets, hrun⟩ := skipRecord_spec h
    obtain ⟨state, hzero, hstate⟩ := ih h'
    refine ⟨fun k => Nat.casesOn k m state, rfl, fun k hk fuel hfuel => ?_⟩
    cases k with
    | zero =>
      show skipRecord fuel m = .ok (state 0) ∧ ∀ ops record, nextRecord ops fuel m record =
        (assembleRecord ops (recordAt m.targets streams 0) record).map (Prod.mk (state 0))
      rw [hzero]
      exact hrun fuel hfuel
    | succ k =>
      have henough : Enough (streams.map List.tail) fuel := by
        intro stream' hstream' es hes
        obtain ⟨stream, hstream, rfl⟩ := List.mem_map.mp hstream'
        exact hfuel stream hstream es (List.mem_of_mem_tail hes)
      have hk' := hstate k (Nat.lt_of_succ_lt_succ hk) fuel henough
      rw [htargets, ← recordAt_succ] at hk'
      exact hk'

/-! ### Sequences of calls -/

/-- A call of a client. -/
inductive Call where
  | next (record : MessageObject)
  | skip

/-- Calls one after the other, with the records that were read. -/
def runCalls (ops : DoubleOps) (fuel : Nat) :
    List Call → RecordMaterializer ρ → Result (RecordMaterializer ρ × List (Option MessageObject))
  | [], m => .ok (m, [])
  | .next record :: calls, m => do
    let (m, out) ← nextRecord ops fuel m record
    let (m, outs) ← runCalls ops fuel calls m
    .ok (m, some out :: outs)
  | .skip :: calls, m => do
    let m ← skipRecord fuel m
    let (m, outs) ← runCalls ops fuel calls m
    .ok (m, none :: outs)

/-- States a materializer goes through, one record after the other. -/
def Visits (ops : DoubleOps) (fuel : Nat) (n : Nat)
    (record : Nat → List (Target × List (Entry Value)))
    (state : Nat → RecordMaterializer ρ) : Prop :=
  ∀ k < n, skipRecord fuel (state k) = .ok (state (k + 1)) ∧ ∀ out,
    nextRecord ops fuel (state k) out =
      (assembleRecord ops (record k) out).map (Prod.mk (state (k + 1)))

/-- Skips alone succeed, and lead from state to state. By induction on the number of skips. -/
theorem runCalls_skip {ops : DoubleOps} {fuel n : Nat}
    {record : Nat → List (Target × List (Entry Value))} {state : Nat → RecordMaterializer ρ}
    (h : Visits ops fuel n record state) (j : Nat) :
    ∀ k, k + j ≤ n → runCalls ops fuel (List.replicate j .skip) (state k) =
      .ok (state (k + j), List.replicate j none) := by
  induction j with
  | zero =>
    intro k _
    rfl
  | succ j ih =>
    intro k hk
    have hrest := ih (k + 1) (by omega)
    rw [List.replicate_succ, runCalls, (h k (by omega)).1, Result.ok_bind, hrest,
      Nat.add_right_comm]
    rfl

/-- The first of several calls that succeed. The rest of them run from the next state, and any
other calls that do so give their results behind the one of the first. -/
theorem Visits.first_call {ops : DoubleOps} {fuel n : Nat}
    {record : Nat → List (Target × List (Entry Value))} {state : Nat → RecordMaterializer ρ}
    (h : Visits ops fuel n record state) {call : Call} {calls : List Call} {k : Nat} (hk : k < n)
    {m' : RecordMaterializer ρ} {outs : List (Option MessageObject)}
    (hrun : runCalls ops fuel (call :: calls) (state k) = .ok (m', outs)) :
    ∃ first outs', outs = first :: outs' ∧
      runCalls ops fuel calls (state (k + 1)) = .ok (m', outs') ∧
      (∀ rest m'' outs'', runCalls ops fuel rest (state (k + 1)) = .ok (m'', outs'') →
        runCalls ops fuel (call :: rest) (state k) = .ok (m'', first :: outs'')) ∧
      ∀ o, call = .next o → ∃ out, first = some out ∧
        assembleRecord ops (record k) o = .ok out := by
  obtain ⟨hskip, hnext⟩ := h k hk
  cases call with
  | skip =>
    rw [runCalls, hskip, Result.ok_bind] at hrun
    obtain ⟨⟨m₁, outs₁⟩, hrest, hret⟩ := Result.bind_eq_ok.mp hrun
    cases hret
    refine ⟨none, outs₁, rfl, hrest, fun rest m'' outs'' hrun' => ?_, fun o ho => ?_⟩
    · rw [runCalls, hskip, Result.ok_bind, hrun']
      rfl
    · cases ho
  | next o =>
    rw [runCalls, hnext] at hrun
    cases hout : assembleRecord ops (record k) o with
    | error abort =>
      rw [hout] at hrun
      cases hrun
    | ok out =>
      rw [hout] at hrun
      change (runCalls ops fuel calls (state (k + 1)) >>= _) = _ at hrun
      obtain ⟨⟨m₁, outs₁⟩, hrest, hret⟩ := Result.bind_eq_ok.mp hrun
      cases hret
      refine ⟨some out, outs₁, rfl, hrest, fun rest m'' outs'' hrun' => ?_, fun o' ho' => ?_⟩
      · rw [runCalls, hnext, hout]
        show (runCalls ops fuel rest (state (k + 1)) >>= _) = _
        rw [hrun']
        rfl
      · cases ho'
        exact ⟨out, rfl, hout⟩

/-- A run that does not raise goes through the states, whatever the calls are, and what
it reads at a position is put together from the entries of the record there. -/
theorem runCalls_visits {ops : DoubleOps} {fuel n : Nat}
    {record : Nat → List (Target × List (Entry Value))} {state : Nat → RecordMaterializer ρ}
    (h : Visits ops fuel n record state) {calls : List Call} :
    ∀ {k : Nat} {m' : RecordMaterializer ρ} {outs : List (Option MessageObject)},
      k + calls.length ≤ n → runCalls ops fuel calls (state k) = .ok (m', outs) →
      (∀ j ≤ calls.length,
        runCalls ops fuel (calls.take j) (state k) = .ok (state (k + j), outs.take j)) ∧
      ∀ i o, calls[i]? = some (.next o) →
        ∃ out, outs[i]? = some (some out) ∧ assembleRecord ops (record (k + i)) o = .ok out := by
  induction calls with
  | nil =>
    intro k m' outs _ _
    refine ⟨fun j hj => ?_, fun i o hi => ?_⟩
    · obtain rfl := Nat.le_zero.mp hj
      rfl
    · cases hi
  | cons call calls ih =>
    intro k m' outs hk hrun
    rw [List.length_cons] at hk
    obtain ⟨first, outs', rfl, hrest, hcons, hfirst⟩ := h.first_call (by omega) hrun
    obtain ⟨htake, hread⟩ := ih (k := k + 1) (by omega) hrest
    refine ⟨fun j hj => ?_, fun i o hi => ?_⟩
    · cases j with
      | zero => rfl
      | succ j =>
        have hj' := htake j (Nat.le_of_succ_le_succ hj)
        rw [Nat.add_right_comm] at hj'
        exact hcons _ _ _ hj'
    · cases i with
      | zero =>
        obtain ⟨out, rfl, hout⟩ := hfirst o (Option.some.inj hi)
        exact ⟨out, rfl, hout⟩
      | succ i =>
        obtain ⟨out, hget, hout⟩ := hread i o hi
        rw [Nat.add_right_comm] at hout
        exact ⟨out, hget, hout⟩

/-- Skipping a record consumes what reading it consumes. There is one state after `k`
records, which skips reach and every other run of `k` calls that does not raise reaches
as well; the record read at a position is put together from the entries of that record,
whichever of those before it were read. -/
theorem skipRecord_inStep (ops : DoubleOps) {m : RecordMaterializer ρ} {n : Nat}
    {streams : List (List (List (Entry Value)))} (h : HoldsRecords m n streams) {fuel : Nat}
    (hfuel : Enough streams fuel) :
    ∃ state : Nat → RecordMaterializer ρ, state 0 = m ∧
      (∀ k ≤ n, runCalls ops fuel (List.replicate k .skip) m =
        .ok (state k, List.replicate k none)) ∧
      (∀ k < n, ∀ record, nextRecord ops fuel (state k) record =
        (assembleRecord ops (recordAt m.targets streams k) record).map
          (Prod.mk (state (k + 1)))) ∧
      ∀ calls m' outs, calls.length ≤ n → runCalls ops fuel calls m = .ok (m', outs) →
        (∀ j ≤ calls.length,
          runCalls ops fuel (calls.take j) m = .ok (state j, outs.take j)) ∧
        ∀ k record, calls[k]? = some (.next record) → ∃ out, outs[k]? = some (some out) ∧
          assembleRecord ops (recordAt m.targets streams k) record = .ok out := by
  obtain ⟨state, rfl, hstate⟩ := exists_states h
  have hvisits : Visits ops fuel n (recordAt (state 0).targets streams) state := fun k hk =>
    ⟨(hstate k hk fuel hfuel).1, (hstate k hk fuel hfuel).2 ops⟩
  refine ⟨state, rfl, fun k hk => ?_, fun k hk => (hvisits k hk).2,
    fun calls m' outs hcalls hrun => ?_⟩
  · have hskips := runCalls_skip hvisits k 0 (by omega)
    rwa [Nat.zero_add] at hskips
  · obtain ⟨htake, hread⟩ := runCalls_visits hvisits (by omega) hrun
    refine ⟨fun j hj => ?_, fun k record hk => ?_⟩
    · rw [htake j hj, Nat.zero_add]
    · obtain ⟨out, hout⟩ := hread k record hk
      rw [Nat.zero_add] at hout
      exact ⟨out, hout⟩

/-! ### A column that is its entries -/

/-- A column reader that holds the entries it has not returned yet. -/
structure EntryReader where
  type : ColumnType
  rmax : Nat
  entries : List (Entry Value)
  deriving DecidableEq, Repr

namespace EntryReader

/-- A read function, with the values it can return and the one it stores for a null. -/
def read {α : Type} (ofValue : Value → Option α) (default : α) (reader : EntryReader) :
    Result (v1.View α × EntryReader) :=
  match reader.entries with
  | [] => RAISE .kRuntimeError ""
  | e :: entries =>
    match e.value with
    | none => .ok (⟨e.r, e.d, default, false⟩, { reader with entries })
    | some value =>
      match ofValue value with
      | none => RAISE .kRuntimeError ""
      | some value => .ok (⟨e.r, e.d, value, true⟩, { reader with entries })

/-- The value as one of each kind. -/
def uint? : Value → Option UInt64
  | .uint v => some v
  | _ => none

def sint? : Value → Option Int64
  | .sint v => some v
  | _ => none

def str? : Value → Option Bytes
  | .str v => some v
  | _ => none

def float? : Value → Option UInt64
  | .float v => some v
  | _ => none

instance : AbstractColumnReader EntryReader where
  type := type
  maxRepetitionLevel := rmax
  eofReached reader := reader.entries.isEmpty
  readUnsignedInt := read uint? 0
  readSignedInt := read sint? 0
  readFloat := read float? 0
  readString := read str? []

/-- Values of the kind a column of the type returns. -/
def OfType : ColumnType → Value → Prop
  | .BOOLEAN, .uint _ | .UNSIGNED_INT, .uint _ | .DATETIME, .uint _ => True
  | .SIGNED_INT, .sint _ => True
  | .STRING, .str _ => True
  | .FLOAT, .float _ => True
  | _, _ => False

/-- One read of an entry that is there. -/
theorem map_read {α : Type} {ofValue : Value → Option α} {f : α → Value} {default : α}
    {reader : EntryReader} {e : Entry Value} {es : List (Entry Value)}
    (hentries : reader.entries = e :: es)
    (h : ∀ v ∈ e.value, ∃ a, ofValue v = some a ∧ f a = v) :
    ((read ofValue default reader).map fun p => (entryOf f p.1, p.2)) =
      .ok (e, { reader with entries := es }) := by
  obtain ⟨r, d, value⟩ := e
  unfold read
  rw [hentries]
  cases value with
  | none => rfl
  | some v =>
    obtain ⟨a, ha, rfl⟩ := h v rfl
    dsimp only
    rw [ha]
    rfl

/-- The reader returns its entries, one read after the other. By induction on the entries. -/
theorem returns {type : ColumnType} {rmax : Nat} {entries : List (Entry Value)}
    (htype : type ≠ .SUBRECORD) (h : ∀ e ∈ entries, ∀ v ∈ e.value, OfType type v) :
    Returns type rmax (EntryReader.mk type rmax entries) entries := by
  induction entries with
  | nil => exact ⟨rfl, rfl⟩
  | cons e es ih =>
    refine ⟨rfl, rfl, ⟨type, rmax, es⟩, ?_, ih fun e' he' => h e' (List.mem_cons_of_mem e he')⟩
    have hv := h e List.mem_cons_self
    cases type
    case SUBRECORD => exact absurd rfl htype
    case BOOLEAN | UNSIGNED_INT | DATETIME =>
      refine map_read rfl fun v hmem => ?_
      cases v with
      | uint v => exact ⟨v, rfl, rfl⟩
      | sint v | str v | float v => exact (hv _ hmem).elim
    case SIGNED_INT =>
      refine map_read rfl fun v hmem => ?_
      cases v with
      | sint v => exact ⟨v, rfl, rfl⟩
      | uint v | str v | float v => exact (hv _ hmem).elim
    case STRING =>
      refine map_read rfl fun v hmem => ?_
      cases v with
      | str v => exact ⟨v, rfl, rfl⟩
      | uint v | sint v | float v => exact (hv _ hmem).elim
    case FLOAT =>
      refine map_read rfl fun v hmem => ?_
      cases v with
      | float v => exact ⟨v, rfl, rfl⟩
      | uint v | sint v | str v => exact (hv _ hmem).elim

end EntryReader

/-- The entries of two records of a repeated object with a leaf: two objects, and none. -/
def twoRecords : List (List (Entry Value)) :=
  [[⟨0, 1, some (.uint 7)⟩, ⟨1, 1, some (.uint 8)⟩], [⟨0, 0, none⟩]]

/-- A materializer over them. -/
def twoRecordsMaterializer : RecordMaterializer EntryReader where
  columns_ := [(chars ['a', '.', 'b'],
    { reader := ⟨.UNSIGNED_INT, 1, twoRecords.flatten⟩, parents := [⟨1, true, 1⟩], field_id := 2
      field_type := ⟨.UINT64, FieldType.noConfusion⟩, col_type := .UNSIGNED_INT })]

/-- The materializer of the example holds two records of one column. -/
theorem twoRecordsMaterializer_holds :
    HoldsRecords twoRecordsMaterializer 2 [twoRecords] where
  columns := by
    refine .cons (Or.inl ⟨rfl, EntryReader.returns ColumnType.noConfusion ?_⟩) .nil
    intro e he v hv
    rcases List.mem_cons.mp he with rfl | he
    · cases hv
      trivial
    · rcases List.mem_cons.mp he with rfl | he
      · cases hv
        trivial
      · obtain rfl := List.mem_singleton.mp he
        cases hv
  length := fun stream hs => by
    obtain rfl := List.mem_singleton.mp hs
    rfl
  records := fun stream hs es hes => by
    obtain rfl := List.mem_singleton.mp hs
    rcases List.mem_cons.mp hes with rfl | hes
    · exact ⟨_, _, rfl, rfl, fun x hx => by
        obtain rfl := List.mem_singleton.mp hx
        decide⟩
    · obtain rfl := List.mem_singleton.mp hes
      exact ⟨_, _, rfl, rfl, fun x hx => absurd hx List.not_mem_nil⟩

/-- Two records that are read or skipped in any order of the calls. -/
theorem skipRecord_inStep_twoRecords :
    let ops : DoubleOps := ⟨v1.noFloats, fun _ => 0⟩
    ∃ state : Nat → RecordMaterializer EntryReader, state 0 = twoRecordsMaterializer ∧
      ∀ calls m' outs, calls.length ≤ 2 →
        runCalls ops 2 calls twoRecordsMaterializer = .ok (m', outs) →
        ∀ j ≤ calls.length,
          runCalls ops 2 (calls.take j) twoRecordsMaterializer = .ok (state j, outs.take j) := by
  intro ops
  have henough : Enough [twoRecords] 2 := by
    intro stream hs es hes
    obtain rfl := List.mem_singleton.mp hs
    rcases List.mem_cons.mp hes with rfl | hes
    · decide
    · obtain rfl := List.mem_singleton.mp hes
      decide
  obtain ⟨state, hzero, -, -, hruns⟩ :=
    skipRecord_inStep ops twoRecordsMaterializer_holds henough
  exact ⟨state, hzero, fun calls m' outs hcalls hrun => (hruns calls m' outs hcalls hrun).1⟩

end CStable.RecordMaterializer
