import CStable.Proofs.Assemble
import CStable.Proofs.WrittenRecords

/-!
# `CStable.Proofs.LoadedRecords`: reading the records of a table

A materializer over columns that return what was written to them (`ReadsBack`) returns,
record by record, what was shredded, as far as the leaves of its columns go
(`nextRecord_kept`). It takes the columns in the order of a hash map, so nothing is said of
the order of children with different ids.
-/

set_option autoImplicit false

namespace CStable

open Support.Striping
open TableSchema (columnOfFieldType)

namespace RecordMaterializer

open RecordShredder (RecordContains RecordsWritten HoldsCalls leafCalls toCall)

/-! ### Columns that return what was written -/

/-- The value a column returns for an argument of a call. -/
def readValue : WriteArg → Option Value
  | .null => none
  | .boolean value => some (.uint (if value then 1 else 0))
  | .unsignedInt value => some (.uint value)
  | .signedInt value => some (.sint value)
  | .float value => some (.float value)
  | .string value => some (.str value)
  | .dateTime value => some (.uint value)

/-- The entry a column returns for a call. -/
def entryOfCall (c : WriteCall) : Entry Value := ⟨c.rlvl, c.dlvl, readValue c.arg⟩

variable {ρ : Type} [AbstractColumnReader ρ]

/-- The readers return, for every column of the table, exactly the entries that were
written to it. -/
def ReadsBack (t : CSTableWriter) (reader : Bytes → Option ρ) : Prop :=
  ∀ (i : Nat) (col : ColumnConfig) (slot : ColumnSlot), t.columns[i]? = some col →
    t.column_writers[i]? = some slot → ∃ r, reader col.column_name = some r ∧
      Returns (AbstractColumnReader.type r) col.rlevel_max r (slot.history.map entryOfCall)

omit [AbstractColumnReader ρ] in
/-- What is read for the entry of a record: its levels, and the value in the type of the
column. -/
theorem entryOfCall_toCall (e : Entry ScalarValue) :
    entryOfCall (toCall (e.map ScalarValue.arg)) = e.map stored := by
  obtain ⟨r, d, value⟩ := e
  cases value with
  | none => rfl
  | some value => cases value <;> rfl

/-- The entries of a record in the column of a leaf. -/
def leafEntries (m : MessageLeaf) (c : Nest ScalarValue m.path.hops) : List (Entry Value) :=
  stripe m.path.hops 0 0 0 (Nest.map stored _ c)

/-- The calls of a leaf are read back as its entries. The value is stored in the type of the
column, so it is that of the type of the message. -/
theorem map_entryOfCall_leafCalls (m : MessageLeaf) (c : Nest ScalarValue m.path.hops) :
    (leafCalls m c).map entryOfCall = leafEntries m c := by
  unfold leafCalls leafEntries
  rw [stripe_map, stripe_map, List.map_map, List.map_map]
  exact List.map_congr_left fun e _ => entryOfCall_toCall e

/-- The entries of a leaf are one record: only the first has the repetition level zero. The loop
of the materializer stops at the next zero. -/
theorem isRecord_leafEntries {m : MessageLeaf} {c : Nest ScalarValue m.path.hops}
    (h : Single m.path.hops c) : IsRecord (leafEntries m c) := by
  have hpos := (tail_pos_iff (d := 0)).mpr (h.map stored).startsOnce
  obtain ⟨e, es, heq, hr⟩ := stripe_cons m.path.hops 0 0 0 (Nest.map stored _ c)
  rw [heq] at hpos
  exact ⟨e, es, heq, hr, hpos⟩

/-! ### One record -/

/-- The entries of one record, and where they go, for the column of a leaf. -/
structure EntriesOf (children : List MessageObject) (x : Target × List (Entry Value))
    (m : MessageLeaf) : Prop where
  parents : x.1.parents = parentsOf 0 m.parents
  field_id : x.1.field_id = m.leaf.id
  field_type : x.1.field_type = m.type
  rmax : x.1.rmax = reps m.path.hops
  entries : ∃ c : Nest ScalarValue m.path.hops, Contains m.type m.leaf m.parents children c ∧
    Present m.path.hops c ∧ Single m.path.hops c ∧ x.2 = leafEntries m c

/-- From zeros on, the entries of a record count up to the addresses of its nest. The counters
are what the levels were made from. -/
theorem scan_leafEntries {m : MessageLeaf} {c : Nest ScalarValue m.path.hops}
    (h : Single m.path.hops c) :
    scan (List.replicate (reps m.path.hops) 0) (leafEntries m c) =
      addressed m.path.hops 0 (Nest.map stored _ c) := by
  have hbump : bump 0 (List.replicate (reps m.path.hops) 0) =
      [] ++ List.replicate (reps m.path.hops) 0 := by rw [bump, List.nil_append]
  have hscan := (@scan_stripe _ _ [] _ 0 0 _ (h.map stored) hbump).1
  exact hscan.trans (List.map_id _)

/-- Loading one column of a record adds its leaf to those that are kept, and the columns before
it are not disturbed. -/
theorem assembleEntries_kept (ops : DoubleOps) {schema : MessageSchema}
    (hdistinct : AtEveryLevel DistinctFields schema) {children kept : List MessageObject}
    {keep : MessageLeaf → Prop} {m : MessageLeaf} (hm : m ∈ messageLeaves schema)
    {x : Target × List (Entry Value)} (hx : EntriesOf children x m)
    (hkept : Kept keep schema children kept) (hnot : ¬ keep m) (rid : UInt32) :
    ∃ kept', assembleEntries ops x.1 x.2 (List.replicate x.1.rmax 0) (.object rid kept) =
        .ok (.object rid kept') ∧ Kept (addLeaf keep m) schema children kept' := by
  obtain ⟨parents, leaf, type⟩ := m
  obtain ⟨hparents, hid, htype, hrmax, c, hcontains, hpresent, hsingle, hentries⟩ := hx
  obtain ⟨kept', hrun, hkept'⟩ :=
    @insertCells_spec ops type leaf parents schema rid children kept 0 keep c
    hdistinct hm hcontains hsingle hpresent hkept hnot
  have hlevels : ∀ e ∈ x.2, e.r ≤ (List.replicate x.1.rmax 0).length := by
    intro e he
    rw [hentries, leafEntries, stripe_map] at he
    obtain ⟨e', he', rfl⟩ := List.mem_map.mp he
    have hfits := (hpresent.fits (Nat.le_refl 0) e' he').r
    rwa [Nat.zero_add, ← hrmax, ← @List.length_replicate _ x.1.rmax 0] at hfits
  refine ⟨kept', ?_, hkept'⟩
  rw [assembleEntries_eq ops x.1 _ hlevels, hrmax, hentries, scan_leafEntries hsingle, hparents,
    hid, htype]
  exact hrun

/-- Loading the columns of some leaves adds these leaves to those that are kept. By induction on
the columns, in the order they are walked. -/
theorem assembleRecord_kept (ops : DoubleOps) {schema : MessageSchema}
    (hdistinct : AtEveryLevel DistinctFields schema) {children : List MessageObject}
    {columns : List (Target × List (Entry Value))} {leaves : List MessageLeaf}
    (h : List.Forall₂ (EntriesOf children) columns leaves) (rid : UInt32) :
    ∀ {kept : List MessageObject} {keep : MessageLeaf → Prop}, leaves.Nodup →
      (∀ m ∈ leaves, m ∈ messageLeaves schema ∧ ¬ keep m) → Kept keep schema children kept →
      ∃ kept', assembleRecord ops columns (.object rid kept) = .ok (.object rid kept') ∧
        Kept (fun m => keep m ∨ m ∈ leaves) schema children kept' := by
  induction h with
  | nil =>
    intro kept keep _ _ hkept
    refine ⟨kept, rfl, hkept.congr fun m _ => ?_⟩
    rw [or_iff_left List.not_mem_nil]
  | @cons x m columns leaves hx _ ih =>
    intro kept keep hnodup hleaves hkept
    obtain ⟨hm, hnodup⟩ := List.nodup_cons.mp hnodup
    obtain ⟨hmem, hnot⟩ := hleaves m List.mem_cons_self
    obtain ⟨kept₁, hrun₁, hkept₁⟩ := assembleEntries_kept ops hdistinct hmem hx hkept hnot rid
    obtain ⟨kept', hrun, hkept'⟩ := ih hnodup (fun q hq => by
      obtain ⟨hqmem, hqnot⟩ := hleaves q (List.mem_cons_of_mem m hq)
      -- the leaves differ, so the others are still to come
      refine ⟨hqmem, fun hadd => ?_⟩
      rcases hadd with hk | rfl
      · exact hqnot hk
      · exact hm hq) hkept₁
    refine ⟨kept', ?_, hkept'.congr fun q _ => ?_⟩
    · obtain ⟨t, es⟩ := x
      rw [assembleRecord]
      dsimp only at hrun₁
      rw [hrun₁, Result.ok_bind, hrun]
    · rw [List.mem_cons, addLeaf, or_assoc]

/-! ### The columns of a materializer -/

/-- The column of a leaf, as the constructor opens it. -/
def OpenedColumn (reader : Bytes → Option ρ) (c : Bytes × ColumnState ρ) (m : MessageLeaf) : Prop :=
  ∃ r, reader (m.name []) = some r ∧ c = (m.name [], openState 0 [] m r)

/-- The leaf is one whose column is opened: the filter lets it through, and there is a
reader for it. -/
def IsOpened (reader : Bytes → Option ρ) (columns : List Bytes) (m : MessageLeaf) : Bool :=
  InFilter columns (m.name []) && (reader (m.name [])).isSome

/-- The columns of some leaves, as far as they are opened. A leaf without a reader, or outside
of the filter, has none. -/
theorem forall₂_openColumn (reader : Bytes → Option ρ) (columns : List Bytes)
    (leaves : List MessageLeaf) :
    List.Forall₂ (OpenedColumn reader) (leaves.filterMap (openColumn reader columns [] 0 []))
      (leaves.filter (IsOpened reader columns)) := by
  induction leaves with
  | nil => exact .nil
  | cons m ms ih =>
    -- a leaf is opened if the filter has it and the table has a column of its name
    cases hopened : IsOpened reader columns m with
    | true =>
      obtain ⟨hfilter, hsome⟩ := (Bool.and_eq_true _ _).mp hopened
      obtain ⟨r, hr⟩ := Option.isSome_iff_exists.mp hsome
      have hopen : openColumn reader columns [] 0 [] m = some (m.name [], openState 0 [] m r) := by
        unfold openColumn
        rw [hfilter, hr]
        rfl
      rw [List.filterMap_cons_some hopen, List.filter_cons_of_pos hopened]
      exact .cons ⟨r, hr, rfl⟩ ih
    | false =>
      have hopen : openColumn reader columns [] 0 [] m = none := by
        unfold openColumn
        unfold IsOpened at hopened
        cases hfilter : InFilter columns (m.name []) with
        | false => rfl
        | true =>
          rw [hfilter, Bool.true_and, Option.isSome_eq_false_iff,
            Option.isNone_iff_eq_none] at hopened
          rw [hopened]
          rfl
      have hdrop : (m :: ms).filter (IsOpened reader columns) =
          ms.filter (IsOpened reader columns) :=
        List.filter_cons_of_neg (by rw [hopened]; exact Bool.false_ne_true)
      rw [List.filterMap_cons_none hopen, hdrop]
      exact ih

/-- The columns that are walked are those of the leaves that are opened, in some order. The
order is that of the map, and the round trip holds for each. -/
theorem exists_leaves (walk : WalkOrder ρ) {schema : MessageSchema} (reader : Bytes → Option ρ)
    (columns : List Bytes)
    (hnames : ((messageLeaves schema).map (MessageLeaf.name · [])).Nodup) :
    ∃ leaves, leaves.Perm ((messageLeaves schema).filter (IsOpened reader columns)) ∧
      List.Forall₂ (OpenedColumn reader) (new walk schema reader columns).columns_ leaves := by
  have hcreate := createColumnsOf_eq [] 0 [] schema reader columns [] hnames
  rw [List.nil_append] at hcreate
  have hperm := walk.perm (createColumnsOf [] 0 [] schema reader columns [])
  obtain ⟨leaves, hall, hleaves⟩ := List.perm_comp_forall₂ hperm
    (hcreate ▸ forall₂_openColumn reader columns (messageLeaves schema))
  exact ⟨leaves, hleaves, hall⟩

/-! ### The records of a table -/

/-- The entries of the column of a leaf, record by record. -/
def LeafStream (reader : Bytes → Option ρ) (records : List MessageObject) (m : MessageLeaf)
    (stream : List (List (Entry Value))) : Prop :=
  ∃ cs, List.Forall₂ (RecordContains m) records cs ∧ stream = cs.map (leafEntries m) ∧
    ∀ r, reader (m.name []) = some r →
      Returns (AbstractColumnReader.type r) (reps m.path.hops) r stream.flatten

/-- Every leaf has a reader, which returns the entries of the records one after the other. A
table of records has a column for each leaf. -/
theorem exists_stream {mem : Uninit} {schema : MessageSchema} {t : CSTableWriter}
    {records : List MessageObject} {reader : Bytes → Option ρ}
    (h : RecordsWritten mem schema t records) (hreads : ReadsBack t reader) {m : MessageLeaf}
    (hm : m ∈ messageLeaves schema) :
    ∃ r stream, reader (m.name []) = some r ∧ LeafStream reader records m stream := by
  obtain ⟨i, hi⟩ := List.mem_iff_getElem?.mp (h.paths.mem_iff.mpr (List.mem_map_of_mem hm))
  obtain ⟨slot, hslot, -, cs, hcs, hhistory⟩ := h.slots m hm i hi
  have hcol : t.columns[i]? = some ((m.path.flat [] 0 0).config mem i) := by
    rw [h.own.getElem?_columns, hi]
    rfl
  obtain ⟨r, hr, hreturns⟩ := hreads i _ slot hcol hslot
  have hentries : slot.history.map entryOfCall = (cs.map (leafEntries m)).flatten := by
    rw [hhistory, List.map_flatMap, List.flatMap_def]
    exact congrArg List.flatten (List.map_congr_left fun c _ => map_entryOfCall_leafCalls m c)
  have hrmax : ((m.path.flat [] 0 0).config mem i).rlevel_max = reps m.path.hops := Nat.zero_add _
  rw [hentries, hrmax] at hreturns
  refine ⟨r, _, hr, cs, hcs, rfl, fun r' hr' => ?_⟩
  cases hr.symm.trans hr'
  exact hreturns

/-- The entries of one of the records, with the columns that were opened. Column by column these
are the entries of its leaf. -/
theorem entriesOf_recordAt {reader : Bytes → Option ρ} {records : List MessageObject} {k : Nat}
    {rid : UInt32} {children : List MessageObject} (hk : records[k]? = some (.object rid children))
    {columns_ : List (Bytes × ColumnState ρ)} {leaves : List MessageLeaf}
    (hcolumns : List.Forall₂ (OpenedColumn reader) columns_ leaves) :
    ∀ {streams : List (List (List (Entry Value)))},
      List.Forall₂ (LeafStream reader records) leaves streams →
      List.Forall₂ (EntriesOf children)
        (recordAt (columns_.map fun c => c.2.target) streams k) leaves := by
  induction hcolumns with
  | nil =>
    intro streams hstreams
    cases hstreams
    exact .nil
  | @cons c m columns_ leaves hc _ ih =>
    intro streams hstreams
    cases hstreams with
    | @cons _ stream _ streams hstream hstreams =>
      refine .cons ?_ (ih hstreams)
      obtain ⟨r, hr, rfl⟩ := hc
      obtain ⟨cs, hcs, rfl, hreturns⟩ := hstream
      obtain ⟨hlt, hget⟩ := List.getElem?_eq_some_iff.mp hk
      -- a stream has one content for each record, so there is one for this
      have hlt' : k < cs.length := hcs.length_eq ▸ hlt
      have hcontains := (List.forall₂_iff_get.mp hcs).2 k hlt hlt'
      rw [List.get_eq_getElem, List.get_eq_getElem, hget] at hcontains
      obtain ⟨⟨id, children', heq, hcontains⟩, hpresent, hsingle⟩ := hcontains
      cases heq
      refine ⟨rfl, rfl, rfl, (hreturns r hr).rmax, cs[k], hcontains, hpresent, hsingle, ?_⟩
      show (cs.map (leafEntries m)).getD k [] = _
      rw [List.getD_eq_getElem?_getD, List.getElem?_map, List.getElem?_eq_getElem hlt']
      rfl

/-- The values of a nest are of the type of its leaf. By recursion on the steps above the
leaf. -/
theorem all_type_of_contains {type : ScalarType} {leaf : MessageStep}
    {parents : List MessageStep} :
    ∀ {children : List MessageObject}
      {c : Nest ScalarValue (LeafPath.hopsOf leaf.field (parents.map MessageStep.field))},
      Contains type leaf parents children c →
        Nest.All (fun value => ScalarValue.type value = type.val) _ c := by
  induction parents with
  | nil => exact fun h => h.2
  | cons s ss ih =>
    intro children cs hcs c hc
    obtain ⟨o, -, children', -, hc'⟩ := Support.exists_of_mem_right hcs hc
    exact ih hc'

omit [AbstractColumnReader ρ] in
/-- A value of the type of a field is one of the type of its column. Several types of a message
share one type of column. -/
theorem ofType_stored {type : ScalarType} {value : ScalarValue} (h : value.type = type.val) :
    EntryReader.OfType (columnOfFieldType type).1.val (stored value) := by
  obtain ⟨type, htype⟩ := type
  obtain rfl : value.type = type := h
  cases value <;> trivial

/-- The columns of a table as readers that hold their entries. -/
def entryReaders (t : CSTableWriter) (name : Bytes) : Option EntryReader :=
  match t.getColumnWriter name with
  | .error _ => none
  | .ok i =>
    match t.columns[i]?, t.column_writers[i]? with
    | some col, some slot => (ColumnType.ofCode? col.logical_type).map fun type =>
      ⟨type, col.rlevel_max, slot.history.map entryOfCall⟩
    | _, _ => none

omit [AbstractColumnReader ρ] in
/-- They return what was written. So the round trip does not depend on files, and holds of
whatever reads a table back. -/
theorem readsBack_entryReaders {mem : Uninit} {schema : MessageSchema} {t : CSTableWriter}
    {records : List MessageObject} (h : RecordsWritten mem schema t records) :
    ReadsBack t (entryReaders t) := by
  intro i col slot hcol hslot
  have hpath := hcol
  rw [h.own.getElem?_columns] at hpath
  obtain ⟨p, hp, rfl⟩ := Option.map_eq_some_iff.mp hpath
  obtain ⟨m, hm, rfl⟩ := List.mem_map.mp (h.paths.mem_iff.mp (List.mem_of_getElem? hp))
  obtain ⟨slot', hslot', -, cs, hcs, hhistory⟩ := h.slots m hm i hp
  cases hslot.symm.trans hslot'
  refine ⟨⟨m.path.type.val, _, slot.history.map entryOfCall⟩, ?_,
    EntryReader.returns m.path.type.property fun e he v hv => ?_⟩
  · unfold entryReaders
    rw [(CSTableWriter.getColumnWriter_eq_ok h.names hcol _).mpr rfl]
    dsimp only
    rw [hcol, hslot]
    dsimp only
    rw [show ColumnType.ofCode? ((m.path.flat [] 0 0).config mem i).logical_type =
      some m.path.type.val from ColumnType.ofCode?_code _]
    rfl
  · -- an entry of one of the records, whose values are of the type of the leaf
    rw [hhistory, List.map_flatMap] at he
    obtain ⟨c, hc, he⟩ := List.mem_flatMap.mp he
    rw [map_entryOfCall_leafCalls, leafEntries, stripe_map] at he
    obtain ⟨e', he', rfl⟩ := List.mem_map.mp he
    obtain ⟨value, hvalue, rfl⟩ := Option.map_eq_some_iff.mp hv
    obtain ⟨record, -, ⟨id, children, -, hcontains⟩, -⟩ := Support.exists_of_mem_right hcs hc
    exact ofType_stored ((all_type_of_contains hcontains).stripe e' he' value hvalue)

/-- The columns that were opened have the entries of the records before them. Each starts with
its first entry not yet read. -/
theorem before_opened {reader : Bytes → Option ρ} {records : List MessageObject}
    {columns_ : List (Bytes × ColumnState ρ)} {leaves : List MessageLeaf}
    (hcolumns : List.Forall₂ (OpenedColumn reader) columns_ leaves) :
    ∀ {streams : List (List (List (Entry Value)))},
      List.Forall₂ (LeafStream reader records) leaves streams →
      List.Forall₂ (fun c stream => Before c.2 stream.flatten) columns_ streams := by
  induction hcolumns with
  | nil =>
    intro streams hstreams
    cases hstreams
    exact .nil
  | @cons c m columns_ leaves hc _ ih =>
    intro streams hstreams
    cases hstreams with
    | @cons _ stream _ streams hstream hstreams =>
      refine .cons (Or.inl ?_) (ih hstreams)
      obtain ⟨r, hr, rfl⟩ := hc
      obtain ⟨cs, -, -, hreturns⟩ := hstream
      have hr' := hreturns r hr
      refine ⟨rfl, ?_⟩
      show Returns (AbstractColumnReader.type r) (AbstractColumnReader.maxRepetitionLevel r) r _
      rw [hr'.rmax]
      exact hr'

/-- A number of rounds that is enough for every record, since there are finitely many. The loop
of the source has no bound of its own. -/
theorem exists_enough (streams : List (List (List (Entry Value)))) :
    ∃ bound, ∀ fuel, bound ≤ fuel → Enough streams fuel := by
  refine ⟨streams.flatten.flatten.length, fun fuel hfuel stream hstream es hes => ?_⟩
  have hmem : es ∈ streams.flatten := List.mem_flatten.mpr ⟨stream, hstream, hes⟩
  exact (List.sublist_flatten_of_mem hmem).length_le.trans hfuel

/-- What a call returns for the record at its position: what `nextRecord` puts into an empty
object is related to the record. -/
inductive Answers (Q : MessageObject → MessageObject → Prop) (record : MessageObject) :
    Call → Option MessageObject → Prop where
  | next {id : UInt32} {out : MessageObject} (h : Q out record) :
    Answers Q record (.next (.object id [])) (some out)
  | skip : Answers Q record .skip none

/-- The call reads into an empty object, or skips. -/
def FromEmpty (call : Call) : Prop := ∀ record, call = .next record → ∃ id, record = .object id []

/-- Calls one after the other, where each record can be put together from its entries. By
induction on the calls. -/
theorem runCalls_answers {ops : DoubleOps} {fuel n : Nat}
    {record : Nat → List (Target × List (Entry Value))} {state : Nat → RecordMaterializer ρ}
    (h : Visits ops fuel n record state) {Q : MessageObject → MessageObject → Prop}
    {calls : List Call} :
    ∀ {rest : List MessageObject} {k : Nat}, (∀ call ∈ calls, FromEmpty call) →
      calls.length ≤ rest.length → k + rest.length ≤ n →
      (∀ (j : Nat) (r : MessageObject), rest[j]? = some r → ∀ id, ∃ out,
        assembleRecord ops (record (k + j)) (.object id []) = .ok out ∧ Q out r) →
      ∃ m' outs, runCalls ops fuel calls (state k) = .ok (m', outs) ∧
        List.Forall₂ (fun p out => Answers Q p.2 p.1 out) (calls.zip rest) outs := by
  induction calls with
  | nil => exact fun _ _ _ _ => ⟨_, [], rfl, .nil⟩
  | cons call calls ih =>
    intro rest k hempty hlen hk hall
    cases rest with
    | nil => cases hlen
    | cons r rest =>
      rw [List.length_cons] at hk
      obtain ⟨m', outs, hrun, houts⟩ := @ih rest (k + 1)
        (fun c hc => hempty c (List.mem_cons_of_mem call hc)) (Nat.le_of_succ_le_succ hlen)
        (by omega) fun j r' hr' => by
          obtain hnext := hall (j + 1) r' hr'
          rwa [← Nat.add_assoc, Nat.add_right_comm] at hnext
      -- a skip moves every column as a read does, so the next call finds the next record
      cases call with
      | skip =>
        refine ⟨m', none :: outs, ?_, .cons .skip houts⟩
        rw [runCalls, (h k (by omega)).1, Result.ok_bind, hrun]
        rfl
      | next object =>
        obtain ⟨id, rfl⟩ := hempty _ List.mem_cons_self object rfl
        obtain ⟨out, hout, hq⟩ := hall 0 r rfl id
        refine ⟨m', some out :: outs, ?_, .cons (.next hq) houts⟩
        rw [Nat.add_zero] at hout
        rw [runCalls, (h k (by omega)).2, hout]
        show (runCalls ops fuel _ (state (k + 1)) >>= _) = _
        rw [hrun]
        rfl

/-- The record is what is left of another one when only the leaves that are kept are. -/
def KeptOf (keep : MessageLeaf → Prop) (schema : MessageSchema) (out record : MessageObject) :
    Prop :=
  ∃ id id' children kept, record = .object id children ∧ out = .object id' kept ∧
    Kept keep schema children kept

/-- Only the leaves of the schema count for what is kept of a record. -/
theorem KeptOf.congr {keep keep' : MessageLeaf → Prop} {schema : MessageSchema}
    {out record : MessageObject} (h : KeptOf keep schema out record)
    (heq : ∀ m ∈ messageLeaves schema, keep m ↔ keep' m) : KeptOf keep' schema out record := by
  obtain ⟨id, id', children, kept, hrecord, hout, hkept⟩ := h
  exact ⟨id, id', children, kept, hrecord, hout, hkept.congr heq⟩

/-- Every leaf of the schema has a reader, so a filter alone says which columns are opened. -/
theorem isOpened_iff {mem : Uninit} {schema : MessageSchema} {t : CSTableWriter}
    {records : List MessageObject} {reader : Bytes → Option ρ}
    (h : RecordsWritten mem schema t records) (hreads : ReadsBack t reader) (columns : List Bytes) :
    ∀ m ∈ messageLeaves schema,
      IsOpened reader columns m = true ↔ InFilter columns (m.name []) = true := by
  intro m hm
  obtain ⟨r, -, hr, -⟩ := exists_stream h hreads hm
  unfold IsOpened
  rw [hr, Option.isSome_some, Bool.and_true]

/-- The columns of a materializer are some leaves of a schema and return the entries of the
records: whatever the calls are, each record is read as far as these leaves go. -/
theorem calls_leaves (ops : DoubleOps)
    {materializer : RecordMaterializer ρ} {schema : MessageSchema}
    {records : List MessageObject} {reader : Bytes → Option ρ} {leaves : List MessageLeaf}
    (hdistinct : AtEveryLevel DistinctFields schema)
    (hcolumns : List.Forall₂ (OpenedColumn reader) materializer.columns_ leaves)
    (hnodup : leaves.Nodup) (hleaves : ∀ m ∈ leaves, m ∈ messageLeaves schema)
    (hobjects : ∀ record ∈ records, ∃ id children, record = .object id children)
    (hstreams : ∀ m ∈ leaves, ∃ stream, LeafStream reader records m stream) :
    ∃ bound, ∀ fuel, bound ≤ fuel → ∀ calls : List Call, (∀ call ∈ calls, FromEmpty call) →
      calls.length ≤ records.length →
      ∃ m' outs, runCalls ops fuel calls materializer = .ok (m', outs) ∧
        List.Forall₂ (fun p out => Answers (KeptOf (· ∈ leaves) schema) p.2 p.1 out)
          (calls.zip records) outs := by
  obtain ⟨streams, hstreams⟩ := exists_forall₂ hstreams
  -- every column holds one block of entries for each record
  have hholds : HoldsRecords materializer records.length streams := by
    refine ⟨before_opened hcolumns hstreams, fun stream hs => ?_, fun stream hs es hes => ?_⟩
    · obtain ⟨m, -, cs, hcs, rfl, -⟩ := Support.exists_of_mem_right hstreams hs
      rw [List.length_map, hcs.length_eq]
    · obtain ⟨m, -, cs, hcs, rfl, -⟩ := Support.exists_of_mem_right hstreams hs
      obtain ⟨c, hc, rfl⟩ := List.mem_map.mp hes
      obtain ⟨record, -, -, -, hsingle⟩ := Support.exists_of_mem_right hcs hc
      exact isRecord_leafEntries hsingle
  obtain ⟨bound, hbound⟩ := exists_enough streams
  obtain ⟨state, hzero, hstate⟩ := exists_states hholds
  refine ⟨bound, fun fuel hfuel calls hempty hlen => ?_⟩
  have hvisits : Visits ops fuel records.length (recordAt materializer.targets streams) state :=
    fun k hk => ⟨(hstate k hk fuel (hbound fuel hfuel)).1,
      (hstate k hk fuel (hbound fuel hfuel)).2 ops⟩
  have hassemble : ∀ (j : Nat) (record : MessageObject), records[j]? = some record →
      ∀ id, ∃ out, assembleRecord ops (recordAt materializer.targets streams (0 + j))
          (.object id []) = .ok out ∧ KeptOf (· ∈ leaves) schema out record := by
    intro j record hj id
    obtain ⟨rid, children, rfl⟩ := hobjects record (List.mem_of_getElem? hj)
    rw [Nat.zero_add]
    obtain ⟨kept, hrun, hkept⟩ := assembleRecord_kept ops hdistinct
      (entriesOf_recordAt hj hcolumns hstreams) id hnodup
      (fun m hm => ⟨hleaves m hm, not_false⟩) (kept_nil (fun _ _ => not_false) children)
    refine ⟨_, hrun, rid, id, children, kept, rfl, rfl, hkept.congr fun m _ => ?_⟩
    rw [false_or]
  obtain ⟨m', outs, hrun, houts⟩ := runCalls_answers hvisits (k := 0) hempty hlen (by omega)
    hassemble
  exact ⟨m', outs, hzero ▸ hrun, houts⟩

omit [AbstractColumnReader ρ] in
/-- Answers are still answers to a weaker question. -/
theorem Answers.imp {P Q : MessageObject → MessageObject → Prop} {record : MessageObject}
    {call : Call} {out : Option MessageObject} (h : Answers P record call out)
    (himp : ∀ out, P out record → Q out record) : Answers Q record call out := by
  cases h with
  | next hp => exact .next (himp _ hp)
  | skip => exact .skip

/-- The columns of a new materializer return the entries of the records: each record is read
as far as the leaves go whose columns are opened. -/
theorem calls_kept (ops : DoubleOps) (walk : WalkOrder ρ) {schema : MessageSchema}
    {records : List MessageObject} {reader : Bytes → Option ρ}
    (hdistinct : AtEveryLevel DistinctFields schema)
    (hnames : ((messageLeaves schema).map (MessageLeaf.name · [])).Nodup)
    (hobjects : ∀ record ∈ records, ∃ id children, record = .object id children)
    (hstreams : ∀ m ∈ messageLeaves schema, (reader (m.name [])).isSome →
      ∃ stream, LeafStream reader records m stream)
    (columns : List Bytes) :
    ∃ bound, ∀ fuel, bound ≤ fuel → ∀ calls : List Call, (∀ call ∈ calls, FromEmpty call) →
      calls.length ≤ records.length →
      ∃ m' outs, runCalls ops fuel calls (new walk schema reader columns) = .ok (m', outs) ∧
        List.Forall₂ (fun p out =>
            Answers (KeptOf (fun m => IsOpened reader columns m) schema) p.2 p.1 out)
          (calls.zip records) outs := by
  obtain ⟨leaves, hperm, hcolumns⟩ := exists_leaves walk reader columns hnames
  have hmem : ∀ m, m ∈ leaves ↔ m ∈ messageLeaves schema ∧ IsOpened reader columns m = true :=
    fun m => hperm.mem_iff.trans List.mem_filter
  obtain ⟨bound, hbound⟩ := calls_leaves ops hdistinct hcolumns
    (hperm.nodup_iff.mpr ((List.Nodup.of_map _ hnames).filter _)) (fun m hm => ((hmem m).mp hm).1)
    hobjects fun m hm => by
      obtain ⟨hleaf, hopened⟩ := (hmem m).mp hm
      exact hstreams m hleaf ((Bool.and_eq_true _ _).mp hopened).2
  refine ⟨bound, fun fuel hfuel calls hempty hlen => ?_⟩
  obtain ⟨m', outs, hrun, houts⟩ := hbound fuel hfuel calls hempty hlen
  refine ⟨m', outs, hrun, houts.imp fun p out h => h.imp fun out hkept =>
    hkept.congr fun m hm => ?_⟩
  rw [hmem, and_iff_right hm]

omit [AbstractColumnReader ρ] in
/-- The calls that read into empty objects. -/
theorem fromEmpty_next (ids : List UInt32) :
    ∀ call ∈ ids.map fun id => Call.next (.object id []), FromEmpty call := by
  intro call hcall record hrecord
  obtain ⟨id, -, rfl⟩ := List.mem_map.mp hcall
  cases hrecord
  exact ⟨id, rfl⟩

omit [AbstractColumnReader ρ] in
/-- The answers of calls that all read: each returns a record. By induction on the ids. -/
theorem exists_outs {Q : MessageObject → MessageObject → Prop} {records : List MessageObject} :
    ∀ {ids : List UInt32} {outs : List (Option MessageObject)}, ids.length = records.length →
      List.Forall₂ (fun p out => Answers Q p.2 p.1 out)
        ((ids.map fun id => Call.next (.object id [])).zip records) outs →
      ∃ outs', outs = outs'.map some ∧ List.Forall₂ Q outs' records := by
  induction records with
  | nil =>
    intro ids outs hlen h
    rw [List.zip_nil_right] at h
    cases h
    exact ⟨[], rfl, .nil⟩
  | cons record records ih =>
    intro ids outs hlen h
    cases ids with
    | nil => cases hlen
    | cons id ids =>
      cases h with
      | cons hanswer hrest =>
        obtain ⟨outs', rfl, houts⟩ := ih (Nat.succ.inj hlen) hrest
        cases hanswer with
        | @next _ out hq => exact ⟨out :: outs', rfl, .cons hq houts⟩

/-- A materializer with a filter returns the records of a table, as far as the leaves go
that the filter lets through. -/
theorem nextRecord_kept (ops : DoubleOps) (walk : WalkOrder ρ) {mem : Uninit}
    {schema : MessageSchema} {t : CSTableWriter} {records : List MessageObject}
    {reader : Bytes → Option ρ} (hdistinct : AtEveryLevel DistinctFields schema)
    (hnames : ((messageLeaves schema).map (MessageLeaf.name · [])).Nodup)
    (h : RecordsWritten mem schema t records)
    (hconform : ∀ record ∈ records, Conforms schema record) (hreads : ReadsBack t reader)
    (columns : List Bytes) :
    ∃ bound, ∀ fuel, bound ≤ fuel → ∀ ids : List UInt32, ids.length = records.length →
      ∃ m' outs, runCalls ops fuel (ids.map fun id => .next (.object id []))
          (new walk schema reader columns) = .ok (m', outs.map some) ∧
        List.Forall₂ (KeptOf (fun m => InFilter columns (m.name [])) schema) outs records := by
  obtain ⟨bound, hbound⟩ := @calls_kept _ _ ops walk _ records reader hdistinct hnames
    (fun record hrecord => by
      obtain ⟨id, children, rfl, -⟩ := hconform record hrecord
      exact ⟨id, children, rfl⟩)
    (fun m hm _ => by
      obtain ⟨-, stream, -, hstream⟩ := exists_stream h hreads hm
      exact ⟨stream, hstream⟩) columns
  refine ⟨bound, fun fuel hfuel ids hids => ?_⟩
  obtain ⟨m', outs, hrun, houts⟩ := hbound fuel hfuel (ids.map fun id => .next (.object id []))
    (fromEmpty_next ids) (by rw [List.length_map, hids])
  obtain ⟨outs', rfl, hall⟩ := exists_outs hids houts
  exact ⟨m', outs', hrun, hall.imp fun out record hkept =>
    hkept.congr (isOpened_iff h hreads columns)⟩

end RecordMaterializer

end CStable
