import Mathlib.Data.List.TakeWhile
import CStable.Proofs.EndOfColumn

/-!
# `CStable.Proofs.IndexBounds`: the repetition counters of record assembly

`loadColumn` keeps one counter for each repetition level of the column. Three numbers
meet there that nothing compares: the length of the vector is the maximal repetition
level in the file, the level of an entry is whatever has the bits of that maximum, and
the counters that are taken off on the way down are one for each repeated parent in the
message schema. An access outside of the vector is a fault of the model.

`LevelReader` is a column reader whose levels have the right number of bits and are
arbitrary otherwise. Whether an entry of it has the counters it takes is arithmetic on its
levels, the maximum of the column and the parents in the schema (`EntryFits`). If every
entry of a table does, every call of `nextRecord` stays inside
(`indexesInRange_of_entriesFit`): what a column holds is kept along all calls (`Covered`).
The other way round, the first entry of a column that does not fit is a fault. For
the header of a column alone, whatever its streams are, there is `countersFit_iff`.
-/

set_option autoImplicit false

namespace CStable

open Support

/-! ### Readers of arbitrary levels -/

/-- Two levels, and what the read functions store for the value, if there is one. -/
structure LevelEntry where
  rlvl : Nat
  dlvl : Nat
  uint : UInt64
  sint : Int64
  float : UInt64
  str : Bytes
  deriving DecidableEq, Repr

/-- A column reader with the maxima of a column header, and entries whose levels can be
stored in the bits of the maxima. Behind them reads raise. -/
structure LevelReader where
  type : ColumnType
  rmax : Nat
  dmax : Nat
  vals_total : Nat
  vals_read : Nat
  entries : List LevelEntry
  /-- No column is of the type of a sub-record. -/
  type_ne : type ≠ .SUBRECORD
  rlvl_lt : ∀ e ∈ entries, e.rlvl < 2 ^ bits rmax
  dlvl_lt : ∀ e ∈ entries, e.dlvl < 2 ^ bits dmax
  deriving DecidableEq

namespace LevelReader

/-- The reader without its first entry. -/
def tail (c : LevelReader) : LevelReader where
  type := c.type
  rmax := c.rmax
  dmax := c.dmax
  vals_total := c.vals_total
  vals_read := c.vals_read + 1
  entries := c.entries.tail
  type_ne := c.type_ne
  rlvl_lt e he := c.rlvl_lt e (List.mem_of_mem_tail he)
  dlvl_lt e he := c.dlvl_lt e (List.mem_of_mem_tail he)

/-- A read function: a value is there at the maximal definition level. -/
def read {α : Type} (value : LevelEntry → α) (default : α) (c : LevelReader) :
    Result (v1.View α × LevelReader) :=
  match c.entries with
  | [] => RAISE .kBufferOverflowError "read exceeds buffer boundary"
  | e :: _ =>
    if e.dlvl = c.dmax then .ok (⟨e.rlvl, e.dlvl, value e, true⟩, c.tail)
    else .ok (⟨e.rlvl, e.dlvl, default, false⟩, c.tail)

instance : AbstractColumnReader LevelReader where
  type := type
  maxRepetitionLevel := rmax
  eofReached c := decide (c.vals_read ≥ c.vals_total)
  readUnsignedInt := read LevelEntry.uint 0
  readSignedInt := read LevelEntry.sint 0
  readFloat := read LevelEntry.float 0
  readString := read LevelEntry.str []

end LevelReader

/-- The levels a reader of v0.1.0 returns have the bits of its maxima. They may still pass the
maxima, which a file from elsewhere can do. -/
theorem v1.ColumnReader.readNext_lt {mem : Mapping} {c c' : v1.ColumnReader} {e : v1.Entry}
    (hr : c.rlvl_reader.Bounded) (hd : c.dlvl_reader.Bounded)
    (h : c.readNext mem = .ok (e, c')) :
    e.rlvl < 2 ^ c.rlvl_reader.maxbits ∧ e.dlvl < 2 ^ c.dlvl_reader.maxbits := by
  obtain ⟨⟨r, rlvl_reader⟩, hnextr, h⟩ := Result.bind_eq_ok.mp h
  obtain ⟨⟨d, dlvl_reader⟩, hnextd, h⟩ := Result.bind_eq_ok.mp h
  have hlevels := And.intro (hr.next hnextr).1 (hd.next hnextd).1
  dsimp only at h hlevels
  split_ifs at h
  · obtain ⟨⟨v, data_reader⟩, -, hret⟩ := Result.bind_eq_ok.mp h
    cases hret
    exact hlevels
  · cases h
    exact hlevels

namespace RecordMaterializer

/-! ### Accesses within the vector -/

/-- The counters that are taken off on the way down the parents. -/
def repeatedCount (parents : List Parent) : Nat := parents.countP Parent.repeated

/-- Looking for a child, or adding one, does not fault unless what is done with it
does. -/
theorem visitChild_noFault {id : UInt32} {go : MessageObject → Result MessageObject}
    (hgo : ∀ record, NoFault (go record)) (children : List MessageObject) :
    ∀ n, NoFault (visitChild id go n children) := by
  induction children with
  | nil => exact fun n => (hgo _).bind fun _ _ => .ok _
  | cons cld rest ih =>
    intro n
    unfold visitChild
    split_ifs
    · cases n with
      | zero => exact (hgo cld).bind fun _ _ => .ok _
      | succ n => exact (ih n).bind fun _ _ => .ok _
    · exact (ih n).bind fun _ _ => .ok _

/-- A record that is no object raises before anything is done in it. Otherwise only what is done
in the child counts. -/
theorem visit_noFault {id : UInt32} {n : Nat} {go : MessageObject → Result MessageObject}
    (hgo : ∀ record, NoFault (go record)) (record : MessageObject) :
    NoFault (visit id n go record) := by
  unfold visit
  refine NoFault.bind ?_ fun children _ => (visitChild_noFault hgo children n).bind fun _ _ => .ok _
  cases record with
  | object id children => exact .ok _
  | scalar id value => exact .raise _ _

/-- The parents that are entered from the first on, with a counter for each of them that is
repeated: no counter is missing on the way down. -/
theorem insertAt_noFault {enter : Parent → Bool} {leaf : MessageObject → Result MessageObject}
    (hleaf : ∀ record, NoFault (leaf record)) (parents : List Parent) :
    ∀ (indexes : List Nat) (record : MessageObject),
      repeatedCount (parents.takeWhile enter) ≤ indexes.length →
      NoFault (insertAt enter leaf parents indexes record) := by
  induction parents with
  | nil => exact fun _ record _ => hleaf record
  | cons parent parents ih =>
    intro indexes record hcount
    unfold insertAt
    -- a parent is not entered, or takes a counter, or is entered without one
    split_ifs with henter hrepeated
    · exact .ok _
    · rw [List.takeWhile_cons_of_pos (by simpa using henter)] at hcount
      have hone : repeatedCount (parent :: parents.takeWhile enter) =
          repeatedCount (parents.takeWhile enter) + 1 := List.countP_cons_of_pos hrepeated
      cases indexes with
      | nil =>
        rw [hone] at hcount
        exact absurd hcount (Nat.not_succ_le_zero _)
      | cons target_idx indexes =>
        rw [hone, List.length_cons] at hcount
        exact visit_noFault (fun record => ih indexes record (Nat.le_of_succ_le_succ hcount)) record
    · rw [List.takeWhile_cons_of_pos (by simpa using henter)] at hcount
      have hsame : repeatedCount (parent :: parents.takeWhile enter) =
          repeatedCount (parents.takeWhile enter) := List.countP_cons_of_neg hrepeated
      rw [hsame] at hcount
      exact visit_noFault (fun record => ih indexes record hcount) record

/-- Without one for each of them, one is missing on the way down into a new object. A new object
has no children, so the walk goes all the way. -/
theorem insertAt_fault {enter : Parent → Bool} {leaf : MessageObject → Result MessageObject}
    (parents : List Parent) : ∀ (indexes : List Nat) (id : UInt32),
      indexes.length < repeatedCount (parents.takeWhile enter) →
      insertAt enter leaf parents indexes (.object id []) = .error .fault := by
  induction parents with
  | nil => exact fun indexes id h => absurd h (Nat.not_lt_zero _)
  | cons parent parents ih =>
    intro indexes id hcount
    -- a new object has no children, so one is made and gone into
    have hvisit : ∀ n indexes', indexes'.length < repeatedCount (parents.takeWhile enter) →
        visit parent.id n (insertAt enter leaf parents indexes') (.object id []) =
          .error .fault := by
      intro n indexes' h
      show (insertAt enter leaf parents indexes' (.object parent.id []) >>= _) >>= _ = _
      rw [ih indexes' parent.id h]
      rfl
    by_cases henter : enter parent = true
    · rw [List.takeWhile_cons_of_pos henter] at hcount
      unfold insertAt
      rw [if_neg (by simp [henter])]
      by_cases hrepeated : parent.repeated = true
      · rw [if_pos hrepeated]
        have hone : repeatedCount (parent :: parents.takeWhile enter) =
            repeatedCount (parents.takeWhile enter) + 1 := List.countP_cons_of_pos hrepeated
        cases indexes with
        | nil => rfl
        | cons target_idx indexes =>
          rw [hone, List.length_cons] at hcount
          exact hvisit target_idx indexes (Nat.lt_of_succ_lt_succ hcount)
      · rw [if_neg hrepeated]
        have hsame : repeatedCount (parent :: parents.takeWhile enter) =
            repeatedCount (parents.takeWhile enter) := List.countP_cons_of_neg hrepeated
        rw [hsame] at hcount
        exact hvisit 0 indexes hcount
    · rw [List.takeWhile_cons_of_neg henter] at hcount
      exact absurd hcount (Nat.not_lt_zero _)

/-- Counting up for a level there is a counter for. The number of counters stays, so the next
entry finds as many. -/
theorem countUp_spec {r : Nat} {indexes : List Nat} (h : r ≤ indexes.length) :
    ∃ indexes', countUp r indexes = .ok indexes' ∧ indexes'.length = indexes.length := by
  unfold countUp
  split_ifs with hpos hlt
  · exact ⟨_, rfl, by rw [List.length_mapIdx, List.length_modify]⟩
  · omega
  · exact ⟨indexes, rfl, rfl⟩

/-- And for a level there is none for. The access is `indexes[r - 1]`, which the vector does not
check. -/
theorem countUp_fault {r : Nat} {indexes : List Nat} (h : indexes.length < r) :
    countUp r indexes = .error .fault := by
  unfold countUp
  rw [if_pos (by omega), if_neg (by omega)]

/-! ### One entry -/

/-- The parents of an entry that are entered: all of them for a value, and for a null those
in front of the first that is above its definition level. -/
def enteredParents (parents : List Parent) (defined : Bool) (d : Nat) : List Parent :=
  if defined then parents else parents.takeWhile fun parent => !decide (parent.dmax > d)

/-- The column has a counter for the repetition level of an entry, and one for each
repeated parent that is entered with it. -/
def EntryFits (column : ColumnState LevelReader) (e : LevelEntry) : Prop :=
  e.rlvl ≤ column.reader.rmax ∧
    repeatedCount (enteredParents column.parents (decide (e.dlvl = column.reader.dmax)) e.dlvl) ≤
      column.reader.rmax

instance (column : ColumnState LevelReader) (e : LevelEntry) : Decidable (EntryFits column e) :=
  inferInstanceAs (Decidable (_ ∧ _))

/-- Every entry of the column fits. -/
def EntriesFit (column : ColumnState LevelReader) : Prop :=
  ∀ e ∈ column.reader.entries, EntryFits column e

instance (column : ColumnState LevelReader) : Decidable (EntriesFit column) :=
  inferInstanceAs (Decidable (∀ _ ∈ _, _))

/-- The counters of a column do for its levels and its parents by its header: the levels of
all bits are levels of the column, and no more parents are repeated than there are levels. -/
def CountersFit (column : ColumnState LevelReader) : Prop :=
  2 ^ bits column.reader.rmax = column.reader.rmax + 1 ∧
    repeatedCount column.parents ≤ column.reader.rmax

/-- Some of the parents from the first on are no more than all of them. A null stops at the
first parent that its definition level does not reach. -/
theorem repeatedCount_enteredParents_le (parents : List Parent) (defined : Bool) (d : Nat) :
    repeatedCount (enteredParents parents defined d) ≤ repeatedCount parents := by
  unfold enteredParents
  split_ifs
  · exact Nat.le_refl _
  · exact (List.takeWhile_sublist _).countP_le

/-- The header of a column is enough exactly where every entry whose levels have its bits
fits: otherwise there is a level above the maximum, or a value has too many parents. -/
theorem countersFit_iff (column : ColumnState LevelReader) :
    CountersFit column ↔ ∀ e : LevelEntry, e.rlvl < 2 ^ bits column.reader.rmax →
      e.dlvl < 2 ^ bits column.reader.dmax → EntryFits column e := by
  have hrmax : column.reader.rmax < 2 ^ bits column.reader.rmax := lt_two_pow_bits (Nat.le_refl _)
  have hdmax : column.reader.dmax < 2 ^ bits column.reader.dmax := lt_two_pow_bits (Nat.le_refl _)
  constructor
  · rintro ⟨hbits, hparents⟩ e hr -
    exact ⟨by omega, Nat.le_trans (repeatedCount_enteredParents_le _ _ _) hparents⟩
  · intro hall
    refine ⟨?_, ?_⟩
    · by_contra hbits
      have hfits := hall ⟨column.reader.rmax + 1, 0, 0, 0, 0, []⟩
        (show column.reader.rmax + 1 < _ by omega) (Nat.two_pow_pos _)
      exact absurd hfits.1 (Nat.not_succ_le_self _)
    · have hfits := hall ⟨0, column.reader.dmax, 0, 0, 0, []⟩ (Nat.two_pow_pos _) hdmax
      have hvalue := hfits.2
      rwa [enteredParents, if_pos (decide_eq_true rfl)] at hvalue

/-! ### One column -/

/-- What a column holds of an entry it has fetched fits as well. -/
def CurrentFits (column : ColumnState LevelReader) : Prop :=
  column.r ≤ column.reader.rmax ∧
    repeatedCount (enteredParents column.parents column.defined column.d) ≤ column.reader.rmax

/-- The entries that are left fit, and so does the one that has been fetched ahead. -/
structure Covered (column : ColumnState LevelReader) : Prop where
  entries : EntriesFit column
  current : column.pending = true → CurrentFits column

/-- The entries a column has not consumed. -/
def entriesLeft (column : ColumnState LevelReader) : Nat :=
  column.reader.entries.length + if column.pending then 1 else 0

/-- What fetching an entry does to a column: it has one afterwards, the one it had or the
next of its stream. -/
structure Fetched (column column' : ColumnState LevelReader) : Prop where
  entriesLeft : entriesLeft column' = entriesLeft column
  pending : column'.pending = true
  rmax : column'.reader.rmax = column.reader.rmax
  dmax : column'.reader.dmax = column.reader.dmax
  parents : column'.parents = column.parents
  entry : column' = column ∨ ∃ e, column.reader.entries = e :: column'.reader.entries ∧
    column'.r = e.rlvl ∧ column'.d = e.dlvl ∧
    column'.defined = decide (e.dlvl = column.reader.dmax)

/-- A read function of an arbitrary reader returns its first entry, or raises. The readers of
the two versions are both cases of this one. -/
theorem read_spec {α : Type} (value : LevelEntry → α) (default : α) (c : LevelReader) :
    NoFault (c.read value default) ∧ ∀ v c', c.read value default = .ok (v, c') →
      c' = c.tail ∧ ∃ e, c.entries = e :: c.tail.entries ∧ v.rlvl = e.rlvl ∧ v.dlvl = e.dlvl ∧
        v.defined = decide (e.dlvl = c.dmax) := by
  unfold LevelReader.read
  cases hentries : c.entries with
  | nil => exact ⟨.raise _ _, fun v c' h => by cases h⟩
  | cons e es =>
    have htail : e :: es = e :: c.tail.entries := by
      show _ = e :: c.entries.tail
      rw [hentries, List.tail_cons]
    dsimp only
    split_ifs with hd
    · refine ⟨.ok _, fun v c' h => ?_⟩
      cases h
      exact ⟨rfl, e, htail, rfl, rfl, (decide_eq_true hd).symm⟩
    · refine ⟨.ok _, fun v c' h => ?_⟩
      cases h
      exact ⟨rfl, e, htail, rfl, rfl, (decide_eq_false hd).symm⟩

/-- Every type of column fetches its entry by one of the read functions. Which one it is decides
the value and not the levels. -/
theorem fetchIfNotPending_fetched (column : ColumnState LevelReader) :
    NoFault column.fetchIfNotPending ∧
      ∀ column', column.fetchIfNotPending = .ok column' → Fetched column column' := by
  unfold ColumnState.fetchIfNotPending
  by_cases hpending : column.pending = true
  · rw [if_pos hpending]
    refine ⟨.ok _, fun column' h => ?_⟩
    cases h
    exact ⟨rfl, hpending, rfl, rfl, rfl, Or.inl rfl⟩
  · rw [if_neg hpending]
    have hread : ∀ {α : Type} (value : LevelEntry → α) (default : α)
        (store : v1.View α → LevelReader → ColumnState LevelReader),
        (∀ v c, (store v c).reader = c ∧ (store v c).r = v.rlvl ∧ (store v c).d = v.dlvl ∧
          (store v c).defined = v.defined ∧ (store v c).pending = true ∧
          (store v c).parents = column.parents) →
        NoFault (column.reader.read value default >>= fun p => .ok (store p.1 p.2)) ∧
        ∀ column', (column.reader.read value default >>= fun p => .ok (store p.1 p.2)) =
          .ok column' → Fetched column column' := by
      intro α value default store hstore
      obtain ⟨hfault, hspec⟩ := read_spec value default column.reader
      refine ⟨hfault.bind fun _ _ => .ok _, fun column' h => ?_⟩
      obtain ⟨⟨v, c'⟩, hv, hret⟩ := Result.bind_eq_ok.mp h
      cases hret
      obtain ⟨rfl, e, hentries, hr, hd, hdefined⟩ := hspec v c' hv
      obtain ⟨hreader, hstoredr, hstoredd, hstored, hstoredp, hparents⟩ :=
        hstore v column.reader.tail
      refine ⟨?_, hstoredp, ?_, ?_, hparents, Or.inr ⟨e, ?_, ?_, ?_, ?_⟩⟩
      · unfold RecordMaterializer.entriesLeft
        rw [hstoredp, hreader, if_pos rfl, if_neg hpending, hentries, List.length_cons]
      · rw [hreader]
        rfl
      · rw [hreader]
        rfl
      · rw [hreader, hentries]
      · rw [hstoredr, hr]
      · rw [hstoredd, hd]
      · rw [hstored, hdefined]
    have huint := hread LevelEntry.uint 0 (fun v reader => { column with
      reader, r := v.rlvl, d := v.dlvl, val_uint := v.value, defined := v.defined
      pending := true }) fun _ _ => ⟨rfl, rfl, rfl, rfl, rfl, rfl⟩
    split
    · exact ⟨.raise _ _, fun column' h => by cases h⟩
    · exact huint
    · exact huint
    · exact huint
    · exact hread LevelEntry.sint 0 (fun v reader => { column with
        reader, r := v.rlvl, d := v.dlvl, val_sint := v.value, defined := v.defined
        pending := true }) fun _ _ => ⟨rfl, rfl, rfl, rfl, rfl, rfl⟩
    · exact hread LevelEntry.str [] (fun v reader => { column with
        reader, r := v.rlvl, d := v.dlvl, val_str := v.value, defined := v.defined
        pending := true }) fun _ _ => ⟨rfl, rfl, rfl, rfl, rfl, rfl⟩
    · exact hread LevelEntry.float 0 (fun v reader => { column with
        reader, r := v.rlvl, d := v.dlvl, val_float := v.value, defined := v.defined
        pending := true }) fun _ _ => ⟨rfl, rfl, rfl, rfl, rfl, rfl⟩

/-- Fetching keeps the column covered: the entry that is fetched is one of those that were
left. -/
theorem Fetched.covered {column column' : ColumnState LevelReader} (h : Fetched column column')
    (hcovered : Covered column) : Covered column' ∧ CurrentFits column' := by
  rcases h.entry with rfl | ⟨e, hentries, hr, hd, hdefined⟩
  · exact ⟨hcovered, hcovered.current h.pending⟩
  · have hcurrent : CurrentFits column' := by
      unfold CurrentFits
      rw [hr, hd, hdefined, h.rmax, h.parents]
      exact hcovered.entries e (hentries ▸ List.mem_cons_self)
    refine ⟨⟨fun e' he' => ?_, fun _ => hcurrent⟩, hcurrent⟩
    unfold EntryFits
    rw [h.rmax, h.dmax, h.parents]
    exact hcovered.entries e' (hentries ▸ List.mem_cons_of_mem e he')

/-- An entry that is consumed leaves the others as they are. Only the flag that an entry is
pending is taken back. -/
theorem Covered.consume {column : ColumnState LevelReader} (h : Covered column) :
    Covered column.consume :=
  ⟨h.entries, fun hpending => by cases hpending⟩

/-- The value of a column is converted, or the conversion raises. `stod` is from outside, and
may return or raise. -/
theorem fieldValue_noFault {ops : DoubleOps} (hstod : ∀ s, NoFault (ops.stod s))
    (column : ColumnState LevelReader) : NoFault (column.fieldValue ops) := by
  -- conversions raise on text they cannot read, and never touch memory
  have huint : NoFault (column.getUnsignedInteger ops) := by
    unfold ColumnState.getUnsignedInteger
    split
    · exact .raise _ _
    · exact .ok _
    · exact .ok _
    · exact .ok _
    · exact .ok _
    · exact stoull_noFault _
    · exact .ok _
  have hstring : NoFault (column.getString ops) := by
    unfold ColumnState.getString
    split
    · exact .raise _ _
    all_goals exact .ok _
  have hfloat : NoFault (column.getFloat ops) := by
    unfold ColumnState.getFloat
    split
    · exact .raise _ _
    · exact .ok _
    · exact .ok _
    · exact .ok _
    · exact .ok _
    · exact (hstod _).map
    · exact .ok _
  unfold ColumnState.fieldValue
  split
  · next h _ => exact absurd rfl h
  · exact huint.map
  · exact huint.map
  · exact huint.map
  · exact hstring.map
  · exact huint.map
  · exact hfloat.map

/-- A child is added to an object; a record that is none raises. -/
theorem addChild_noFault (record child : MessageObject) : NoFault (record.addChild child) := by
  cases record with
  | object id children => exact .ok _
  | scalar id value => exact .raise _ _

/-- An entry that fits is inserted, or an exception is raised. There is a counter for every
parent that the walk enters. -/
theorem insert_noFault {ops : DoubleOps} (hstod : ∀ s, NoFault (ops.stod s))
    {column : ColumnState LevelReader} (hfits : CurrentFits column) {indexes : List Nat}
    (hlen : indexes.length = column.reader.rmax) (record : MessageObject) :
    NoFault (if column.defined then insertValue ops column indexes record
      else insertNull column indexes record) := by
  have hcount := hfits.2
  rw [← hlen, enteredParents] at hcount
  split_ifs with hdefined
  · rw [if_pos hdefined] at hcount
    refine insertAt_noFault (fun record => (fieldValue_noFault hstod column).bind
      fun value _ => addChild_noFault record _) _ _ _ ?_
    rwa [List.takeWhile_eq_self_iff.mpr fun _ _ => rfl]
  · rw [if_neg hdefined] at hcount
    exact insertAt_noFault (fun _ => .ok _) _ _ _ hcount

/-- The loop of `loadColumn`, by induction on the rounds: every round consumes an entry, and
leaves the column covered. -/
theorem loadEntries_noFault {ops : DoubleOps} (hstod : ∀ s, NoFault (ops.stod s)) (fuel : Nat) :
    ∀ (column : ColumnState LevelReader) (indexes : List Nat) (record : MessageObject),
      entriesLeft column < fuel → Covered column → indexes.length = column.reader.rmax →
      NoFault (loadEntries ops fuel column indexes record) := by
  -- on the fuel, which the entries left in the column stay below
  induction fuel with
  | zero => exact fun column indexes record h => absurd h (Nat.not_lt_zero _)
  | succ fuel ih =>
    intro column indexes record hfuel hcovered hlen
    obtain ⟨hfault, hspec⟩ := fetchIfNotPending_fetched column
    unfold loadEntries
    refine hfault.bind fun column₁ hfetch => ?_
    have h₁ := hspec column₁ hfetch
    obtain ⟨hcovered₁, hfits⟩ := h₁.covered hcovered
    -- the entry fits the reader's maxima, so the counter it increments exists
    have hlevel : column₁.r ≤ indexes.length := by
      rw [hlen, ← h₁.rmax]
      exact hfits.1
    obtain ⟨indexes', hcount, hlen'⟩ := countUp_spec hlevel
    rw [hcount, Result.ok_bind]
    have hlen₁ : indexes'.length = column₁.reader.rmax := hlen'.trans (hlen.trans h₁.rmax.symm)
    refine NoFault.bind (insert_noFault hstod hfits hlen₁ record) fun record' _ => ?_
    dsimp only
    split_ifs
    · exact .ok _
    · obtain ⟨hfault₂, hspec₂⟩ := fetchIfNotPending_fetched column₁.consume
      refine hfault₂.bind fun column₂ hfetch₂ => ?_
      have h₂ := hspec₂ column₂ hfetch₂
      split_ifs
      · exact .ok _
      · -- the entry in front belongs to the record
        have hconsumed : entriesLeft column₁ = entriesLeft column₁.consume + 1 := by
          unfold entriesLeft
          rw [h₁.pending]
          rfl
        have hleft₁ := h₁.entriesLeft
        have hleft₂ := h₂.entriesLeft
        exact ih column₂ indexes' record' (by omega) (h₂.covered hcovered₁.consume).1
          (hlen₁.trans h₂.rmax.symm)

/-- What the loop leaves of the column is covered too. By induction on the rounds, since each
consumes an entry. -/
theorem loadEntries_covered {ops : DoubleOps} (fuel : Nat) :
    ∀ {column column' : ColumnState LevelReader} {indexes : List Nat}
      {record record' : MessageObject}, Covered column →
      loadEntries ops fuel column indexes record = .ok (column', record') → Covered column' := by
  induction fuel with
  | zero => exact fun _ h => by cases h
  | succ fuel ih =>
    intro column column' indexes record record' hcovered h
    obtain ⟨column₁, hfetch, h⟩ := Result.bind_eq_ok.mp h
    obtain ⟨indexes', -, h⟩ := Result.bind_eq_ok.mp h
    obtain ⟨record₁, -, h⟩ := Result.bind_eq_ok.mp h
    have hcovered₁ :=
      (((fetchIfNotPending_fetched column).2 column₁ hfetch).covered hcovered).1.consume
    dsimp only at h
    split_ifs at h
    · cases h
      exact hcovered₁
    · obtain ⟨column₂, hfetch₂, h⟩ := Result.bind_eq_ok.mp h
      have hcovered₂ := (((fetchIfNotPending_fetched _).2 column₂ hfetch₂).covered hcovered₁).1
      split_ifs at h
      · cases h
        exact hcovered₂
      · exact ih hcovered₂ h

/-- `skipRecord` reads the same entries without inserting them. So what holds of the loop that
inserts holds of this one. -/
theorem skipEntries_covered (fuel : Nat) : ∀ {column column' : ColumnState LevelReader},
    Covered column → skipEntries fuel column = .ok column' → Covered column' := by
  induction fuel with
  | zero => exact fun _ h => by cases h
  | succ fuel ih =>
    intro column column' hcovered h
    obtain ⟨column₁, hfetch, h⟩ := Result.bind_eq_ok.mp h
    have hcovered₁ :=
      (((fetchIfNotPending_fetched column).2 column₁ hfetch).covered hcovered).1.consume
    dsimp only at h
    split_ifs at h
    · cases h
      exact hcovered₁
    · obtain ⟨column₂, hfetch₂, h⟩ := Result.bind_eq_ok.mp h
      have hcovered₂ := (((fetchIfNotPending_fetched _).2 column₂ hfetch₂).covered hcovered₁).1
      split_ifs at h
      · cases h
        exact hcovered₂
      · exact ih hcovered₂ h

/-! ### All columns -/

/-- Every column of a materializer is covered. -/
def AllCovered (columns_ : List (Bytes × ColumnState LevelReader)) : Prop :=
  ∀ p ∈ columns_, Covered p.2

/-- A record of covered columns. The rounds are more than any column has entries, so the loop
ends by its own condition. -/
theorem nextRecord_noFault {ops : DoubleOps} (hstod : ∀ s, NoFault (ops.stod s)) {fuel : Nat}
    {m : RecordMaterializer LevelReader} (hcovered : AllCovered m.columns_)
    (hfuel : ∀ p ∈ m.columns_, entriesLeft p.2 < fuel) (record : MessageObject) :
    NoFault (nextRecord ops fuel m record) := by
  have hload : ∀ (columns : List (Bytes × ColumnState LevelReader)) (record : MessageObject),
      AllCovered columns → (∀ p ∈ columns, entriesLeft p.2 < fuel) →
      NoFault (loadColumns ops fuel columns record) := by
    intro columns
    induction columns with
    | nil => exact fun record _ _ => .ok _
    | cons p columns ih =>
      intro record hall hfuel
      refine NoFault.bind (loadEntries_noFault hstod fuel p.2 _ record
        (hfuel p List.mem_cons_self) (hall p List.mem_cons_self) List.length_replicate)
        fun q _ => (ih q.2 (fun p' hp' => hall p' (List.mem_cons_of_mem p hp'))
          fun p' hp' => hfuel p' (List.mem_cons_of_mem p hp')).bind fun _ _ => .ok _
  exact (hload m.columns_ record hcovered hfuel).bind fun _ _ => .ok _

/-- The columns after a record are covered again. By induction on the columns, in the order of
the map. -/
theorem loadColumns_covered {ops : DoubleOps} {fuel : Nat} :
    ∀ {columns columns' : List (Bytes × ColumnState LevelReader)} {record record' : MessageObject},
      AllCovered columns → loadColumns ops fuel columns record = .ok (columns', record') →
      AllCovered columns' := by
  intro columns
  induction columns with
  | nil =>
    intro columns' record record' _ h
    cases h
    exact fun p hp => absurd hp List.not_mem_nil
  | cons p columns ih =>
    intro columns' record record' hall h
    obtain ⟨⟨column, record₁⟩, hload, h⟩ := Result.bind_eq_ok.mp h
    obtain ⟨⟨rest, record₂⟩, hrest, hret⟩ := Result.bind_eq_ok.mp h
    cases hret
    intro q hq
    rcases List.mem_cons.mp hq with rfl | hq
    · exact loadEntries_covered fuel (hall p List.mem_cons_self) hload
    · exact ih (fun p' hp' => hall p' (List.mem_cons_of_mem p hp')) hrest q hq

/-- The same for a record that is skipped. -/
theorem skipColumns_covered {fuel : Nat} :
    ∀ {columns columns' : List (Bytes × ColumnState LevelReader)}, AllCovered columns →
      skipColumns fuel columns = .ok columns' → AllCovered columns' := by
  intro columns
  induction columns with
  | nil =>
    intro columns' _ h
    cases h
    exact fun p hp => absurd hp List.not_mem_nil
  | cons p columns ih =>
    intro columns' hall h
    obtain ⟨column, hskip, h⟩ := Result.bind_eq_ok.mp h
    obtain ⟨rest, hrest, hret⟩ := Result.bind_eq_ok.mp h
    cases hret
    intro q hq
    rcases List.mem_cons.mp hq with rfl | hq
    · exact skipEntries_covered fuel (hall p List.mem_cons_self) hskip
    · exact ih (fun p' hp' => hall p' (List.mem_cons_of_mem p hp')) hrest q hq

/-- The materializers a caller can have of a table: the constructed one, and what a call
of `nextRecord` or `skipRecord` that returned leaves of one. -/
inductive AfterCalls (ops : DoubleOps) (m₀ : RecordMaterializer LevelReader) :
    RecordMaterializer LevelReader → Prop
  | start : AfterCalls ops m₀ m₀
  | next {m m' : RecordMaterializer LevelReader} {fuel : Nat} {record record' : MessageObject}
    (h : AfterCalls ops m₀ m) (hnext : nextRecord ops fuel m record = .ok (m', record')) :
    AfterCalls ops m₀ m'
  | skip {m m' : RecordMaterializer LevelReader} {fuel : Nat} (h : AfterCalls ops m₀ m)
    (hskip : skipRecord fuel m = .ok m') : AfterCalls ops m₀ m'

/-- So the columns are covered after any calls. By induction on the calls. -/
theorem AfterCalls.covered {ops : DoubleOps} {m₀ m : RecordMaterializer LevelReader}
    (h : AfterCalls ops m₀ m) (h₀ : AllCovered m₀.columns_) : AllCovered m.columns_ := by
  induction h with
  | start => exact h₀
  | next _ hnext ih =>
    obtain ⟨⟨columns_, record₁⟩, hload, hret⟩ := Result.bind_eq_ok.mp hnext
    cases hret
    exact loadColumns_covered ih hload
  | skip _ hskip ih =>
    obtain ⟨columns_, hskipped, hret⟩ := Result.bind_eq_ok.mp hskip
    cases hret
    exact skipColumns_covered ih hskipped

/-! ### The columns of a message schema -/

/-- A column as it is constructed: nothing has been fetched, and its type is one of a
column. -/
structure Fresh (column : ColumnState LevelReader) : Prop where
  pending : column.pending = false
  col_type : column.col_type ≠ .SUBRECORD

/-- A column is added as it is constructed, or there is one of its name, and the new one is
dropped. -/
theorem fresh_emplace {columns_ : List (Bytes × ColumnState LevelReader)}
    (h : ∀ p ∈ columns_, Fresh p.2) {name : Bytes} {column : ColumnState LevelReader}
    (hcolumn : Fresh column) : ∀ p ∈ emplace columns_ name column, Fresh p.2 := by
  unfold RecordMaterializer.emplace
  split_ifs
  · exact h
  · intro p hp
    rcases List.mem_append.mp hp with hp | hp
    · exact h p hp
    · obtain rfl := List.mem_singleton.mp hp
      exact hcolumn

mutual

/-- All columns that the constructor adds are as they were constructed. By induction on the
schema. -/
theorem fresh_createColumns (pre : Bytes) (dmax : Nat) (parents : List Parent)
    (field : MessageSchemaField) (reader : Bytes → Option LevelReader) (columns : List Bytes)
    (columns_ : List (Bytes × ColumnState LevelReader)) (h : ∀ p ∈ columns_, Fresh p.2) :
    ∀ p ∈ createColumns pre dmax parents field reader columns columns_, Fresh p.2 := by
  cases field with
  | object id name repeated optional schema =>
    unfold createColumns
    exact fresh_createColumnsOf _ _ _ schema reader columns columns_ h
  | scalar id name type repeated optional =>
    unfold createColumns
    split
    · exact h
    · next r _ =>
      split_ifs
      · exact fresh_emplace h ⟨rfl, r.type_ne⟩
      · exact h

/-- The fields of a schema one after the other. -/
theorem fresh_createColumnsOf (pre : Bytes) (dmax : Nat) (parents : List Parent)
    (fields : List MessageSchemaField) (reader : Bytes → Option LevelReader)
    (columns : List Bytes) (columns_ : List (Bytes × ColumnState LevelReader))
    (h : ∀ p ∈ columns_, Fresh p.2) :
    ∀ p ∈ createColumnsOf pre dmax parents fields reader columns columns_, Fresh p.2 := by
  cases fields with
  | nil =>
    unfold createColumnsOf
    exact h
  | cons f fs =>
    unfold createColumnsOf
    exact fresh_createColumnsOf pre dmax parents fs reader columns _
      (fresh_createColumns pre dmax parents f reader columns columns_ h)

end

/-- No call of `nextRecord` on the table leads outside of the counters: in any order of the
columns, after any calls, whatever the record holds already. The rounds are enough to
consume every entry. -/
def IndexesInRange (schema : MessageSchema) (reader : Bytes → Option LevelReader)
    (columns : List Bytes) : Prop :=
  ∀ (ops : DoubleOps), (∀ s, NoFault (ops.stod s)) →
    ∀ (order : WalkOrder LevelReader) (m : RecordMaterializer LevelReader),
      AfterCalls ops (new order schema reader columns) m →
      ∀ fuel, (∀ p ∈ m.columns_, entriesLeft p.2 < fuel) →
        ∀ record, NoFault (nextRecord ops fuel m record)

/-- The hash map may be walked from any column. -/
def WalkOrder.startingAt (p : Bytes × ColumnState LevelReader) : WalkOrder LevelReader where
  iterate columns := if p ∈ columns then p :: columns.erase p else columns
  perm columns := by
    split_ifs with h
    · exact (List.perm_cons_erase h).symm
    · exact List.Perm.refl _

/-- The first fetch of a column that has an entry succeeds, whatever the type is. -/
theorem Fresh.exists_fetched {column : ColumnState LevelReader} (hfresh : Fresh column)
    {e : LevelEntry} {es : List LevelEntry} (hentries : column.reader.entries = e :: es) :
    ∃ column', column.fetchIfNotPending = .ok column' := by
  have hread : ∀ {α : Type} (value : LevelEntry → α) (default : α),
      ∃ p, column.reader.read value default = .ok p := by
    intro α value default
    unfold LevelReader.read
    rw [hentries]
    dsimp only
    split_ifs <;> exact ⟨_, rfl⟩
  obtain ⟨u, hu⟩ := hread LevelEntry.uint 0
  obtain ⟨i, hi⟩ := hread LevelEntry.sint 0
  obtain ⟨f, hf⟩ := hread LevelEntry.float 0
  obtain ⟨t, ht⟩ := hread LevelEntry.str []
  unfold ColumnState.fetchIfNotPending
  rw [if_neg (by rw [hfresh.pending]; exact Bool.false_ne_true)]
  split
  · next h => exact absurd h hfresh.col_type
  · exact ⟨_, (congrArg (· >>= _) hu).trans rfl⟩
  · exact ⟨_, (congrArg (· >>= _) hu).trans rfl⟩
  · exact ⟨_, (congrArg (· >>= _) hu).trans rfl⟩
  · exact ⟨_, (congrArg (· >>= _) hi).trans rfl⟩
  · exact ⟨_, (congrArg (· >>= _) ht).trans rfl⟩
  · exact ⟨_, (congrArg (· >>= _) hf).trans rfl⟩

/-- An entry that does not fit and comes first in a new object is a fault: its level has no
counter, or one of the parents has none. -/
theorem loadColumn_fault (ops : DoubleOps)
    {column : ColumnState LevelReader} (hfresh : Fresh column)
    {e : LevelEntry} {es : List LevelEntry} (hentries : column.reader.entries = e :: es)
    (hfit : ¬EntryFits column e) (fuel : Nat) (id : UInt32) :
    loadColumn ops (fuel + 1) column (.object id []) = .error .fault := by
  obtain ⟨column', hfetch⟩ := hfresh.exists_fetched hentries
  have hfetched := (fetchIfNotPending_fetched column).2 column' hfetch
  -- it is the first entry that has been fetched
  obtain ⟨hr, hd, hdefined⟩ : column'.r = e.rlvl ∧ column'.d = e.dlvl ∧
      column'.defined = decide (e.dlvl = column.reader.dmax) := by
    rcases hfetched.entry with heq | ⟨e', hentries', h⟩
    · have hpending := hfetched.pending
      rw [heq, hfresh.pending] at hpending
      cases hpending
    · rw [hentries] at hentries'
      rwa [(List.cons.inj hentries').1]
  show loadEntries ops (fuel + 1) column (List.replicate column.reader.rmax 0) _ = _
  unfold loadEntries
  rw [hfetch, Result.ok_bind]
  by_cases hlevel : e.rlvl ≤ column.reader.rmax
  · have hcounter : column'.r ≤ (List.replicate column.reader.rmax 0).length := by
      rw [List.length_replicate, hr]
      exact hlevel
    obtain ⟨indexes, hcount, hlen⟩ := countUp_spec hcounter
    rw [hcount, Result.ok_bind]
    rw [List.length_replicate] at hlen
    have hparents : indexes.length < repeatedCount
        (enteredParents column'.parents column'.defined column'.d) := by
      rw [hlen, hfetched.parents, hdefined, hd]
      exact Nat.lt_of_not_le fun hle => hfit ⟨hlevel, hle⟩
    have hinsert : (if column'.defined then insertValue ops column' indexes (.object id [])
        else insertNull column' indexes (.object id [])) = .error .fault := by
      unfold enteredParents at hparents
      split_ifs at hparents ⊢ with hvalue
      · refine insertAt_fault _ _ _ ?_
        rwa [List.takeWhile_eq_self_iff.mpr fun _ _ => rfl]
      · exact insertAt_fault _ _ _ hparents
    rw [hinsert]
    rfl
  · rw [hr, countUp_fault (by rw [List.length_replicate]; exact Nat.lt_of_not_le hlevel)]
    rfl

/-- More rounds than any column has entries. There are finitely many columns, each with finitely
many entries left. -/
theorem exists_fuel (columns : List (Bytes × ColumnState LevelReader)) :
    ∃ fuel, ∀ p ∈ columns, entriesLeft p.2 < fuel + 1 := by
  induction columns with
  | nil => exact ⟨0, fun p hp => absurd hp List.not_mem_nil⟩
  | cons q columns ih =>
    obtain ⟨fuel, hfuel⟩ := ih
    refine ⟨fuel + entriesLeft q.2, fun p hp => ?_⟩
    rcases List.mem_cons.mp hp with rfl | hp
    · omega
    · have hlt := hfuel p hp
      omega

/-- A column of numbers, with the maxima of its header. -/
def numberColumn (name : Bytes) (rmax dmax : Nat) (entries : List LevelEntry)
    (hr : ∀ e ∈ entries, e.rlvl < 2 ^ bits rmax) (hd : ∀ e ∈ entries, e.dlvl < 2 ^ bits dmax)
    (column : Bytes) : Option LevelReader :=
  if column = name then
    some
      { type := .UNSIGNED_INT
        rmax
        dmax
        vals_total := entries.length
        vals_read := 0
        entries
        type_ne := ColumnType.noConfusion
        rlvl_lt := hr
        dlvl_lt := hd }
  else none

/-- The column `a.b`. -/
def nestedName : Bytes := chars ['a', '.', 'b']

/-- Numbers `b` in objects `a`, both repeated. -/
def nestedNumbers : MessageSchema :=
  [.object 4 (chars ['a']) true false
    [.scalar 8 (chars ['b']) ⟨.UINT64, FieldType.noConfusion⟩ true false]]

/-- A required number `b` of a required object `a`, as a table has it, with one value. -/
def requiredColumn : Bytes → Option LevelReader :=
  numberColumn nestedName 0 0 [⟨0, 0, 7, 0, 0, []⟩] (by decide) (by decide)

/-- A message schema in which `a` is repeated. -/
def repeatedParent : MessageSchema :=
  [.object 1 (chars ['a']) true false
    [.scalar 2 (chars ['b']) ⟨.UINT64, FieldType.noConfusion⟩ false false]]

end RecordMaterializer

end CStable
