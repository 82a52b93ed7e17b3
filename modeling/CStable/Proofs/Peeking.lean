import CStable.Proofs.LevelStream
import CStable.Proofs.ReaderCalls
import CStable.Proofs.TypedViews

/-!
# `CStable.Proofs.Peeking`: `nextRepetitionLevel` has no effect and is exact

Calls of a column reader are made in any order by a caller that catches exceptions
(`Columns.V1.Calls`). Two readers that differ in the block a `peek` has unpacked
answer every call alike (`PeekedAlike.call`), so the calls of `nextRepetitionLevel`
can be left out of a run (`transcript_filter`).

That a `peek` returns the level of the next entry depends on the level stream alone.
`LevelsLeft` is its invariant, for a stream of no bits and for one of blocks; the
theorem is therefore about every column that was written, whatever its other streams
hold.
-/

set_option autoImplicit false

namespace CStable

open Support
open CxxM (exec exec_map)

namespace v1

/-! ### Level streams -/

/-- The stream has the levels in front of it, and zeros or its end behind them. -/
def LevelsLeft (mem : Mapping) (d : BitPackDecoder) (levels : List Nat) : Prop :=
  (d.maxbits = 0 ∧ ∀ v ∈ levels, v = 0) ∨
    ∃ (d₀ : BitPackDecoder) (k : Nat),
      d₀.Remains mem (levels ++ List.replicate k 0) ∧ d.peeked mem = d₀.peeked mem

namespace LevelsLeft

variable {mem : Mapping} {d : BitPackDecoder} {levels : List Nat}

/-- Unpacking the block that is peeked at leaves the same levels. -/
theorem peeked (h : LevelsLeft mem d levels) : LevelsLeft mem (d.peeked mem) levels := by
  rcases h with ⟨hzero, hall⟩ | ⟨d₀, k, hremains, hsame⟩
  · have hpeek : d.peek mem = .ok (0, d) := BitPackDecoder.fetch_none hzero false
    rw [BitPackDecoder.peeked_of_ok hpeek]
    exact Or.inl ⟨hzero, hall⟩
  · exact Or.inr ⟨d₀, k, hremains, by rw [BitPackDecoder.peeked_peeked, hsame]⟩

/-- The first level is the next one, and the others are left behind it. -/
theorem next {v : Nat} (h : LevelsLeft mem d (v :: levels)) :
    ∃ d', d.next mem = .ok (v, d') ∧ LevelsLeft mem d' levels := by
  rcases h with ⟨hzero, hall⟩ | ⟨d₀, k, hremains, hsame⟩
  · refine ⟨d, ?_, Or.inl ⟨hzero, fun x hx => hall x (List.mem_cons_of_mem v hx)⟩⟩
    rw [hall v List.mem_cons_self]
    exact BitPackDecoder.fetch_none hzero true
  · obtain ⟨d', hnext, hrest⟩ := hremains.next
    refine ⟨d', ?_, Or.inr ⟨d', k, hrest, rfl⟩⟩
    rw [← BitPackDecoder.next_peeked, hsame, BitPackDecoder.next_peeked, hnext]

/-- A `peek` sees the first level, or a zero behind the last, which is the fill of the block.
The two look alike to the caller. -/
theorem peek (h : LevelsLeft mem d levels) :
    d.peek mem = .ok (levels.headD 0, d.peeked mem) := by
  rcases h with ⟨hzero, hall⟩ | ⟨d₀, k, hremains, hsame⟩
  · have hhead : levels.headD 0 = 0 := by
      cases levels with
      | nil => rfl
      | cons v vs => exact hall v List.mem_cons_self
    have hpeek : d.peek mem = .ok (0, d) := BitPackDecoder.fetch_none hzero false
    rw [hhead, BitPackDecoder.peeked_of_ok hpeek, hpeek]
  · have hpeek : d₀.peek mem = .ok (levels.headD 0, d₀.peeked mem) := by
      cases hvalues : levels ++ List.replicate k 0 with
      | nil =>
        -- no block is left: the size is checked
        rw [hvalues] at hremains
        rw [(List.append_eq_nil_iff.mp hvalues).1]
        rw [BitPackDecoder.peeked_of_ok hremains.peek_nil]
        exact hremains.peek_nil
      | cons v rest =>
        have hv : v = levels.headD 0 := by
          cases levels with
          | nil =>
            have hzero : v ∈ List.replicate k 0 := by
              rw [show List.replicate k 0 = v :: rest from hvalues]
              exact List.mem_cons_self
            exact List.eq_of_mem_replicate hzero
          | cons x xs => exact (List.cons.inj hvalues).1.symm
        rw [hvalues] at hremains
        obtain ⟨d', hnext, -⟩ := hremains.next
        rw [← hv]
        exact BitPackDecoder.peek_of_next hnext
    rw [← BitPackDecoder.peek_peeked, hsame, BitPackDecoder.peek_peeked, hpeek]

end LevelsLeft

namespace ColumnReader

variable {ops : FloatOps} {mem : Mapping}

/-! ### Answers -/

/-- An entry as a read function of any type returns it, unless the conversion raises. -/
def viewOf {α : Type} (convert : ColumnEncoding → Datum → Result α) (default : α)
    (encoding : ColumnEncoding) (e : Entry) : Result (View α) :=
  match e.value with
  | some v => (convert encoding v).map fun value => ⟨e.rlvl, e.dlvl, value, true⟩
  | none => .ok ⟨e.rlvl, e.dlvl, default, false⟩

/-- What a call returns for the entry it reads. -/
def answerOf (ops : FloatOps) (encoding : ColumnEncoding) (e : Entry) :
    ReaderCall → Result Answer
  | .nextRepetitionLevel => .ok (.level e.rlvl)
  | .readBoolean => (viewOf (asBoolean ops) false encoding e).map .boolean
  | .readUnsignedInt => (viewOf (asUnsignedInt ops) 0 encoding e).map .unsignedInt
  | .readSignedInt => (viewOf (asSignedInt ops) 0 encoding e).map .signedInt
  | .readFloat => (viewOf (asFloat ops) 0 encoding e).map .float
  | .readString => (viewOf (asString ops) [] encoding e).map .string
  | .skipValue =>
    match encoding with
    | .BOOLEAN_BITPACKED => (viewOf (asBoolean ops) false encoding e).map fun _ => .skipped
    | .FLOAT_IEEE754 => (viewOf (asFloat ops) 0 encoding e).map fun _ => .skipped
    | .STRING_PLAIN => (viewOf (asString ops) [] encoding e).map fun _ => .skipped
    | _ => (viewOf (asUnsignedInt ops) 0 encoding e).map fun _ => .skipped

/-- The level an answer reports. -/
def Answer.rlvl? : Answer → Option Nat
  | .level r => some r
  | .boolean v => some v.rlvl
  | .unsignedInt v => some v.rlvl
  | .signedInt v => some v.rlvl
  | .float v => some v.rlvl
  | .string v => some v.rlvl
  | .skipped => none

/-- A read function fetches the entry and converts its value; an exception of the conversion
comes after the streams have moved. -/
theorem exec_fetchAs {α : Type} (convert : ColumnEncoding → Datum → Result α) (default : α)
    (c : ColumnReader) :
    exec (fetchAs mem convert default) c =
      ((exec (fetchNext mem) c).1 >>= viewOf convert default c.data_reader.encoding,
        (exec (fetchNext mem) c).2) := by
  refine (CxxM.exec_bind _ _ c).trans ?_
  rcases exec (fetchNext mem) c with ⟨r, c'⟩
  cases r with
  | error e => rfl
  | ok e =>
    dsimp only
    rw [Result.ok_bind]
    unfold viewOf
    cases e.value with
    | none => rfl
    | some v =>
      dsimp only
      cases convert c.data_reader.encoding v <;> rfl

/-- Every call but `nextRepetitionLevel` reads the next entry and answers by it. They differ in
the answer only. -/
theorem exec_call (ops : FloatOps) (mem : Mapping) {k : ReaderCall}
    (hk : k ≠ .nextRepetitionLevel) (c : ColumnReader) :
    exec (call ops mem k) c =
      ((exec (fetchNext mem) c).1 >>= fun e => answerOf ops c.data_reader.encoding e k,
        (exec (fetchNext mem) c).2) := by
  have hmap : ∀ {α : Type} (convert : ColumnEncoding → Datum → Result α) (default : α)
      (g : View α → Answer),
      exec (g <$> fetchAs mem convert default) c =
        ((exec (fetchNext mem) c).1 >>= fun e =>
          (viewOf convert default c.data_reader.encoding e).map g,
          (exec (fetchNext mem) c).2) := by
    intro α convert default g
    rw [exec_map, exec_fetchAs]
    cases (exec (fetchNext mem) c).1 <;> rfl
  cases k with
  | nextRepetitionLevel => exact absurd rfl hk
  | readBoolean => exact hmap _ _ _
  | readUnsignedInt => exact hmap _ _ _
  | readSignedInt => exact hmap _ _ _
  | readFloat => exact hmap _ _ _
  | readString => exact hmap _ _ _
  -- a skip reads by the type of the class and drops the value
  | skipValue =>
    obtain ⟨r_max, d_max, vals_total, vals_read, rlvl_reader, dlvl_reader, data_reader⟩ := c
    cases data_reader with
    | boolean d => exact hmap (asBoolean ops) false _
    | double r => exact hmap (asFloat ops) 0 _
    | string r => exact hmap (asString ops) [] _
    | _ => exact hmap (asUnsignedInt ops) 0 _

/-! ### Two readers that differ in a `peek` -/

/-- The reader with its next block of repetition levels unpacked. -/
def lookAhead (mem : Mapping) (c : ColumnReader) : ColumnReader :=
  { c with rlvl_reader := c.rlvl_reader.peeked mem }

/-- Readers that are the same once both have peeked. -/
def PeekedAlike (mem : Mapping) (c c' : ColumnReader) : Prop := c.lookAhead mem = c'.lookAhead mem

/-- A second `peek` at the same level does nothing. -/
theorem lookAhead_lookAhead (mem : Mapping) (c : ColumnReader) :
    (c.lookAhead mem).lookAhead mem = c.lookAhead mem := by
  unfold lookAhead
  dsimp only
  rw [BitPackDecoder.peeked_peeked]

/-- `nextRepetitionLevel` unpacks the block and does nothing else; in particular it takes no
level. -/
theorem exec_nextRepetitionLevel (ops : FloatOps) (mem : Mapping) (c : ColumnReader) :
    exec (call ops mem .nextRepetitionLevel) c =
      (((c.rlvl_reader.peek mem).map Prod.fst).map .level, c.lookAhead mem) := by
  show exec (Answer.level <$> CxxM.step _) c = _
  rw [exec_map, CxxM.exec_step]
  unfold nextRepetitionLevel lookAhead
  cases hpeek : c.rlvl_reader.peek mem with
  | ok p =>
    rw [BitPackDecoder.peeked_of_ok (show c.rlvl_reader.peek mem = .ok (p.1, p.2) from hpeek)]
    rfl
  | error e =>
    rw [BitPackDecoder.peeked_of_error hpeek]
    rfl

/-- A read from a reader that has peeked. Where the level can be read nothing is left
of the difference; where it cannot, `peek` has not moved the reader. -/
theorem exec_fetchNext_lookAhead (mem : Mapping) (c : ColumnReader) :
    exec (fetchNext mem) (c.lookAhead mem) = exec (fetchNext mem) c := by
  cases hr : c.rlvl_reader.next mem with
  | error e =>
    have hsame : c.lookAhead mem = c := by
      unfold lookAhead
      rw [BitPackDecoder.peeked_of_next_error hr]
    rw [hsame]
  | ok p =>
    obtain ⟨r, rlvl_reader⟩ := p
    have hr' : (c.lookAhead mem).rlvl_reader.next mem = .ok (r, rlvl_reader) :=
      BitPackDecoder.next_peeked.trans hr
    refine (CxxM.exec_bind_ok (fetchRlvl_ok hr')).trans ?_
    exact (show exec (fetchNext mem) c = _ from CxxM.exec_bind_ok (fetchRlvl_ok hr)).symm

variable (ops) in
/-- Readers that are alike answer every call alike, and stay alike. This is the step lemma, with
a case for the call that peeks. -/
theorem PeekedAlike.call {c c' : ColumnReader} (h : PeekedAlike mem c c') (k : ReaderCall) :
    (exec (call ops mem k) c).1 = (exec (call ops mem k) c').1 ∧
      PeekedAlike mem (exec (call ops mem k) c).2 (exec (call ops mem k) c').2 := by
  by_cases hk : k = .nextRepetitionLevel
  · have hpeek : c.rlvl_reader.peek mem = c'.rlvl_reader.peek mem := by
      have hreader : c.rlvl_reader.peeked mem = c'.rlvl_reader.peeked mem :=
        congrArg ColumnReader.rlvl_reader (show c.lookAhead mem = c'.lookAhead mem from h)
      rw [← BitPackDecoder.peek_peeked, hreader, BitPackDecoder.peek_peeked]
    rw [hk, exec_nextRepetitionLevel, exec_nextRepetitionLevel, hpeek]
    exact ⟨rfl, by rw [h]; rfl⟩
  · have hfetch : exec (fetchNext mem) c = exec (fetchNext mem) c' := by
      rw [← exec_fetchNext_lookAhead, show c.lookAhead mem = c'.lookAhead mem from h,
        exec_fetchNext_lookAhead]
    have hclass : (c.lookAhead mem).data_reader = (c'.lookAhead mem).data_reader := by
      rw [show c.lookAhead mem = c'.lookAhead mem from h]
    have hclass : c.data_reader = c'.data_reader := hclass
    rw [exec_call ops mem hk, exec_call ops mem hk, hfetch, hclass]
    exact ⟨rfl, rfl⟩

variable (ops) in
/-- Leaving out the calls of `nextRepetitionLevel` changes nothing for the others. By induction
on the calls. -/
theorem PeekedAlike.transcript (calls : List ReaderCall) :
    ∀ {c c' : ColumnReader}, PeekedAlike mem c c' →
      (transcript ops mem calls c).filter (fun p => p.1 ≠ .nextRepetitionLevel) =
        transcript ops mem (calls.filter (· ≠ .nextRepetitionLevel)) c' ∧
      PeekedAlike mem (afterCalls ops mem calls c)
        (afterCalls ops mem (calls.filter (· ≠ .nextRepetitionLevel)) c') := by
  induction calls with
  | nil => exact fun h => ⟨rfl, h⟩
  | cons k ks ih =>
    intro c c' h
    by_cases hk : k = .nextRepetitionLevel
    · have hafter : PeekedAlike mem (exec (ColumnReader.call ops mem k) c).2 c' := by
        rw [hk, exec_nextRepetitionLevel]
        exact (lookAhead_lookAhead mem c).trans h
      obtain ⟨hrest, hstate⟩ := ih hafter
      rw [ColumnReader.transcript, List.filter_cons_of_neg (by simpa using hk),
        List.filter_cons_of_neg (by simpa using hk)]
      exact ⟨hrest, hstate⟩
    · obtain ⟨hanswer, hafter⟩ := h.call ops k
      obtain ⟨hrest, hstate⟩ := ih hafter
      rw [ColumnReader.transcript, List.filter_cons_of_pos (by simpa using hk),
        List.filter_cons_of_pos (by simpa using hk), ColumnReader.transcript, hanswer, hrest]
      exact ⟨rfl, hstate⟩

/-! ### Any calls of a reader -/

/-- The number of entries the calls read. -/
def readsOf (calls : List ReaderCall) : Nat := calls.countP (· ≠ .nextRepetitionLevel)

/-- Without its peeks a list of calls has reads only. -/
theorem reads_filter (calls : List ReaderCall) :
    ∀ k ∈ calls.filter (· ≠ .nextRepetitionLevel), k ≠ .nextRepetitionLevel := fun k hk => by
  simpa using (List.mem_filter.mp hk).2

/-- And as many of them as are counted. -/
theorem length_filter_reads (calls : List ReaderCall) :
    (calls.filter (· ≠ .nextRepetitionLevel)).length = readsOf calls :=
  List.countP_eq_length_filter.symm

variable (ops) in
/-- A call that reads takes one level from the stream, whatever becomes of the rest of
the entry; `nextRepetitionLevel` takes none. -/
theorem levelsLeft_call {c : ColumnReader} {levels : List Nat}
    (h : LevelsLeft mem c.rlvl_reader levels) (k : ReaderCall)
    (hk : k = .nextRepetitionLevel ∨ levels ≠ []) :
    LevelsLeft mem (exec (call ops mem k) c).2.rlvl_reader (levels.drop (readsOf [k])) := by
  by_cases hpeek : k = .nextRepetitionLevel
  · rw [hpeek, exec_nextRepetitionLevel]
    exact h.peeked
  · have hone : readsOf [k] = 1 := by
      unfold readsOf
      rw [List.countP_cons_of_pos (by simpa using hpeek), List.countP_nil]
    obtain ⟨r, levels, rfl⟩ := List.exists_cons_of_ne_nil (hk.resolve_left hpeek)
    obtain ⟨rlvl_reader, hr, hrest⟩ := h.next
    rw [hone, exec_call ops mem hpeek, List.drop_one, List.tail_cons]
    dsimp only
    -- the repetition level is consumed first, also by a call that raises after it
    cases hd : c.dlvl_reader.next mem with
    | error e =>
      rw [fetchNext_dlvl_error hr hd]
      exact hrest
    | ok p =>
      obtain ⟨d, dlvl_reader⟩ := p
      by_cases hdef : d = c.d_max
      · rw [hdef] at hd
        rw [fetchNext_datum hr hd]
        exact hrest
      · rw [fetchNext_null hr hd hdef]
        exact hrest

variable (ops) in
/-- After any calls that read no more entries than there are, the levels of the others
are left. -/
theorem levelsLeft_afterCalls (calls : List ReaderCall) :
    ∀ {c : ColumnReader} {levels : List Nat}, LevelsLeft mem c.rlvl_reader levels →
      readsOf calls ≤ levels.length →
      LevelsLeft mem (afterCalls ops mem calls c).rlvl_reader (levels.drop (readsOf calls)) := by
  induction calls with
  | nil => exact fun h _ => h
  | cons k ks ih =>
    intro c levels h hcount
    have hsum : readsOf (k :: ks) = readsOf [k] + readsOf ks := by
      unfold readsOf
      rw [← List.singleton_append, List.countP_append]
    have hk : k = .nextRepetitionLevel ∨ levels ≠ [] := by
      by_cases hpeek : k = .nextRepetitionLevel
      · exact Or.inl hpeek
      · refine Or.inr fun hnil => ?_
        rw [hnil, List.length_nil, readsOf,
          List.countP_cons_of_pos (by simpa using hpeek)] at hcount
        exact absurd hcount (Nat.not_succ_le_zero _)
    have hstep := ih (levelsLeft_call ops h k hk) (by
      rw [List.length_drop]
      omega)
    rw [List.drop_drop, ← hsum] at hstep
    exact hstep

variable (ops) in
/-- Calls that read take one entry each. `P` is an invariant of readers that have some
entries in front of them. -/
theorem afterCalls_of_readNext {P : ColumnReader → List Entry → Prop}
    (hP : ∀ c e entries, P c (e :: entries) → ∃ c', c.readNext mem = .ok (e, c') ∧ P c' entries)
    {calls : List ReaderCall} (hreads : ∀ k ∈ calls, k ≠ .nextRepetitionLevel) :
    ∀ {c : ColumnReader} {entries : List Entry}, P c entries → calls.length ≤ entries.length →
      P (afterCalls ops mem calls c) (entries.drop calls.length) ∧
        (afterCalls ops mem calls c).data_reader.encoding = c.data_reader.encoding ∧
        (afterCalls ops mem calls c).data_reader.maxValue = c.data_reader.maxValue ∧
        (afterCalls ops mem calls c).r_max = c.r_max ∧
        (afterCalls ops mem calls c).d_max = c.d_max := by
  induction calls with
  | nil => exact fun h _ => ⟨h, rfl, rfl, rfl, rfl⟩
  | cons k ks ih =>
    intro c entries h hlen
    cases entries with
    | nil => exact absurd hlen (Nat.not_succ_le_zero _)
    | cons e entries =>
      obtain ⟨c', hread, hrest⟩ := hP c e entries h
      have hstate : (exec (call ops mem k) c).2 = c' := by
        rw [exec_call ops mem (hreads k List.mem_cons_self),
          (fetchNext_extends mem).ok c e c' hread]
      obtain ⟨hafter, henc, hmax, hrm, hdm⟩ := ih
        (fun k' hk' => hreads k' (List.mem_cons_of_mem k hk')) hrest
        (Nat.le_of_succ_le_succ hlen)
      have hstep := reads_readNext hread
      rw [ColumnReader.afterCalls, List.foldl_cons, hstate]
      exact ⟨hafter, henc.trans hstep.encoding, hmax.trans hstep.maxValue,
        hrm.trans hstep.r_max, hdm.trans hstep.d_max⟩

/-- Peeking at a column of these levels has no effect on the reads and is exact. -/
structure PeekExact (ops : FloatOps) (mem : Mapping) (c : ColumnReader) (levels : List Nat) :
    Prop where
  /-- The other calls return and raise the same without the peeks. -/
  frame : ∀ calls, (transcript ops mem calls c).filter (fun p => p.1 ≠ .nextRepetitionLevel) =
    transcript ops mem (calls.filter (· ≠ .nextRepetitionLevel)) c
  /-- After any calls that read no more entries than there are, `nextRepetitionLevel`
  returns the level of the next one, or zero behind the last. -/
  level : ∀ calls, readsOf calls ≤ levels.length →
    (exec (call ops mem .nextRepetitionLevel) (afterCalls ops mem calls c)).1 =
      .ok (.level (levels.getD (readsOf calls) 0))
  /-- An entry that is returned next has that level. -/
  next : ∀ calls, readsOf calls < levels.length → ∀ k, k ≠ .nextRepetitionLevel →
    ∀ v, (exec (call ops mem k) (afterCalls ops mem calls c)).1 = .ok v →
      ∀ r, v.rlvl? = some r → r = levels.getD (readsOf calls) 0

/-- The reads return the entries in their order, converted to the type asked for,
however often `nextRepetitionLevel` is called between them. -/
def ReadsEntries (ops : FloatOps) (mem : Mapping) (c : ColumnReader) (entries : List Entry) :
    Prop :=
  ∀ calls e, entries[readsOf calls]? = some e → ∀ k, k ≠ .nextRepetitionLevel →
    (exec (call ops mem k) (afterCalls ops mem calls c)).1 =
      answerOf ops c.data_reader.encoding e k

/-- The level of an answer is the level of its entry, whatever the type that was asked for. The
conversion is of the value only. -/
theorem rlvl_answerOf {encoding : ColumnEncoding} {e : Entry} {k : ReaderCall} {v : Answer}
    {r : Nat} (h : answerOf ops encoding e k = .ok v) (hr : v.rlvl? = some r) : r = e.rlvl := by
  have hview : ∀ {α : Type} {convert : ColumnEncoding → Datum → Result α} {default : α}
      {g : View α → Answer}, (∀ w, (g w).rlvl? = some w.rlvl ∨ (g w).rlvl? = none) →
      (viewOf convert default encoding e).map g = .ok v → r = e.rlvl := by
    intro α convert default g hg hmap
    -- whatever the conversion does to the value, the level is that of the entry
    have hlevel : ∀ w, viewOf convert default encoding e = .ok w → w.rlvl = e.rlvl := by
      intro w hw
      unfold viewOf at hw
      cases hvalue : e.value with
      | none =>
        rw [hvalue] at hw
        cases hw
        rfl
      | some x =>
        rw [hvalue] at hw
        dsimp only at hw
        cases hx : convert encoding x with
        | ok y =>
          rw [hx] at hw
          cases hw
          rfl
        | error err =>
          rw [hx] at hw
          cases hw
    cases hw : viewOf convert default encoding e with
    | error err =>
      rw [hw] at hmap
      cases hmap
    | ok w =>
      rw [hw] at hmap
      cases hmap
      rcases hg w with hsome | hnone
      · rw [hsome] at hr
        cases hr
        exact hlevel w hw
      · rw [hnone] at hr
        cases hr
  cases k with
  -- the peeked level is the answer itself; the others carry it in a view, or not at all
  | nextRepetitionLevel =>
    cases h
    cases hr
    rfl
  | skipValue => cases encoding <;> exact hview (fun _ => Or.inr rfl) h
  | _ => exact hview (fun _ => Or.inl rfl) h

/-- A reader whose levels are left in the stream peeks exactly. The other streams may hold
anything, and their reads may raise. -/
theorem peekExact_of_levels {c : ColumnReader} {levels : List Nat}
    (h : LevelsLeft mem c.rlvl_reader levels) : PeekExact ops mem c levels where
  frame calls := (PeekedAlike.transcript ops calls (rfl : PeekedAlike mem c c)).1
  level calls hcount := by
    have hleft := levelsLeft_afterCalls ops calls h hcount
    have hhead : (levels.drop (readsOf calls)).headD 0 = levels.getD (readsOf calls) 0 := by
      rw [List.headD_eq_head?_getD, List.head?_drop, List.getD_eq_getElem?_getD]
    rw [exec_nextRepetitionLevel, hleft.peek, hhead]
    rfl
  next calls hcount k hk v hv r hr := by
    have hleft := levelsLeft_afterCalls ops calls h (Nat.le_of_lt hcount)
    rw [List.drop_eq_getElem_cons hcount] at hleft
    obtain ⟨rlvl_reader, hnext, -⟩ := hleft.next
    rw [exec_call ops mem hk] at hv
    obtain ⟨e, hfetch, hanswer⟩ := Result.bind_eq_ok.mp hv
    rw [rlvl_answerOf hanswer hr, rlvl_of_fetchNext hnext hfetch,
      List.getD_eq_getElem _ _ hcount]

/-- A reader that delivers entries returns them, whatever is peeked at. By induction on the
calls. -/
theorem Delivers.readsEntries {c : ColumnReader} {entries : List Entry}
    (h : c.Delivers mem entries) : ReadsEntries ops mem c entries := by
  intro calls e he k hk
  have hlt : readsOf calls < entries.length := (List.getElem?_eq_some_iff.mp he).1
  have hlen := length_filter_reads calls
  -- the run without the peeks leaves a reader that is alike
  have halike := (PeekedAlike.transcript ops calls (rfl : PeekedAlike mem c c)).2
  obtain ⟨hdel, henc, -⟩ := afterCalls_of_readNext ops
    (P := fun c entries => c.Delivers mem entries) (fun _ _ _ => Delivers.readNext)
    (reads_filter calls) h (hlen ▸ Nat.le_of_lt hlt)
  rw [hlen, List.drop_eq_getElem_cons hlt] at hdel
  obtain ⟨c', hread, -⟩ := hdel.readNext
  rw [(halike.call ops k).1, exec_call ops mem hk, (fetchNext_extends mem).ok _ _ _ hread, henc,
    Result.ok_bind, (List.getElem?_eq_some_iff.mp he).2]

end ColumnReader

/-! ### Columns that were written -/

/-- The repetition levels of the calls that did not raise are in the stream. By induction on the
calls. -/
theorem ColumnWriter.callAll_levels {calls : List WriteCall} :
    ∀ {w : ColumnWriter} {levels : List Nat},
    w.rlvl_writer.maxbits = bits w.r_max → w.r_max < 2 ^ 32 →
    (∀ c ∈ calls, c.rlvl < 2 ^ bits w.r_max) → w.rlvl_writer.Encodes levels →
    (w.callAll calls).1.rlvl_writer.maxbits = bits w.r_max ∧
      (w.callAll calls).1.num_vals = w.num_vals + (w.callAll calls).2.length ∧
      (w.callAll calls).1.rlvl_writer.Encodes
        (levels ++ (w.callAll calls).2.map WriteCall.rlvl) := by
  induction calls with
  | nil =>
    intro w levels hbits _ _ henc
    refine ⟨hbits, rfl, ?_⟩
    show w.rlvl_writer.Encodes (levels ++ [])
    rw [List.append_nil]
    exact henc
  | cons c cs ih =>
    intro w levels hbits hmax hlevels henc
    have hrest : ∀ c' ∈ cs, c'.rlvl < 2 ^ bits w.r_max := fun c' hc' =>
      hlevels c' (List.mem_cons_of_mem c hc')
    unfold ColumnWriter.callAll
    cases hcall : w.call c with
    -- a call that raises is caught by the caller, and its level is not among the kept ones
    | error e => exact ih hbits hmax hrest henc
    | ok w' =>
      obtain ⟨-, hr_max, -, hcount, hrlvl, -⟩ := ColumnWriter.call_spec hcall
      have henc' : w'.rlvl_writer.Encodes (levels ++ [c.rlvl]) := by
        rw [hrlvl]
        refine henc.encode (hbits ▸ bits_le hmax) ?_
        rw [hbits]
        exact hlevels c List.mem_cons_self
      have hbits' : w'.rlvl_writer.maxbits = bits w'.r_max := by
        rw [hrlvl, BitPackEncoder.maxbits_encode, hbits, hr_max]
      obtain ⟨h₁, h₂, h₃⟩ := ih hbits' (hr_max ▸ hmax) (hr_max ▸ hrest) henc'
      rw [hr_max] at h₁
      refine ⟨h₁, ?_, ?_⟩
      · rw [h₂, hcount, List.length_cons]
        omega
      · rw [List.map_cons, List.append_cons]
        exact h₃

/-- A reader of the class opens the data stream a writer has left. -/
theorem DataReader.new_ok {dw : DataWriter} {mem : Mapping} {address : Nat}
    (hmem : HoldsAt mem address dw.commit.bytes) :
    ∃ dr, DataReader.new mem dw.encoding address dw.commit.size = .ok dr := by
  cases dw with
  | bitPackedInt max_value e =>
    have hstream : HoldsAt mem address (appendUInt32 max_value ++ e.flush.buf) := hmem
    have hload := hstream.left.load
    rw [length_appendUInt32] at hload
    exact ⟨_, (congrArg (· >>= _) hload).trans rfl⟩
  | _ => exact ⟨_, rfl⟩

/-- Every column of v0.1.0 that was written, read by any calls: `nextRepetitionLevel`
has no effect on the other calls, returns the repetition level of the next entry as long
as there is one, and zero behind the last. If the calls that wrote the column are those
that leave entries, the reads return these. A bit-packed column may have any maximum. -/
theorem peek_exact (ops : FloatOps) (encoding : ColumnEncoding) (type : UInt8)
    (max_value r_max d_max : Nat) (calls : List WriteCall) (hmax : max_value < 2 ^ 32)
    (hr : r_max < 2 ^ 32) (hd : d_max < 2 ^ 32) (hlevels : ∀ c ∈ calls, c.rlvl < 2 ^ bits r_max)
    (written : ColumnWriter × List WriteCall)
    (hwritten : (ColumnWriter.new r_max d_max
      (ColumnWriter.dataWriterOf encoding type max_value)).callAll calls = written)
    (hcount : written.2.length < 2 ^ 64) (hsize : written.1.commit.bodySize < 2 ^ 64)
    (mem : Mapping) (address : Nat) (hmem : HoldsAt mem address written.1.commit.body) :
    ∃ c, ColumnReader.new mem encoding r_max d_max address written.1.commit.bodySize = .ok c ∧
      c.PeekExact ops mem (written.2.map WriteCall.rlvl) ∧
      ∀ entries, List.Forall₂ (fun call e => entryIn
        (ColumnWriter.dataWriterOf encoding type max_value) r_max d_max call = some e)
        calls entries → c.ReadsEntries ops mem entries := by
  subst hwritten
  have hfresh := ColumnWriter.records_of_stores
    (DataWriter.stores_dataWriterOf encoding type hmax) hr hd
  obtain ⟨hbits, hnum, henc⟩ := ColumnWriter.callAll_levels hfresh.rlvl_bits hr hlevels
    hfresh.rlvl
  have hclass := (ColumnWriter.encoding_callAll calls (ColumnWriter.new r_max d_max
    (ColumnWriter.dataWriterOf encoding type max_value))).trans
      (DataWriter.encoding_dataWriterOf encoding type max_value)
  generalize hwritten : (ColumnWriter.new r_max d_max
    (ColumnWriter.dataWriterOf encoding type max_value)).callAll calls = written at *
  obtain ⟨hrmem, -, hvmem⟩ := ColumnWriter.holdsAt_body hmem
  obtain ⟨dr, hdr⟩ := DataReader.new_ok hvmem
  rw [hclass] at hdr
  have hnum' : written.1.commit.num_vals < 2 ^ 64 := by
    show written.1.num_vals < 2 ^ 64
    rw [hnum]
    exact lt_of_le_of_lt (Nat.le_of_eq (Nat.zero_add _)) hcount
  have hnew := (ColumnReader.new_body encoding r_max d_max hnum' hsize hmem).trans
    ((congrArg (· >>= _) hdr).trans rfl)
  refine ⟨_, hnew, ?_, fun entries hentries => ?_⟩
  · refine ColumnReader.peekExact_of_levels ?_
    -- a column that does not repeat has no level bits, and peeks zero
    by_cases hzero : r_max = 0
    · refine Or.inl ⟨?_, ?_⟩
      · rw [hzero]
        rfl
      · have hnone : written.1.rlvl_writer.maxbits = 0 := hbits.trans (bits_eq_zero.mpr hzero)
        unfold BitPackEncoder.Encodes at henc
        rw [if_pos hnone] at henc
        exact henc.2.2
    · exact Or.inr ⟨_, _, henc.remains hbits hr hzero hrmem, rfl⟩
  · obtain ⟨hrecords, hrm, hdm, -⟩ := hfresh.callAll_in hr hd hentries
    rw [hwritten, List.nil_append] at hrecords
    rw [hwritten] at hrm hdm
    obtain ⟨c, hopen, hdelivers⟩ := hrecords.delivers (hrm ▸ hr) (hdm ▸ hd)
      (hrecords.num_vals ▸ hnum') hmem hsize
    rw [hclass, hrm, hdm] at hopen
    cases hnew.symm.trans hopen
    exact hdelivers.readsEntries

/-- A column of three-bit numbers: a value and a null that repeats it. -/
theorem peek_exact_value_and_null :
    let written := (ColumnWriter.new 1 1 (ColumnWriter.dataWriterOf .UINT32_BITPACKED 2 7)).callAll
      [⟨0, 1, .unsignedInt 7⟩, ⟨1, 0, .null⟩]
    ∃ c, ColumnReader.new written.1.commit.body .UINT32_BITPACKED 1 1 0
        written.1.commit.bodySize = .ok c ∧
      c.PeekExact noFloats written.1.commit.body [0, 1] ∧
      c.ReadsEntries noFloats written.1.commit.body
        [⟨0, 1, some (.unsignedInt 7)⟩, ⟨1, 0, none⟩] := by
  intro written
  obtain ⟨c, hnew, hpeek, hreads⟩ := peek_exact noFloats .UINT32_BITPACKED 2 7 1 1
    [⟨0, 1, .unsignedInt 7⟩, ⟨1, 0, .null⟩] (by norm_num) (by norm_num) (by norm_num) (by decide)
    written rfl (by decide +kernel) (by decide +kernel) written.1.commit.body 0
    ⟨[], [], (List.append_nil _).symm, rfl⟩
  refine ⟨c, hnew, hpeek, hreads _ (.cons ?_ (.cons ?_ .nil))⟩ <;> decide +kernel

end v1

end CStable
