import CStable.Columns.V1.Access
import CStable.Proofs.IntegerColumn

/-!
# `CStable.Proofs.TypedViews`: the typed reads of an integer column

The read functions of a column class are conversions of one value
(`Columns.V1.Access`), so reading a whole column through one of them gives the
converted entries (`readSeq_readAs`). What is left is to compare the conversions:
`readBoolean` of the four integer classes asks for a value above one instead of
above zero, and `readString` of the boolean class ignores the value.

`typedViews_iff` says for which columns the views agree all the same, and for
which sequences of `writeBoolean` calls `readBoolean` returns what was written.
-/

set_option autoImplicit false

namespace CStable

open Support

namespace v1

/-! ### Reading one entry -/

/-- A typed read of an entry whose value can be converted. -/
theorem ColumnReader.readAs_ok {α : Type} {mem : Mapping} {r r' : ColumnReader} {e : Entry}
    {convert : ColumnEncoding → Datum → Result α} {f : Datum → α} (default : α)
    (h : r.readNext mem = .ok (e, r'))
    (hconvert : ∀ v, e.value = some v → convert r.data_reader.encoding v = .ok (f v)) :
    r.readAs mem convert default =
      .ok (⟨e.rlvl, e.dlvl, (e.value.map f).getD default, e.value.isSome⟩, r') := by
  obtain ⟨rlvl, dlvl, value⟩ := e
  unfold readAs
  rw [h, Result.ok_bind]
  cases value with
  | none => rfl
  | some v =>
    dsimp only
    rw [hconvert v rfl]
    rfl

/-! ### Reading a column -/

/-- `n` calls of a read function, one after the other. -/
def readSeq {α : Type} (read : ColumnReader → Result (α × ColumnReader)) :
    Nat → ColumnReader → Result (List α)
  | 0, _ => .ok []
  | n + 1, r => do
    let (v, r) ← read r
    let vs ← readSeq read n r
    .ok (v :: vs)

/-- An entry as a typed read function returns it. -/
def Entry.view {α : Type} (f : Datum → α) (default : α) (e : Entry) : View α :=
  ⟨e.rlvl, e.dlvl, (e.value.map f).getD default, e.value.isSome⟩

/-- Reading the column through a conversion that succeeds on its entries. By induction on the
entries. -/
theorem ColumnReader.ReadsExactly.readSeq_readAs {α : Type} {mem : Mapping}
    {convert : ColumnEncoding → Datum → Result α} {f : Datum → α} (default : α)
    {encoding : ColumnEncoding} {entries : List Entry} :
    ∀ {r : ColumnReader}, r.ReadsExactly mem entries → r.data_reader.encoding = encoding →
      (∀ e ∈ entries, ∀ v, e.value = some v → convert encoding v = .ok (f v)) →
      readSeq (fun r => r.readAs mem convert default) entries.length r =
        .ok (entries.map (Entry.view f default)) := by
  induction entries with
  | nil =>
    intro r _ _ _
    rfl
  | cons e entries ih =>
    intro r hreads henc hconvert
    obtain ⟨-, r', hread, hrest⟩ := hreads
    have hfirst := readAs_ok (f := f) default hread (by
      rw [henc]
      exact hconvert e List.mem_cons_self)
    have htail := ih hrest ((reads_readNext hread).encoding.trans henc) fun e' he' =>
      hconvert e' (List.mem_cons_of_mem e he')
    rw [List.length_cons, readSeq, hfirst, Result.ok_bind]
    dsimp only
    rw [htail, Result.ok_bind, List.map_cons]
    rfl

/-- The values of an integer column are integers. -/
theorem ColumnReader.ReadsExactly.integers {mem : Mapping} {entries : List Entry} :
    ∀ {r : ColumnReader}, r.ReadsExactly mem entries → IsInteger r.data_reader.encoding →
      ∀ e ∈ entries, ∀ v, e.value = some v → ∃ x, v = .unsignedInt x := by
  induction entries with
  | nil =>
    intro r _ _ e he
    cases he
  | cons e entries ih =>
    intro r hreads hint e' he'
    obtain ⟨-, r', hread, hrest⟩ := hreads
    have hstep := reads_readNext hread
    rcases List.mem_cons.mp he' with rfl | he'
    · exact fun v hv => (hstep.kind v hv).exists_integer hint
    · exact ih hrest (hstep.encoding ▸ hint) e' he'

/-! ### Views that agree -/

/-- The text of a value: a boolean column holds truth values. -/
def textOf (encoding : ColumnEncoding) (value : Nat) : Bytes :=
  if encoding = .BOOLEAN_BITPACKED then
    if value ≠ 0 then chars ['t', 'r', 'u', 'e'] else chars ['f', 'a', 'l', 's', 'e']
  else toText value

/-- The four views of one entry agree. -/
structure ViewAgree (encoding : ColumnEncoding) (b : View Bool) (u : View Nat) (i : View Int64)
    (s : View Bytes) : Prop where
  rlvl : b.rlvl = u.rlvl ∧ i.rlvl = u.rlvl ∧ s.rlvl = u.rlvl
  dlvl : b.dlvl = u.dlvl ∧ i.dlvl = u.dlvl ∧ s.dlvl = u.dlvl
  defined : b.defined = u.defined ∧ i.defined = u.defined ∧ s.defined = u.defined
  boolean : b.value = true ↔ u.value ≠ 0
  string : u.defined = true → s.value = textOf encoding u.value

/-- The first `n` entries of a column read through the four functions. -/
def ViewsAgree (ops : FloatOps) (mem : Mapping) (r : ColumnReader) (n : Nat) : Prop :=
  ∃ bs us is ss, readSeq (fun r => r.readBoolean ops mem) n r = .ok bs ∧
    readSeq (fun r => r.readUnsignedInt ops mem) n r = .ok us ∧
    readSeq (fun r => r.readSignedInt ops mem) n r = .ok is ∧
    readSeq (fun r => r.readString ops mem) n r = .ok ss ∧
    ∀ k < n, ∃ b u i s, bs[k]? = some b ∧ us[k]? = some u ∧ is[k]? = some i ∧ ss[k]? = some s ∧
      ViewAgree r.data_reader.encoding b u i s

/-- The integer of a value. -/
def Datum.toNat : Datum → Nat
  | .unsignedInt x => x
  | _ => 0

/-- The condition `readBoolean` of a class puts on the value. -/
def booleanOf (encoding : ColumnEncoding) (x : Nat) : Bool :=
  if encoding = .BOOLEAN_BITPACKED then decide (x > 0) else decide (x > 1)

/-- The text `readString` of a class makes of the value. -/
def stringOf (encoding : ColumnEncoding) (x : Nat) : Bytes :=
  if encoding = .BOOLEAN_BITPACKED then chars ['t', 'r', 'u', 'e'] else toText x

/-- The conversions of an integer class. -/
theorem conversions (ops : FloatOps) {encoding : ColumnEncoding} (h : IsInteger encoding)
    (x : Nat) :
    asBoolean ops encoding (.unsignedInt x) = .ok (booleanOf encoding x) ∧
      asUnsignedInt ops encoding (.unsignedInt x) = .ok x ∧
      asSignedInt ops encoding (.unsignedInt x) = .ok (UInt64.ofNat x).toInt64 ∧
      asString ops encoding (.unsignedInt x) = .ok (stringOf encoding x) := by
  cases encoding with
  | FLOAT_IEEE754 => exact absurd rfl h.1
  | STRING_PLAIN => exact absurd rfl h.2
  | _ => exact ⟨rfl, rfl, rfl, rfl⟩

/-- The four readings of an integer column. -/
theorem ColumnReader.ReadsExactly.views {mem : Mapping} {r : ColumnReader}
    {entries : List Entry} (ops : FloatOps) (h : r.ReadsExactly mem entries)
    (hint : IsInteger r.data_reader.encoding) :
    readSeq (fun r => r.readBoolean ops mem) entries.length r = .ok (entries.map
        (Entry.view (fun v => booleanOf r.data_reader.encoding v.toNat) false)) ∧
      readSeq (fun r => r.readUnsignedInt ops mem) entries.length r = .ok (entries.map
        (Entry.view (fun v => v.toNat) 0)) ∧
      readSeq (fun r => r.readSignedInt ops mem) entries.length r = .ok (entries.map
        (Entry.view (fun v => (UInt64.ofNat v.toNat).toInt64) 0)) ∧
      readSeq (fun r => r.readString ops mem) entries.length r = .ok (entries.map
        (Entry.view (fun v => stringOf r.data_reader.encoding v.toNat) [])) := by
  have hval := h.integers hint
  refine ⟨h.readSeq_readAs false rfl ?_, h.readSeq_readAs 0 rfl ?_, h.readSeq_readAs 0 rfl ?_,
    h.readSeq_readAs [] rfl ?_⟩
  · intro e he v hv
    obtain ⟨x, rfl⟩ := hval e he v hv
    exact (conversions ops hint x).1
  · intro e he v hv
    obtain ⟨x, rfl⟩ := hval e he v hv
    exact (conversions ops hint x).2.1
  · intro e he v hv
    obtain ⟨x, rfl⟩ := hval e he v hv
    exact (conversions ops hint x).2.2.1
  · intro e he v hv
    obtain ⟨x, rfl⟩ := hval e he v hv
    exact (conversions ops hint x).2.2.2

/-- The value of an integer column of which not all views agree: zero is not
`"true"`, and one is not false. -/
def oddValue (encoding : ColumnEncoding) : Nat :=
  if encoding = .BOOLEAN_BITPACKED then 0 else 1

/-- The two texts a boolean is written as are different, which is all the proofs need of
them. -/
theorem chars_true_ne_false : chars ['t', 'r', 'u', 'e'] ≠ chars ['f', 'a', 'l', 's', 'e'] := by
  decide

/-- One entry: its views agree unless it holds the odd value. The boolean class prints `true`
for every value, and the others take one for false. -/
theorem viewAgree_iff {encoding : ColumnEncoding} {e : Entry}
    (hval : ∀ v, e.value = some v → ∃ x, v = .unsignedInt x) :
    ViewAgree encoding (e.view (fun v => booleanOf encoding v.toNat) false)
        (e.view (fun v => v.toNat) 0) (e.view (fun v => (UInt64.ofNat v.toNat).toInt64) 0)
        (e.view (fun v => stringOf encoding v.toNat) []) ↔
      e.value ≠ some (.unsignedInt (oddValue encoding)) := by
  obtain ⟨rlvl, dlvl, value⟩ := e
  cases value with
  | none =>
    refine iff_of_true ⟨⟨rfl, rfl, rfl⟩, ⟨rfl, rfl, rfl⟩, ⟨rfl, rfl, rfl⟩, ?_, ?_⟩ (by simp)
    · simp [Entry.view]
    · intro hdef
      cases hdef
  | some v =>
    obtain ⟨x, rfl⟩ := hval v rfl
    have hodd : (some (Datum.unsignedInt x) ≠ some (.unsignedInt (oddValue encoding))) ↔
        x ≠ oddValue encoding := by simp
    rw [hodd]
    constructor
    · intro h hx
      by_cases hbool : encoding = .BOOLEAN_BITPACKED
      · -- the text is "true" whatever the value
        have hstring := h.string rfl
        simp only [Entry.view, Option.map_some, Option.getD_some, Datum.toNat, stringOf, textOf,
          if_pos hbool, hx, oddValue, ne_eq, not_true_eq_false, if_false] at hstring
        exact chars_true_ne_false hstring
      · -- one is not above one
        have hboolean := h.boolean
        simp only [Entry.view, Option.map_some, Option.getD_some, Datum.toNat, booleanOf,
          if_neg hbool, hx, oddValue] at hboolean
        exact absurd (hboolean.mpr (by norm_num)) (by simp)
    · intro hx
      refine ⟨⟨rfl, rfl, rfl⟩, ⟨rfl, rfl, rfl⟩, ⟨rfl, rfl, rfl⟩, ?_, fun _ => ?_⟩
      · show booleanOf encoding x = true ↔ x ≠ 0
        unfold booleanOf
        unfold oddValue at hx
        split_ifs at hx ⊢ <;> rw [decide_eq_true_iff] <;> omega
      · show stringOf encoding x = textOf encoding x
        unfold stringOf textOf
        unfold oddValue at hx
        split_ifs at hx ⊢
        · rfl
        · rfl

/-- A column: the views agree unless some entry holds the odd value. The four readings are
compared entry by entry. -/
theorem viewsAgree_iff (ops : FloatOps) {mem : Mapping} {r : ColumnReader} {entries : List Entry}
    (h : r.ReadsExactly mem entries) (hint : IsInteger r.data_reader.encoding) :
    ViewsAgree ops mem r entries.length ↔
      ∀ e ∈ entries, e.value ≠ some (.unsignedInt (oddValue r.data_reader.encoding)) := by
  obtain ⟨hb, hu, hi, hs⟩ := h.views ops hint
  have hval := h.integers hint
  constructor
  · rintro ⟨bs, us, is, ss, hb', hu', hi', hs', hagree⟩ e he
    rw [hb] at hb'
    rw [hu] at hu'
    rw [hi] at hi'
    rw [hs] at hs'
    cases hb'
    cases hu'
    cases hi'
    cases hs'
    obtain ⟨k, hk, rfl⟩ := List.mem_iff_getElem.mp he
    obtain ⟨b, u, i, s, hbk, huk, hik, hsk, hview⟩ := hagree k hk
    rw [List.getElem?_map, List.getElem?_eq_getElem hk, Option.map_some] at hbk huk hik hsk
    cases hbk
    cases huk
    cases hik
    cases hsk
    exact (viewAgree_iff (hval _ he)).mp hview
  · intro hne
    refine ⟨_, _, _, _, hb, hu, hi, hs, fun k hk => ?_⟩
    have he : entries[k] ∈ entries := List.getElem_mem hk
    simp only [List.getElem?_map, List.getElem?_eq_getElem hk, Option.map_some]
    exact ⟨_, _, _, _, rfl, rfl, rfl, rfl, (viewAgree_iff (hval _ he)).mpr (hne _ he)⟩

/-! ### Booleans in a column -/

/-- The column writers whose values are numbers: the boolean class and the integer
classes. -/
inductive NumberClass where
  | boolean
  | integer (cls : IntegerClass)
  deriving DecidableEq, Repr

/-- The data stream the constructor starts with. -/
def NumberClass.dataWriter : NumberClass → DataWriter
  | boolean => .boolean (BitPackEncoder.new 1)
  | integer cls => cls.dataWriter

/-- A sequence of `writeBoolean` calls, given by the repetition levels and the
values. -/
def booleanCalls (d_max : Nat) (vs : List (Nat × Bool)) : List WriteCall :=
  vs.map fun v => ⟨v.1, d_max, .boolean v.2⟩

/-- The column after these calls. -/
def NumberClass.written (cls : NumberClass) (r_max d_max : Nat) (vs : List (Nat × Bool)) :
    ColumnWriter :=
  ((ColumnWriter.new r_max d_max cls.dataWriter).callAll (booleanCalls d_max vs)).1.commit

/-- `readBoolean` returns the booleans that were written. -/
def BooleansReadBack (ops : FloatOps) (cls : NumberClass) (r_max d_max : Nat)
    (vs : List (Nat × Bool)) : Prop :=
  ∀ mem address, HoldsAt mem address (cls.written r_max d_max vs).body →
    ∃ r, ColumnReader.new mem cls.dataWriter.encoding r_max d_max address
        (cls.written r_max d_max vs).bodySize = .ok r ∧
      readSeq (fun r => r.readBoolean ops mem) vs.length r =
        .ok (vs.map fun v => ⟨v.1, d_max, v.2, true⟩)

/-- The calls that write the booleans as integers. -/
def integerCalls (d_max : Nat) (vs : List (Nat × Bool)) : List WriteCall :=
  vs.map fun v => ⟨v.1, d_max, .unsignedInt (if v.2 then 1 else 0)⟩

/-- A boolean reaches the column as the integer it stands for. -/
theorem callAll_booleanCalls (d_max : Nat) (vs : List (Nat × Bool)) :
    ∀ w : ColumnWriter, (w.callAll (booleanCalls d_max vs)).1 =
      (w.callAll (integerCalls d_max vs)).1 := by
  induction vs with
  | nil =>
    intro w
    rfl
  | cons v vs ih =>
    intro w
    have hcall : w.call ⟨v.1, d_max, .boolean v.2⟩ =
        w.call ⟨v.1, d_max, .unsignedInt (if v.2 then 1 else 0)⟩ := by
      cases v.2 <;> rfl
    unfold booleanCalls integerCalls
    rw [List.map_cons, List.map_cons, ColumnWriter.callAll, ColumnWriter.callAll, hcall]
    cases w.call ⟨v.1, d_max, .unsignedInt (if v.2 then 1 else 0)⟩ with
    | ok w' => exact ih w'
    | error e => exact ih w

/-- The calls made of a list of values are calls of the unsigned overload, with levels inside
the maxima. -/
theorem unsignedCall_integerCalls {r_max : Nat} (d_max : Nat) {vs : List (Nat × Bool)}
    (h : ∀ v ∈ vs, v.1 ≤ r_max) : ∀ c ∈ integerCalls d_max vs, UnsignedCall r_max d_max c := by
  intro c hc
  obtain ⟨v, hv, rfl⟩ := List.mem_map.mp hc
  exact ⟨h v hv, Or.inr ⟨⟨_, rfl⟩, rfl⟩⟩

/-- None of the integer classes is the boolean one. Both have an unsigned view, with different
conversions behind it. -/
theorem IntegerClass.encoding_spec (cls : IntegerClass) :
    IsInteger cls.dataWriter.encoding ∧ cls.dataWriter.encoding ≠ .BOOLEAN_BITPACKED := by
  cases cls <;> exact ⟨⟨nofun, nofun⟩, nofun⟩

/-- What `readBoolean` makes of integers a column delivers: an integer class takes a
one for false. -/
theorem readBoolean_integerCalls (ops : FloatOps) {mem : Mapping} {r : ColumnReader} {d_max : Nat}
    {vs : List (Nat × Bool)} (h : r.ReadsExactly mem ((integerCalls d_max vs).map unsignedEntry))
    (hint : IsInteger r.data_reader.encoding)
    (hbool : r.data_reader.encoding ≠ .BOOLEAN_BITPACKED) :
    readSeq (fun r => r.readBoolean ops mem) vs.length r =
      .ok (vs.map fun v => ⟨v.1, d_max, false, true⟩) := by
  have hread := (h.views ops hint).1
  unfold integerCalls at hread
  rw [List.length_map, List.length_map, List.map_map, List.map_map] at hread
  rw [hread]
  congr 1
  apply List.map_congr_left
  intro v _
  have hval : booleanOf r.data_reader.encoding (if v.2 then (1 : UInt64) else 0).toNat = false := by
    rw [booleanOf, if_neg hbool]
    cases v.2 <;> rfl
  exact congrArg (fun b => View.mk v.1 d_max b true) hval

/-- A column that only delivers zeros reads as false throughout. -/
theorem readBoolean_below {ops : FloatOps} {mem : Mapping} {n : Nat} (hn : n ≤ 1) {k : Nat} :
    ∀ {r : ColumnReader} {bs : List (View Bool)}, r.data_reader.Below n →
      IsInteger r.data_reader.encoding →
      readSeq (fun r => r.readBoolean ops mem) k r = .ok bs → ∀ b ∈ bs, b.value = false := by
  induction k with
  | zero =>
    intro r bs _ _ h b hb
    cases h
    cases hb
  | succ k ih =>
    intro r bs hbelow hint h b hb
    obtain ⟨⟨v, r'⟩, hread, h⟩ := Result.bind_eq_ok.mp h
    obtain ⟨vs, hrest, hret⟩ := Result.bind_eq_ok.mp h
    cases hret
    unfold ColumnReader.readBoolean ColumnReader.readAs at hread
    obtain ⟨⟨e, r''⟩, hnext, hread⟩ := Result.bind_eq_ok.mp hread
    have hstep := ColumnReader.reads_readNext hnext
    obtain ⟨hbelow', hlt⟩ := hbelow.readNext hnext
    dsimp only at hread
    cases hvalue : e.value with
    | none =>
      rw [hvalue] at hread
      cases hread
      rcases List.mem_cons.mp hb with rfl | hb
      · rfl
      · exact ih hbelow' (hstep.encoding ▸ hint) hrest b hb
    | some x =>
      obtain ⟨x, rfl⟩ := (hstep.kind x hvalue).exists_integer hint
      -- below one bit there is only zero
      have hzero : x = 0 := by
        have hx := hlt x hvalue
        omega
      rw [hvalue] at hread
      dsimp only at hread
      rw [(conversions ops hint x).1, Result.ok_bind] at hread
      cases hread
      rcases List.mem_cons.mp hb with rfl | hb
      · subst hzero
        unfold booleanOf
        split_ifs <;> rfl
      · exact ih hbelow' (hstep.encoding ▸ hint) hrest b hb

/-- The entries of boolean calls on a boolean column. -/
def booleanEntries (d_max : Nat) (vs : List (Nat × Bool)) : List Entry :=
  vs.map fun v => ⟨v.1, d_max, some (.unsignedInt (if v.2 then 1 else 0))⟩

/-- A boolean column returns its booleans. -/
theorem booleansReadBack_boolean (ops : FloatOps) {r_max d_max : Nat} {vs : List (Nat × Bool)}
    (hr : r_max < 2 ^ 32) (hd : d_max < 2 ^ 32) (hvs : ∀ v ∈ vs, v.1 ≤ r_max)
    (hcount : vs.length < 2 ^ 64)
    (hsize : (NumberClass.boolean.written r_max d_max vs).bodySize < 2 ^ 64) :
    BooleansReadBack ops .boolean r_max d_max vs := by
  have hentries : List.Forall₂
      (fun c e => entryOf .BOOLEAN_BITPACKED r_max d_max c = some e)
      (booleanCalls d_max vs) (booleanEntries d_max vs) := by
    unfold booleanCalls booleanEntries
    rw [List.forall₂_map_left_iff, List.forall₂_map_right_iff, List.forall₂_same]
    intro v hv
    unfold entryOf
    rw [if_pos (hvs v hv)]
    dsimp only
    rw [if_pos rfl]
    rfl
  obtain ⟨hrec, hrm, hdm, henc⟩ :=
    (ColumnWriter.records_new hr hd .BOOLEAN_BITPACKED 0).callAll_native
    hr hd trivial hentries
  rw [List.nil_append] at hrec
  intro mem address hmem
  obtain ⟨r, hnew, hdelivers⟩ := hrec.delivers (hrm.symm ▸ hr) (hdm.symm ▸ hd)
    (by rwa [booleanEntries, List.length_map]) hmem hsize
  rw [hrm, hdm, henc] at hnew
  have hencr : r.data_reader.encoding = .BOOLEAN_BITPACKED := (ColumnReader.new_spec hnew).1
  refine ⟨r, hnew, ?_⟩
  have hread := (hdelivers.readsExactly.views ops (hencr ▸ ⟨nofun, nofun⟩)).1
  unfold booleanEntries at hread
  rw [List.length_map, List.map_map, hencr] at hread
  rw [hread]
  congr 1
  apply List.map_congr_left
  intro v _
  have hval : booleanOf .BOOLEAN_BITPACKED (if v.2 then 1 else 0) = v.2 := by
    cases v.2 <;> rfl
  exact congrArg (fun b => View.mk v.1 d_max b true) hval

/-- An integer column returns its booleans exactly when none of them is true. True is written as
one, and one is read back as false. -/
theorem booleansReadBack_integer (ops : FloatOps) (cls : IntegerClass) {r_max d_max : Nat}
    {vs : List (Nat × Bool)} (hr : r_max < 2 ^ 32) (hd : d_max < 2 ^ 32)
    (hvs : ∀ v ∈ vs, v.1 ≤ r_max) (hcount : vs.length < 2 ^ 64)
    (hsize : ((NumberClass.integer cls).written r_max d_max vs).bodySize < 2 ^ 64) :
    BooleansReadBack ops (.integer cls) r_max d_max vs ↔ ∀ v ∈ vs, v.2 = false := by
  have hwritten : (NumberClass.integer cls).written r_max d_max vs =
      ((ColumnWriter.new r_max d_max cls.dataWriter).callAll (integerCalls d_max vs)).1.commit :=
    congrArg ColumnWriter.commit (callAll_booleanCalls d_max vs _)
  have hcalls := unsignedCall_integerCalls d_max hvs
  have hlen : (integerCalls d_max vs).length < 2 ^ 64 := by
    rwa [integerCalls, List.length_map]
  unfold BooleansReadBack
  rw [hwritten] at hsize ⊢
  -- a one is stored as a number, and `readBoolean` of these classes never answers true
  have hclsenc := cls.encoding_spec
  constructor
  · intro h v hv
    obtain ⟨r, hnew, hread⟩ := h _ 0 ⟨[], [], (List.append_nil _).symm, rfl⟩
    have henc : r.data_reader.encoding = cls.dataWriter.encoding := (ColumnReader.new_spec hnew).1
    by_cases hone : 1 < cls.limit
    · -- the ones are stored, and read as false
      obtain ⟨r', hnew', hreads, -⟩ := cls.reads_back hr hd hcalls hlen hsize (by
        intro c hc x hx
        obtain ⟨v, -, rfl⟩ := List.mem_map.mp hc
        cases hx
        cases v.2
        · exact cls.limit_pos
        · exact hone) ⟨[], [], (List.append_nil _).symm, rfl⟩
      have hsame : r = r' := Except.ok.inj (hnew.symm.trans hnew')
      subst hsame
      have hfalse := readBoolean_integerCalls ops hreads (henc ▸ hclsenc.1)
        (henc ▸ hclsenc.2)
      rw [hfalse] at hread
      have heq := List.map_inj_left.mp (Except.ok.inj hread) v hv
      exact (View.mk.inj heq).2.2.1.symm
    · -- no bit is stored at all
      rcases cls.below_reader hcalls hlen hsize ⟨[], [], (List.append_nil _).symm, rfl⟩ hnew with
        hall | hbelow
      · rw [hall] at hone
        exact absurd (by norm_num) hone
      · exact readBoolean_below (Nat.not_lt.mp hone) hbelow (henc ▸ hclsenc.1) hread _
          (List.mem_map_of_mem hv)
  · intro hfalse mem address hmem
    obtain ⟨r, hnew, hreads, henc⟩ := cls.reads_back hr hd hcalls hlen hsize (by
      intro c hc x hx
      obtain ⟨v, hv, rfl⟩ := List.mem_map.mp hc
      cases hx
      rw [hfalse v hv]
      exact cls.limit_pos) hmem
    refine ⟨r, hnew, ?_⟩
    rw [readBoolean_integerCalls ops hreads (henc ▸ hclsenc.1) (henc ▸ hclsenc.2)]
    congr 1
    apply List.map_congr_left
    intro v hv
    rw [hfalse v hv]

/-- When the typed views of a column agree: for a boolean column if it holds no
zero, for an integer column if it holds no one. And when `readBoolean` returns the
booleans that were written: on a boolean column always, on an integer column if
none of them is true. -/
theorem typedViews_iff (ops : FloatOps) :
    (∀ mem r entries, ColumnReader.ReadsExactly mem r entries →
      IsInteger r.data_reader.encoding →
      (ViewsAgree ops mem r entries.length ↔
        ∀ e ∈ entries, e.value ≠ some (.unsignedInt (oddValue r.data_reader.encoding)))) ∧
    ∀ cls r_max d_max vs, r_max < 2 ^ 32 → d_max < 2 ^ 32 → (∀ v ∈ vs, v.1 ≤ r_max) →
      vs.length < 2 ^ 64 → (NumberClass.written cls r_max d_max vs).bodySize < 2 ^ 64 →
      (BooleansReadBack ops cls r_max d_max vs ↔ cls = .boolean ∨ ∀ v ∈ vs, v.2 = false) := by
  refine ⟨fun mem r entries h hint => viewsAgree_iff ops h hint, ?_⟩
  intro cls r_max d_max vs hr hd hvs hcount hsize
  cases cls with
  | boolean =>
    exact iff_of_true (booleansReadBack_boolean ops hr hd hvs hcount hsize) (Or.inl rfl)
  | integer cls =>
    rw [booleansReadBack_integer ops cls hr hd hvs hcount hsize]
    simp

/-- Conversions of doubles that integer columns never use. -/
def noFloats : FloatOps :=
  ⟨fun _ => false, fun _ => 0, fun _ => 0, fun _ => [], fun _ => 0, fun _ => .error .fault⟩

/-- A two and a null in a plain column of 64 bits, and two booleans in a boolean
column. -/
theorem typedViews_two_and_null :
    (∃ r, (let w := ((ColumnWriter.new 0 1 (.uint64 2 [])).callAll
          [⟨0, 1, .unsignedInt 2⟩, ⟨0, 0, .null⟩]).1.commit
        ColumnReader.new w.body .UINT64_PLAIN 0 1 0 w.bodySize = .ok r ∧
          ViewsAgree noFloats w.body r 2)) ∧
      BooleansReadBack noFloats .boolean 0 0 [(0, true), (0, false)] := by
  constructor
  · have hcalls : ∀ c ∈ ([⟨0, 1, .unsignedInt 2⟩, ⟨0, 0, .null⟩] : List WriteCall),
        UnsignedCall 0 1 c := by simp [UnsignedCall]
    obtain ⟨r, hnew, hreads, henc⟩ := (IntegerClass.uint64 2).reads_back (by norm_num)
      (by norm_num) hcalls (by norm_num) (by decide +kernel) (by simp; decide)
      ⟨[], [], (List.append_nil _).symm, rfl⟩
    refine ⟨r, hnew, ((typedViews_iff noFloats).1 _ _ _ hreads
      (henc ▸ (IntegerClass.uint64 2).encoding_spec.1)).mpr ?_⟩
    rw [henc]
    decide
  · exact ((typedViews_iff noFloats).2 .boolean 0 0 _ (by norm_num) (by norm_num) (by simp)
      (by norm_num) (by decide +kernel)).mpr (Or.inl rfl)

/-- A one in a plain column of 64 bits is not read as true, and a `true` written to
it is read as false. -/
theorem not_typedViews_one :
    (∃ r, (let w := ((ColumnWriter.new 0 0 (.uint64 2 [])).callAll
          [⟨0, 0, .unsignedInt 1⟩]).1.commit
        ColumnReader.new w.body .UINT64_PLAIN 0 0 0 w.bodySize = .ok r ∧
          ¬ ViewsAgree noFloats w.body r 1)) ∧
      ¬ BooleansReadBack noFloats (.integer (.uint64 2)) 0 0 [(0, true)] := by
  constructor
  · have hcalls : ∀ c ∈ ([⟨0, 0, .unsignedInt 1⟩] : List WriteCall), UnsignedCall 0 0 c := by
      simp [UnsignedCall]
    obtain ⟨r, hnew, hreads, henc⟩ := (IntegerClass.uint64 2).reads_back (by norm_num)
      (by norm_num) hcalls (by norm_num) (by decide +kernel) (by simp; decide)
      ⟨[], [], (List.append_nil _).symm, rfl⟩
    refine ⟨r, hnew, fun h => ?_⟩
    have hodd := (viewsAgree_iff noFloats hreads
      (henc ▸ (IntegerClass.uint64 2).encoding_spec.1)).mp h
    rw [henc] at hodd
    exact hodd _ List.mem_cons_self rfl
  · intro h
    have hfalse := (booleansReadBack_integer noFloats (.uint64 2) (by norm_num) (by norm_num)
      (by simp) (by norm_num) (by decide +kernel)).mp h (0, true) List.mem_cons_self
    cases hfalse

end v1

end CStable
