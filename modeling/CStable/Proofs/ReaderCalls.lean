import CStable.Columns.V1.Calls
import CStable.Proofs.ReaderClasses

/-!
# `CStable.Proofs.ReaderCalls`: calls that survive an exception

`fetchNext` and `fetchAs` (`Columns.V1.Calls`) return and raise what `readNext` and
`readAs` do (`CxxM.Extends`); on top of that they leave a reader behind.
-/

set_option autoImplicit false

namespace CStable

namespace CxxM

variable {σ τ α β : Type}

/-- A step of a reader: the value and the reader its function returns, or the exception and the
reader as it was. -/
theorem exec_step (f : σ → Result (α × σ)) (s : σ) :
    exec (step f) s = ((f s).map Prod.fst, ((f s).map Prod.snd).toOption.getD s) := by
  unfold exec step
  cases f s <;> rfl

/-- A step that returns leaves the reader its function returns. -/
theorem exec_step_ok {f : σ → Result (α × σ)} {s s' : σ} {a : α} (h : f s = .ok (a, s')) :
    exec (step f) s = (.ok a, s') := by
  rw [exec_step, h]
  rfl

/-- A step that raises leaves the reader as it was. Where a call has taken some bytes before it
raises, it is made of more than one step. -/
theorem exec_step_error {f : σ → Result (α × σ)} {s : σ} {e : Abort} (h : f s = .error e) :
    exec (step f) s = (.error e, s) := by
  rw [exec_step, h]
  rfl

/-- A conversion of the value does not touch the reader. It may raise, and the reader has moved
by then. -/
theorem exec_map (g : α → β) (x : CxxM σ α) (s : σ) :
    exec (g <$> x) s = ((exec x s).1.map g, (exec x s).2) := by
  have hbind : g <$> x = x >>= fun a => pure (g a) := (bind_pure_comp g x).symm
  rw [hbind, exec_bind]
  rcases exec x s with ⟨r, s'⟩
  cases r <;> rfl

namespace Extends

/-- One step does what its function does, since it is defined by it. The composite calls are
built from these. -/
theorem step (f : σ → Result (α × σ)) : Extends (CxxM.step f) f where
  ok _ _ _ h := exec_step_ok h
  error _ _ h := congrArg Prod.fst (exec_step_error h)

/-- Returning a value is reading nothing. -/
theorem pure (a : α) : Extends (Pure.pure a : CxxM σ α) fun s => .ok (a, s) where
  ok s b s' h := by
    cases h
    rfl
  error s e h := by cases h

/-- Raising is raising. -/
theorem abort (e : Abort) : Extends (lift (.error e) : CxxM σ α) fun _ => .error e where
  ok s a s' h := by cases h
  error s e' h := by
    cases h
    rfl

/-- Two steps do what their functions do, one after the other. After an exception they may
differ: the steps keep what was read before it. -/
theorem bind {x : CxxM σ α} {f : σ → Result (α × σ)} {y : α → CxxM σ β}
    {g : α → σ → Result (β × σ)} (hx : Extends x f) (hy : ∀ a, Extends (y a) (g a)) :
    Extends (x >>= y) fun s => f s >>= fun p => g p.1 p.2 where
  ok s b s'' h := by
    obtain ⟨⟨a, s'⟩, hf, hg⟩ := Result.bind_eq_ok.mp h
    rw [exec_bind_ok (hx.ok s a s' hf)]
    exact (hy a).ok s' b s'' hg
  error s e h := by
    cases hf : f s with
    | error e' =>
      rw [hf] at h
      cases h
      rcases hrun : exec x s with ⟨r, s'⟩
      have herr := hx.error s e hf
      rw [hrun] at herr
      rw [exec_bind_error (show exec x s = (.error e, s') from hrun.trans (Prod.ext herr rfl))]
    | ok p =>
      rw [hf, Result.ok_bind] at h
      rw [exec_bind_ok (hx.ok s p.1 p.2 hf)]
      exact (hy p.1).error p.2 e h

/-- The same for a computation on a part of the object, whose value is converted. The parts of a
column reader are its three streams. -/
theorem within {x : CxxM σ α} {f : σ → Result (α × σ)} (hx : Extends x f) (wrap : σ → τ)
    (g : α → β) (s : σ) :
    (∀ b t, ((f s).map fun p => (g p.1, wrap p.2)) = .ok (b, t) →
      CxxM.within wrap (g <$> x) s = (.ok b, t)) ∧
    ∀ e, ((f s).map fun p => (g p.1, wrap p.2)) = .error e →
      (CxxM.within wrap (g <$> x) s).1 = .error e := by
  unfold CxxM.within
  rw [exec_map]
  cases hf : f s with
  | ok p =>
    rw [hx.ok s p.1 p.2 hf]
    exact ⟨fun b t h => by cases h; rfl, fun e h => by cases h⟩
  | error e =>
    rw [hx.error s e hf]
    exact ⟨fun b t h => (by cases h), fun e' h => by cases h; rfl⟩

end Extends

end CxxM

open Support
open CxxM (Extends exec within exec_map exec_step exec_step_ok exec_step_error)

namespace BinaryMessageReader

/-- The loop over the bytes of a LEB128 number, byte by byte. By induction on the bytes a number
may have. -/
theorem varUIntFrom_extends (mem : Mapping) (fuel i value : Nat) :
    Extends (varUIntFrom mem fuel i value) (readVarUIntFrom mem fuel i value) := by
  induction fuel generalizing i value with
  | zero => exact Extends.abort _
  | succ fuel ih =>
    refine (Extends.step fun r => r.read mem 1).bind (g := fun bytes r =>
      let b := leNat bytes
      let value := value ||| ((b &&& 0x7f) <<< (7 * i % 64)) % 2 ^ 64
      if b &&& 0x80 = 0 then .ok (value, r) else readVarUIntFrom mem fuel (i + 1) value r)
      fun bytes => ?_
    dsimp only
    by_cases hlast : leNat bytes &&& 0x80 = 0
    · simp only [if_pos hlast]
      exact Extends.pure _
    · simp only [if_neg hlast]
      exact ih _ _

/-- A LEB128 number from its first byte on. -/
theorem varUInt_extends (mem : Mapping) :
    Extends (varUInt mem) fun r => r.readVarUInt mem where
  ok r v r' h := (varUIntFrom_extends mem _ 0 0).ok r v r' h
  error r e h := (varUIntFrom_extends mem _ 0 0).error r e h

/-- A string, its length before its bytes. An exception at the bytes leaves the reader behind
the length, which is why this is not one step. -/
theorem text_extends (mem : Mapping) :
    Extends (text mem) fun r => r.readUInt32 mem >>= fun p => p.2.read mem p.1 :=
  (Extends.step fun r : BinaryMessageReader => r.readUInt32 mem).bind
    fun data_len => Extends.step fun r : BinaryMessageReader => r.read mem data_len

end BinaryMessageReader

namespace v1

/-! ### One lemma per class -/

namespace DataReader

/-- A value that is read in one step is wrapped up, and so is the reader that is left,
also after an exception. -/
theorem fetch_step {α : Type} {mem : Mapping}
    {f : BinaryMessageReader → Result (α × BinaryMessageReader)}
    {wrap : BinaryMessageReader → DataReader} {value : α → Datum} {r : BinaryMessageReader}
    (hnext : next mem (wrap r) = (f r).map fun p => (value p.1, wrap p.2)) :
    exec (CxxM.step (next mem)) (wrap r) =
      ((exec (CxxM.step f) r).1.map value, wrap (exec (CxxM.step f) r).2) := by
  rw [exec_step, exec_step, hnext]
  cases f r <;> rfl

variable (mem : Mapping) (r : BinaryMessageReader)

/-- `UInt32ColumnReader`, whose read either takes all of its bytes or none. So its call is a
single step. -/
theorem fetch_uint32 : exec (fetch mem) (uint32 r) =
    ((exec (CxxM.step fun r => BinaryMessageReader.readUInt32 mem r) r).1.map .unsignedInt,
      .uint32 (exec (CxxM.step fun r => BinaryMessageReader.readUInt32 mem r) r).2) :=
  fetch_step (next_uint32 mem r)

/-- `UInt64ColumnReader`, the same with eight bytes. -/
theorem fetch_uint64 : exec (fetch mem) (uint64 r) =
    ((exec (CxxM.step fun r => BinaryMessageReader.readUInt64 mem r) r).1.map .unsignedInt,
      .uint64 (exec (CxxM.step fun r => BinaryMessageReader.readUInt64 mem r) r).2) :=
  fetch_step (next_uint64 mem r)

/-- `DoubleColumnReader`, the same with the bits of a double. -/
theorem fetch_double : exec (fetch mem) (double r) =
    ((exec (CxxM.step fun r => BinaryMessageReader.readUInt64 mem r) r).1.map .float,
      .double (exec (CxxM.step fun r => BinaryMessageReader.readUInt64 mem r) r).2) :=
  fetch_step (next_double mem r)

/-- `LEB128ColumnReader`: an exception leaves the reader behind the bytes of the number
that were there. -/
theorem fetch_leb128 : exec (fetch mem) (leb128 r) =
    ((exec (BinaryMessageReader.varUInt mem) r).1.map .unsignedInt,
      .leb128 (exec (BinaryMessageReader.varUInt mem) r).2) := by
  show within _ _ _ = _
  rw [within, exec_map]

/-- `StringColumnReader`: an exception may leave the reader behind the length, with the bytes of
the string still to come. -/
theorem fetch_string : exec (fetch mem) (string r) =
    ((exec (BinaryMessageReader.text mem) r).1.map .string,
      .string (exec (BinaryMessageReader.text mem) r).2) := by
  show within _ _ _ = _
  rw [within, exec_map]

end DataReader

/-- The data stream of a class decodes the same values. One case for each class; only those of
several steps can be left in the middle. -/
theorem DataReader.fetch_extends (mem : Mapping) :
    Extends (DataReader.fetch mem) (DataReader.next mem) := by
  have hleb128 := fun r => (BinaryMessageReader.varUInt_extends mem).within DataReader.leb128
    Datum.unsignedInt r
  have hstring := fun r => (BinaryMessageReader.text_extends mem).within DataReader.string
    Datum.string r
  constructor
  · intro d v d' h
    cases d with
    | leb128 r =>
      rw [next_leb128] at h
      exact (hleb128 r).1 v d' h
    | string r =>
      rw [next_string] at h
      exact (hstring r).1 v d' h
    | _ => exact exec_step_ok h
  · intro d e h
    cases d with
    | leb128 r =>
      rw [next_leb128] at h
      exact (hleb128 r).2 e h
    | string r =>
      rw [next_string] at h
      exact (hstring r).2 e h
    | _ => exact congrArg Prod.fst (exec_step_error h)

namespace ColumnReader

variable {mem : Mapping}

/-! ### A read, stream by stream -/

/-- The repetition level is read first, and only its stream moves. What raises behind it does
not put it back. -/
theorem fetchRlvl_ok {c : ColumnReader} {r : Nat} {rlvl_reader : BitPackDecoder}
    (hr : c.rlvl_reader.next mem = .ok (r, rlvl_reader)) :
    exec (fetchRlvl mem) c = (.ok r, { c with rlvl_reader }) :=
  exec_step_ok (by rw [hr]; rfl)

/-- A read that raises at the repetition level leaves the reader as it was. -/
theorem fetchNext_rlvl_error {c : ColumnReader} {e : Abort}
    (hr : c.rlvl_reader.next mem = .error e) : exec (fetchNext mem) c = (.error e, c) := by
  have hrlvl : exec (fetchRlvl mem) c = (.error e, c) := exec_step_error (by rw [hr]; rfl)
  exact CxxM.exec_bind_error hrlvl

/-- A read that raises at the definition level has moved the repetition level, so that the
streams are out of step for a caller that catches. -/
theorem fetchNext_dlvl_error {c : ColumnReader} {r : Nat} {rlvl_reader : BitPackDecoder}
    {e : Abort} (hr : c.rlvl_reader.next mem = .ok (r, rlvl_reader))
    (hd : c.dlvl_reader.next mem = .error e) :
    exec (fetchNext mem) c = (.error e, { c with rlvl_reader }) := by
  have hdlvl : exec (fetchDlvl mem) { c with rlvl_reader } = (.error e, { c with rlvl_reader }) :=
    exec_step_error (by rw [hd]; rfl)
  exact (CxxM.exec_bind_ok (fetchRlvl_ok hr)).trans (CxxM.exec_bind_error hdlvl)

/-- The reader after both levels of an entry. The count goes up here, before the value is
read. -/
theorem fetchDlvl_ok {c : ColumnReader} {d : Nat} {dlvl_reader : BitPackDecoder}
    (hd : c.dlvl_reader.next mem = .ok (d, dlvl_reader)) :
    exec (fetchDlvl mem) c = (.ok d, { c with dlvl_reader, vals_read := c.vals_read + 1 }) :=
  exec_step_ok (by rw [hd]; rfl)

/-- Below the maximal definition level there is no value to read. The data stream is left where
it is. -/
theorem fetchNext_null {c : ColumnReader} {r d : Nat} {rlvl_reader dlvl_reader : BitPackDecoder}
    (hr : c.rlvl_reader.next mem = .ok (r, rlvl_reader))
    (hd : c.dlvl_reader.next mem = .ok (d, dlvl_reader)) (hne : d ≠ c.d_max) :
    exec (fetchNext mem) c =
      (.ok ⟨r, d, none⟩, { c with rlvl_reader, dlvl_reader, vals_read := c.vals_read + 1 }) := by
  refine (CxxM.exec_bind_ok (fetchRlvl_ok hr)).trans ?_
  refine (CxxM.exec_bind_ok (fetchDlvl_ok (c := { c with rlvl_reader }) hd)).trans ?_
  rw [if_neg hne]
  rfl

/-- At the maximal definition level the value is read, which may raise. The levels have moved in
either case. -/
theorem fetchNext_datum {c : ColumnReader} {r : Nat} {rlvl_reader dlvl_reader : BitPackDecoder}
    (hr : c.rlvl_reader.next mem = .ok (r, rlvl_reader))
    (hd : c.dlvl_reader.next mem = .ok (c.d_max, dlvl_reader)) :
    exec (fetchNext mem) c =
      ((exec (DataReader.fetch mem) c.data_reader).1.map fun v => ⟨r, c.d_max, some v⟩,
        { c with
          rlvl_reader, dlvl_reader, vals_read := c.vals_read + 1
          data_reader := (exec (DataReader.fetch mem) c.data_reader).2 }) := by
  refine (CxxM.exec_bind_ok (fetchRlvl_ok hr)).trans ?_
  refine (CxxM.exec_bind_ok (fetchDlvl_ok (c := { c with rlvl_reader }) hd)).trans ?_
  rw [if_pos rfl, CxxM.exec_bind]
  have hdatum : ∀ c : ColumnReader, exec (fetchDatum mem) c =
      ((exec (DataReader.fetch mem) c.data_reader).1,
        { c with data_reader := (exec (DataReader.fetch mem) c.data_reader).2 }) := fun _ => rfl
  rw [hdatum]
  dsimp only
  cases (exec (DataReader.fetch mem) c.data_reader).1 <;> rfl

/-- An entry that is read has the level that was in front. -/
theorem rlvl_of_fetchNext {c : ColumnReader} {r : Nat} {rlvl_reader : BitPackDecoder} {e : Entry}
    (hr : c.rlvl_reader.next mem = .ok (r, rlvl_reader))
    (h : (exec (fetchNext mem) c).1 = .ok e) : e.rlvl = r := by
  cases hd : c.dlvl_reader.next mem with
  | error err =>
    rw [fetchNext_dlvl_error hr hd] at h
    cases h
  | ok p =>
    obtain ⟨d, dlvl_reader⟩ := p
    by_cases hdef : d = c.d_max
    · rw [hdef] at hd
      rw [fetchNext_datum hr hd] at h
      dsimp only at h
      cases hv : (exec (DataReader.fetch mem) c.data_reader).1 with
      | error err =>
        rw [hv] at h
        cases h
      | ok v =>
        rw [hv] at h
        cases h
        rfl
    · rw [fetchNext_null hr hd hdef] at h
      cases h
      rfl

/-- The read function of the class reads the same entries, by the three streams in their
order. -/
theorem fetchNext_extends (mem : Mapping) : Extends (fetchNext mem) (readNext mem) := by
  -- the state is dropped where an exception is not caught: what is left are the three reads
  constructor
  · intro c e c' h
    obtain ⟨⟨r, rlvl_reader⟩, hr, h⟩ := Result.bind_eq_ok.mp h
    obtain ⟨⟨d, dlvl_reader⟩, hd, h⟩ := Result.bind_eq_ok.mp h
    dsimp only at h
    by_cases hdef : d = c.d_max
    · rw [if_pos hdef] at h
      obtain ⟨⟨v, data_reader⟩, hv, hret⟩ := Result.bind_eq_ok.mp h
      cases hret
      rw [hdef] at hd
      rw [fetchNext_datum hr hd, (DataReader.fetch_extends mem).ok _ _ _ hv, hdef]
      rfl
    · rw [if_neg hdef] at h
      cases h
      exact fetchNext_null hr hd hdef
  · intro c e h
    unfold readNext at h
    cases hr : c.rlvl_reader.next mem with
    -- the repetition level raises, and nothing else was read
    | error e' =>
      rw [hr] at h
      cases h
      exact congrArg Prod.fst (fetchNext_rlvl_error hr)
    | ok p =>
      obtain ⟨r, rlvl_reader⟩ := p
      rw [hr, Result.ok_bind] at h
      dsimp only at h
      cases hd : c.dlvl_reader.next mem with
      -- the definition level raises
      | error e' =>
        rw [hd] at h
        cases h
        exact congrArg Prod.fst (fetchNext_dlvl_error hr hd)
      | ok q =>
        obtain ⟨d, dlvl_reader⟩ := q
        rw [hd, Result.ok_bind] at h
        dsimp only at h
        by_cases hdef : d = c.d_max
        · rw [if_pos hdef] at h
          cases hv : c.data_reader.next mem with
          | ok v =>
            rw [hv] at h
            cases h
          | error e' =>
            rw [hv] at h
            cases h
            rw [hdef] at hd
            rw [fetchNext_datum hr hd]
            show (exec (DataReader.fetch mem) c.data_reader).1.map _ = _
            rw [(DataReader.fetch_extends mem).error _ _ hv]
            rfl
        · rw [if_neg hdef] at h
          cases h

/-- A read function of any type does what `readAs` does: it reads an entry and converts the
value. -/
theorem fetchAs_extends {α : Type} (mem : Mapping) (convert : ColumnEncoding → Datum → Result α)
    (default : α) : Extends (fetchAs mem convert default) (readAs mem convert default) := by
  -- the entry is read first; only a value that is there is converted
  constructor
  · intro c v c' h
    obtain ⟨⟨e, c₁⟩, hread, h⟩ := Result.bind_eq_ok.mp h
    refine (CxxM.exec_bind_ok ((fetchNext_extends mem).ok c e c₁ hread)).trans ?_
    dsimp only at h ⊢
    cases hv : e.value with
    | none =>
      rw [hv] at h
      cases h
      rfl
    | some x =>
      rw [hv] at h
      obtain ⟨y, hy, hret⟩ := Result.bind_eq_ok.mp h
      cases hret
      dsimp only
      rw [hy]
      rfl
  · intro c e h
    unfold readAs at h
    cases hread : c.readNext mem with
    | error e' =>
      rw [hread] at h
      cases h
      rcases hrun : exec (fetchNext mem) c with ⟨r, c₁⟩
      have herr := (fetchNext_extends mem).error c e hread
      rw [hrun] at herr
      exact congrArg Prod.fst (CxxM.exec_bind_error (hrun.trans (Prod.ext herr rfl)))
    | ok p =>
      obtain ⟨entry, c₁⟩ := p
      rw [hread, Result.ok_bind] at h
      refine (congrArg Prod.fst
        (CxxM.exec_bind_ok ((fetchNext_extends mem).ok c entry c₁ hread))).trans ?_
      dsimp only at h ⊢
      cases hv : entry.value with
      | none =>
        rw [hv] at h
        cases h
      | some x =>
        rw [hv] at h
        dsimp only at h ⊢
        cases hy : convert c.data_reader.encoding x with
        | ok y =>
          rw [hy] at h
          cases h
        | error e' =>
          rw [hy] at h
          cases h
          rfl

end ColumnReader

end v1

end CStable
