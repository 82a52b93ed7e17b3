import CStable.Columns.V1.Access

/-!
# `CStable.Columns.V1.Calls`: calls of a v0.1.0 column reader in any order

`Columns.V1.Reader` says what a read returns and which reader is left then. A read
that raises has moved some of the streams all the same: the repetition level is read
before the definition level, both before the value, and the length of a string before
its text. Here a call is a computation on the reader (`CxxM`), which is there also
after an exception, so that a caller that catches it can go on.

* `ColumnReader.call`: one call of a reader, of any of its functions.
* `ColumnReader.transcript`: any calls one after the other, with what each returned
  or raised.
-/

set_option autoImplicit false

namespace CStable

open Support

namespace CxxM

variable {σ τ α β : Type}

/-- Run a function that hands back the changed object, or abort and leave the object
as it is. -/
def step (f : σ → Result (α × σ)) : CxxM σ α := fun s =>
  match f s with
  | .ok (a, s') => (.ok a, s')
  | .error e => (.error e, s)

/-- Run a computation on a part of the object. -/
def within (wrap : σ → τ) (x : CxxM σ α) (s : σ) : Result α × τ :=
  ((exec x s).1, wrap (exec x s).2)

/-- The computation does what the function does where that returns, and aborts as the
function does. -/
structure Extends (x : CxxM σ α) (f : σ → Result (α × σ)) : Prop where
  ok : ∀ s a s', f s = .ok (a, s') → exec x s = (.ok a, s')
  error : ∀ s e, f s = .error e → (exec x s).1 = .error e

end CxxM

open CxxM (step within)

namespace BinaryMessageReader

/-- The loop of `readVarUInt`: the bytes in front of the read that raises are gone. -/
def varUIntFrom (mem : Mapping) : Nat → Nat → Nat → CxxM BinaryMessageReader Nat
  | 0, _, _ =>
    CxxM.lift (RAISE .kBufferOverflowError "requested read exceeds message bounds")
  | fuel + 1, i, value => do
    let bytes ← step fun r => r.read mem 1
    let b := leNat bytes
    let value := value ||| ((b &&& 0x7f) <<< (7 * i % 64)) % 2 ^ 64
    if b &&& 0x80 = 0 then pure value else varUIntFrom mem fuel (i + 1) value

/-- `readVarUInt`. -/
def varUInt (mem : Mapping) : CxxM BinaryMessageReader Nat := fun r =>
  CxxM.exec (varUIntFrom mem (r.size - r.pos + 1) 0 0) r

/-- The text of a string column: its length first, then as many bytes. -/
def text (mem : Mapping) : CxxM BinaryMessageReader Bytes := do
  let data_len ← step fun r => r.readUInt32 mem
  step fun r => r.read mem data_len

end BinaryMessageReader

namespace v1

/-- Decode the next value. Only two classes read more than once for it. -/
def DataReader.fetch (mem : Mapping) : CxxM DataReader Datum := fun d =>
  match d with
  | .leb128 r => within .leb128 (.unsignedInt <$> BinaryMessageReader.varUInt mem) r
  | .string r => within .string (.string <$> BinaryMessageReader.text mem) r
  | d => CxxM.exec (step (DataReader.next mem)) d

namespace ColumnReader

/-! ### The read functions -/

/-- The next repetition level of the stream. -/
def fetchRlvl (mem : Mapping) : CxxM ColumnReader Nat := step fun c => do
  let (r, rlvl_reader) ← c.rlvl_reader.next mem
  .ok (r, { c with rlvl_reader })

/-- The next definition level of the stream. With it the entry is counted. -/
def fetchDlvl (mem : Mapping) : CxxM ColumnReader Nat := step fun c => do
  let (d, dlvl_reader) ← c.dlvl_reader.next mem
  .ok (d, { c with dlvl_reader, vals_read := c.vals_read + 1 })

/-- The next value of the stream. -/
def fetchDatum (mem : Mapping) : CxxM ColumnReader Datum := fun c =>
  within (fun data_reader => { c with data_reader }) (DataReader.fetch mem) c.data_reader

/-- The read function of the class. -/
def fetchNext (mem : Mapping) : CxxM ColumnReader Entry := fun c =>
  CxxM.exec (do
    let r ← fetchRlvl mem
    let d ← fetchDlvl mem
    if d = c.d_max then do
      let v ← fetchDatum mem
      pure ⟨r, d, some v⟩
    else pure ⟨r, d, none⟩) c

/-- A read function of any type. The conversion may raise too. -/
def fetchAs {α : Type} (mem : Mapping) (convert : ColumnEncoding → Datum → Result α)
    (default : α) : CxxM ColumnReader (View α) := fun c =>
  CxxM.exec (do
    let e ← fetchNext mem
    match e.value with
    | some v => do
      let value ← CxxM.lift (convert c.data_reader.encoding v)
      pure ⟨e.rlvl, e.dlvl, value, true⟩
    | none => pure ⟨e.rlvl, e.dlvl, default, false⟩) c

/-! ### Calls -/

/-- The functions of a column reader that read. -/
inductive ReaderCall where
  | nextRepetitionLevel
  | readBoolean
  | readUnsignedInt
  | readSignedInt
  | readFloat
  | readString
  | skipValue
  deriving DecidableEq, Repr

/-- What a call returns. -/
inductive Answer where
  | level (rlvl : Nat)
  | boolean (v : View Bool)
  | unsignedInt (v : View Nat)
  | signedInt (v : View Int64)
  | float (v : View Nat)
  | string (v : View Bytes)
  | skipped
  deriving DecidableEq, Repr

/-- `skipValue`: every class reads a value with the function of its own type. -/
def skipValue (ops : FloatOps) (mem : Mapping) : CxxM ColumnReader Answer := fun c =>
  match c.data_reader with
  | .boolean _ => CxxM.exec ((fun _ => .skipped) <$> fetchAs mem (asBoolean ops) false) c
  | .double _ => CxxM.exec ((fun _ => .skipped) <$> fetchAs mem (asFloat ops) 0) c
  | .string _ => CxxM.exec ((fun _ => .skipped) <$> fetchAs mem (asString ops) []) c
  | .bitPackedInt _ _ | .uint32 _ | .uint64 _ | .leb128 _ =>
    CxxM.exec ((fun _ => .skipped) <$> fetchAs mem (asUnsignedInt ops) 0) c

/-- One call of a reader. -/
def call (ops : FloatOps) (mem : Mapping) : ReaderCall → CxxM ColumnReader Answer
  | .nextRepetitionLevel => .level <$> step fun c => c.nextRepetitionLevel mem
  | .readBoolean => .boolean <$> fetchAs mem (asBoolean ops) false
  | .readUnsignedInt => .unsignedInt <$> fetchAs mem (asUnsignedInt ops) 0
  | .readSignedInt => .signedInt <$> fetchAs mem (asSignedInt ops) 0
  | .readFloat => .float <$> fetchAs mem (asFloat ops) 0
  | .readString => .string <$> fetchAs mem (asString ops) []
  | .skipValue => skipValue ops mem

/-- Calls one after the other by a caller that catches exceptions, each with what it
returned or raised. -/
def transcript (ops : FloatOps) (mem : Mapping) :
    List ReaderCall → ColumnReader → List (ReaderCall × Result Answer)
  | [], _ => []
  | k :: ks, c =>
    (k, (CxxM.exec (call ops mem k) c).1) :: transcript ops mem ks (CxxM.exec (call ops mem k) c).2

/-- The reader after the calls. -/
def afterCalls (ops : FloatOps) (mem : Mapping) (calls : List ReaderCall) (c : ColumnReader) :
    ColumnReader :=
  calls.foldl (fun c k => (CxxM.exec (call ops mem k) c).2) c

end ColumnReader

end v1

end CStable
