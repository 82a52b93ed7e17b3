import CStable.Stx.Exception

/-!
# `CStable.Columns.WriteCall`: the calls of the column writer interface

The virtual functions `write*` of `ColumnWriter` take a repetition level, a
definition level and a value. A call is a value of type `WriteCall`, so that a
sequence of calls on a column can be spoken of.
-/

set_option autoImplicit false

namespace CStable

/-- The value of a `write*` call and with it the function called. A double is
its bit pattern, a time its microseconds. -/
inductive WriteArg where
  /-- `writeNull`. -/
  | null
  /-- `writeBoolean`. -/
  | boolean (value : Bool)
  /-- `writeUnsignedInt`. -/
  | unsignedInt (value : UInt64)
  /-- `writeSignedInt`. -/
  | signedInt (value : Int64)
  /-- `writeFloat`. -/
  | float (value : UInt64)
  /-- `writeString`. -/
  | string (value : Bytes)
  /-- `writeDateTime`. -/
  | dateTime (value : UInt64)
  deriving DecidableEq, Repr

/-- A `write*` call on a column: levels and value. -/
structure WriteCall where
  rlvl : Nat
  dlvl : Nat
  arg : WriteArg
  deriving DecidableEq, Repr

end CStable
