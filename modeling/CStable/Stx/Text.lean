import CStable.Stx.Exception
import Mathlib.Algebra.Group.Nat.Defs

/-!
# `CStable.Stx.Text`: numbers as text and as doubles

`std::stoull` and `std::stoll` of the C++ library on a byte string: leading blanks and a sign
are skipped, the longest run of digits is converted, what follows is ignored. `toText` is
`StringUtil::toString` of an unsigned integer. A double is its 64-bit pattern;
`doubleToUInt64` is the conversion of the language, defined for values the target can hold.
-/

set_option autoImplicit false

namespace CStable

/-- `isspace` in the C locale. -/
def isSpace (c : UInt8) : Bool := c == 32 || (9 ≤ c && c ≤ 13)

/-- The value of a decimal digit. -/
def digit? (c : UInt8) : Option Nat :=
  if 48 ≤ c && c ≤ 57 then some (c.toNat - 48) else none

/-- The value of a run of digits, most significant first. -/
def digitsValue (acc : Nat) : List UInt8 → Nat
  | [] => acc
  | c :: cs =>
    match digit? c with
    | some k => digitsValue (10 * acc + k) cs
    | none => acc

/-- The sign, and the value of the digits if there are any. -/
def parseInteger (s : Bytes) : Option (Bool × Nat) :=
  let s := s.dropWhile isSpace
  let (negative, s) :=
    match s with
    | 45 :: rest => (true, rest)
    | 43 :: rest => (false, rest)
    | _ => (false, s)
  match s with
  | c :: _ => if (digit? c).isSome then some (negative, digitsValue 0 s) else none
  | [] => none

/-- `std::stoull`: a minus sign negates modulo `2 ^ 64`. -/
def stoull (s : Bytes) : Result UInt64 :=
  match parseInteger s with
  | none => RAISE .stdInvalidArgument "stoull"
  | some (negative, v) =>
    if v ≥ 2 ^ 64 then RAISE .stdOutOfRange "stoull"
    else .ok (if negative then 0 - UInt64.ofNat v else UInt64.ofNat v)

/-- `std::stoll`. -/
def stoll (s : Bytes) : Result Int64 :=
  match parseInteger s with
  | none => RAISE .stdInvalidArgument "stoll"
  | some (negative, v) =>
    if negative then
      if v > 2 ^ 63 then RAISE .stdOutOfRange "stoll" else .ok (Int64.ofInt (-(v : Int)))
    else
      if v ≥ 2 ^ 63 then RAISE .stdOutOfRange "stoll" else .ok (Int64.ofInt v)

/-- Text that is no number, or one that is too large, raises; it is never undefined what the
conversion does. -/
theorem stoull_noFault (s : Bytes) : NoFault (stoull s) := by
  unfold stoull
  cases parseInteger s with
  | none => exact .raise _ _
  | some p =>
    dsimp only
    split
    · exact .raise _ _
    · exact .ok _

/-- The same for the conversion to a signed integer, which has a limit for each of the two
signs. -/
theorem stoll_noFault (s : Bytes) : NoFault (stoll s) := by
  unfold stoll
  cases parseInteger s with
  | none => exact .raise _ _
  | some p =>
    dsimp only
    split <;> split
    · exact .raise _ _
    · exact .ok _
    · exact .raise _ _
    · exact .ok _

/-- A string literal of the source. -/
def chars (s : List Char) : Bytes := s.map fun c => UInt8.ofNat c.toNat

/-- `StringUtil::toString(uint64_t)`, which is `std::to_string`. -/
def toText (value : Nat) : Bytes := chars (Nat.toDigits 10 value)

/-- `StringUtil::toString(int64_t)`, which is `std::to_string` as well. -/
def toTextSigned (value : Int64) : Bytes :=
  if value < 0 then chars ['-'] ++ toText (-value.toInt).toNat else toText value.toInt.toNat

/-- `(uint64_t) value` for a double that is set to zero first when it is
negative. Not a number and values from `2 ^ 64` on have no defined result. -/
def doubleToUInt64 (value : UInt64) : Result UInt64 :=
  let negative := value.toNat / 2 ^ 63 = 1
  let exponent := value.toNat / 2 ^ 52 % 2 ^ 11
  let fraction := value.toNat % 2 ^ 52
  if exponent = 2 ^ 11 - 1 then
    if negative ∧ fraction = 0 then .ok 0 else .error .fault
  else if negative then .ok 0
  else
    let mantissa := if exponent = 0 then fraction else 2 ^ 52 + fraction
    let exponent := max exponent 1
    if exponent ≥ 1075 + 12 then .error .fault
    else
      let v := if exponent ≥ 1075 then mantissa * 2 ^ (exponent - 1075)
        else mantissa / 2 ^ (1075 - exponent)
      if v < 2 ^ 64 then .ok (UInt64.ofNat v) else .error .fault

end CStable
