import CStable.Stx.Text
import Mathlib.Tactic.SplitIfs

/-!
# `CStable.Stx.Csv`: the rows of a CSV stream and the texts of their cells

`DefaultCSVInputStream` reads rows off a byte stream, which is the list of the bytes
still to come. A quote character turns the meaning of the separators off and on
again; it does not become part of the cell.

`Human` recognises the texts that stand for null and for booleans.
-/

set_option autoImplicit false

namespace CStable

/-! ### Rows -/

/-- `DefaultCSVInputStream`, with the bytes of the input not read yet. -/
structure CSVInputStream where
  input : Bytes
  column_separator : UInt8
  row_separator : UInt8
  quote_char : UInt8
  deriving DecidableEq, Repr

namespace CSVInputStream

/-- The two loops of `readNextRow` as one: `target` are the cells read so far and
`column` is the text of the one being read. The result has what `readNextRow`
returns, the row and the input left. -/
def readColumns (csv : CSVInputStream) (target : List Bytes) (quoted : Bool) (column : Bytes) :
    Bytes → Bool × List Bytes × Bytes
  -- the end of the input ends the row as well, but the row does not count
  | [] => (false, target ++ [column], [])
  | byte :: input =>
    if !quoted && byte == csv.column_separator then
      if byte == csv.row_separator then (true, target ++ [column], input)
      else csv.readColumns (target ++ [column]) false [] input
    else if !quoted && byte == csv.row_separator then (true, target ++ [column], input)
    else if byte == csv.quote_char then csv.readColumns target (!quoted) column input
    else csv.readColumns target quoted (column ++ [byte]) input

/-- `readNextRow`: whether the row ended before the input did, and the row. -/
def readNextRow (csv : CSVInputStream) : Bool × List Bytes × CSVInputStream :=
  let (ended, row, input) := csv.readColumns [] false [] csv.input
  (ended, row, { csv with input })

/-- A row that counts takes at least its separator off the input. The induction is on the input,
byte by byte as the loop goes. -/
theorem length_readColumns {csv : CSVInputStream} {input : Bytes} :
    ∀ {target : List Bytes} {quoted : Bool} {column : Bytes} {row : List Bytes} {rest : Bytes},
      csv.readColumns target quoted column input = (true, row, rest) →
        rest.length < input.length := by
  induction input with
  | nil =>
    intro target quoted column row rest h
    cases h
  | cons byte input ih =>
    intro target quoted column row rest h
    have hstep : ∀ {target' : List Bytes} {quoted' : Bool} {column' : Bytes},
        csv.readColumns target' quoted' column' input = (true, row, rest) →
          rest.length < (byte :: input).length := fun h' => Nat.lt_succ_of_lt (ih h')
    rw [readColumns] at h
    -- every branch that goes on has consumed this byte
    split_ifs at h
    · cases h
      exact Nat.lt_succ_self _
    · exact hstep h
    · cases h
      exact Nat.lt_succ_self _
    · exact hstep h
    · exact hstep h

/-- Reading a row makes the input shorter, so that the loop over the rows ends. -/
theorem length_readNextRow {csv csv' : CSVInputStream} {row : List Bytes}
    (h : csv.readNextRow = (true, row, csv')) : csv'.input.length < csv.input.length := by
  unfold readNextRow at h
  obtain ⟨h₁, h₂, h₃⟩ : _ ∧ _ ∧ _ := ⟨congrArg Prod.fst h, congrArg (fun x => x.2.1) h,
    congrArg (fun x => x.2.2) h⟩
  dsimp only at h₁ h₂ h₃
  rw [← h₃]
  exact length_readColumns (Prod.ext h₁ (Prod.ext h₂ rfl))

/-- The rows the stream delivers before `readNextRow` returns false. -/
def rows (csv : CSVInputStream) : List (List Bytes) :=
  match _h : csv.readNextRow with
  | (true, row, csv') => row :: csv'.rows
  | (false, _, _) => []
termination_by csv.input.length
decreasing_by exact length_readNextRow _h

/-- The rows of a stream are its next row and those of the stream behind it. -/
theorem rows_of_true {csv csv' : CSVInputStream} {row : List Bytes}
    (h : csv.readNextRow = (true, row, csv')) : csv.rows = row :: csv'.rows := by
  rw [rows]
  split
  · next row' csv'' h' =>
    rw [h] at h'
    cases h'
    rfl
  · next h' =>
    rw [h] at h'
    cases h'

/-- At the end of the input there are no more rows; what was read of a last row without its
separator is dropped. -/
theorem rows_of_false {csv csv' : CSVInputStream} {row : List Bytes}
    (h : csv.readNextRow = (false, row, csv')) : csv.rows = [] := by
  rw [rows]
  split
  · next h' =>
    rw [h] at h'
    cases h'
  · rfl

/-- A stream with one row, from the two reads a caller makes. -/
theorem rows_singleton {csv csv' csv'' : CSVInputStream} {row row' : List Bytes}
    (h : csv.readNextRow = (true, row, csv')) (h' : csv'.readNextRow = (false, row', csv'')) :
    csv.rows = [row] := by
  rw [rows_of_true h, rows_of_false h']

end CSVInputStream

/-! ### Cells -/

namespace Human

/-- `Human::isNullOrEmpty`. -/
def isNullOrEmpty (value : Bytes) : Bool :=
  value == [] || value == chars ['n', 'u', 'l', 'l'] || value == chars ['N', 'U', 'L', 'L']

/-- `Human::parseBoolean`. -/
def parseBoolean (value : Bytes) : Option Bool :=
  if value == chars ['t', 'r', 'u', 'e'] || value == chars ['T', 'R', 'U', 'E'] ||
      value == chars ['y', 'e', 's'] || value == chars ['Y', 'E', 'S'] then some true
  else if value == chars ['f', 'a', 'l', 's', 'e'] || value == chars ['F', 'A', 'L', 'S', 'E'] ||
      value == chars ['n', 'o'] || value == chars ['N', 'O'] then some false
  else none

end Human

end CStable
