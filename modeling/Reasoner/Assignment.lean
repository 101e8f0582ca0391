/-
Rows of a truth table as worlds. A row is a 64-bit word, and column `i` is true
when bit `i` of the word is set. A column's position is itself a 32-bit word,
and a position past the last bit reads as false. If a name heads several
columns, one true column makes it true.
-/
import Reasoner.Formula

namespace Reasoner

/-- Whether the column at position `i` is true in a row. -/
def rowBit (row : UInt64) (i : Nat) : Bool :=
  let position := i.toUInt32
  position < 64 && (row >>> position.toUInt64) &&& 1 == 1

/-- A row over named columns. -/
structure Assignment where
  columns : List Symbol
  row : UInt64

/-- Whether a column named `s` is true in a row, the first of the columns standing at `i`. -/
def anyColumn (row : UInt64) (s : Symbol) : Nat → List Symbol → Bool
  | _, [] => false
  | i, c :: columns => (rowBit row i && c = s) || anyColumn row s (i + 1) columns

/-- The world of a row: symbols that head no column are false. -/
def Assignment.world (a : Assignment) : World := fun s =>
  anyColumn a.row s 0 a.columns

end Reasoner
