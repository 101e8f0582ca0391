/-
Truth tables: every row over the columns in counting order, each with the
answer whether all formulas hold in it. A table is read row by row (`next?`),
and remembers how far it has been read.
-/
import Reasoner.Assignment

namespace Reasoner

/-- A truth table read up to, and not including, `row`. -/
structure TruthTable where
  columns : List Symbol
  formulas : List Formula
  /-- The number of rows. -/
  size : UInt64
  row : UInt64

namespace TruthTable

/-- How many rows there are over so many columns. -/
def rowCount (columns : Nat) : Nat :=
  Nat.pow 2 columns

/-- The table over `columns`, unless it has more rows than 64 bits can count. -/
def ofColumns? (columns : List Symbol) (formulas : List Formula) : Option TruthTable :=
  if fits : rowCount columns.length < UInt64.size then
    some { columns, formulas, size := .ofNatLT (rowCount columns.length) fits, row := 0 }
  else none

/-- Whether all formulas hold in a row. -/
def isModel (t : TruthTable) (row : UInt64) : Bool :=
  t.formulas.all (·.holds (Assignment.world ⟨t.columns, row⟩))

/-- The answer for the next row, and the table read one row further. -/
def next? (t : TruthTable) : Option (Bool × TruthTable) :=
  if t.row < t.size then some (t.isModel t.row, { t with row := t.row + 1 }) else none

/-- The answers for the next `n` rows, or for all that are left. -/
def take : Nat → TruthTable → List Bool × TruthTable
  | 0, t => ([], t)
  | n + 1, t =>
    match t.next? with
    | none => ([], t)
    | some (b, t) =>
      let (bs, t) := take n t
      (b :: bs, t)

/-- The rows still to be read. -/
def remaining (t : TruthTable) : Nat :=
  t.size.toNat - t.row.toNat

/-- A row short of the size has a number after it: counting on never wraps round. -/
theorem toNat_row_add_one {t : TruthTable} (h : t.row < t.size) :
    (t.row + 1).toNat = t.row.toNat + 1 := by
  have h1 : t.row.toNat < t.size.toNat := UInt64.lt_iff_toNat_lt.1 h
  have h2 : t.size.toNat < 2 ^ 64 := t.size.toNat_lt
  rw [UInt64.toNat_add]
  exact Nat.mod_eq_of_lt (by simp; omega)

theorem remaining_of_next? {t u : TruthTable} {b : Bool} (h : t.next? = some (b, u)) :
    u.remaining + 1 = t.remaining := by
  unfold next? at h
  split at h
  next lt =>
    cases h
    have h1 : t.row.toNat < t.size.toNat := UInt64.lt_iff_toNat_lt.1 lt
    simp only [remaining, toNat_row_add_one lt]
    omega
  next => cases h

/-- The numbers of the rows still to be read whose answer is `wanted`, after those in `found`. -/
def collect (wanted : Bool) (t : TruthTable) (found : List UInt64) : List UInt64 :=
  match _read : t.next? with
  | none => found.reverse
  | some (b, u) => collect wanted u (if b = wanted then (u.row - 1) :: found else found)
termination_by t.remaining
decreasing_by
  have := remaining_of_next? _read
  omega

def trueRows (t : TruthTable) : List UInt64 :=
  t.collect true []

def falseRows (t : TruthTable) : List UInt64 :=
  t.collect false []

end TruthTable

end Reasoner
