/-
The inference methods and their short names, and the settings they share.
-/
import Reasoner.Text.Blank

namespace Reasoner

inductive Method where
  | truthTable
  | forwardChaining
  | backwardChaining
deriving DecidableEq

/-- Settings of a solver. -/
structure Config where
  /-- The most symbols a truth table is made over. -/
  symbolLimit : Nat := 24
deriving DecidableEq

/-- A text that names no method, as it was given. -/
structure UnknownMethod where
  given : String
deriving DecidableEq

def UnknownMethod.message (e : UnknownMethod) : String :=
  "unknown method `" ++ e.given ++ "`, expected TT, FC or BC"

namespace Method

/-- All methods, in their order. -/
def all : List Method :=
  [truthTable, forwardChaining, backwardChaining]

def name : Method → String
  | truthTable => "TT"
  | forwardChaining => "FC"
  | backwardChaining => "BC"

/-- The methods that come before one. -/
def before (m : Method) : List Method :=
  all.takeWhile (· ≠ m)

/-- The letters `A` to `Z` made small, all other characters kept. -/
def foldCase (text : String) : List Char :=
  text.toList.map fun c => if 'A' ≤ c ∧ c ≤ 'Z' then Char.ofNat (c.toNat + 32) else c

/-- Reads a short name; blanks around it and the case of its letters do not matter. -/
def ofName (given : String) : Except UnknownMethod Method :=
  match all.find? fun m => foldCase m.name = foldCase (Text.trim given) with
  | some m => .ok m
  | none => .error ⟨given⟩

end Method

end Reasoner
