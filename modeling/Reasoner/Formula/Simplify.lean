/-
Simplification of a formula by what is already known. Known parts collapse to
constants, and an operand that no longer influences its parent is dropped, so
`a => b` with `a` known to hold becomes `b`. A constant can then only be left
as the whole result.
-/
import Reasoner.Formula

namespace Reasoner.Formula

/-! ## Building from simplified operands -/

/-- The negation of a simplified formula. -/
def negate (p : Formula) : Formula :=
  match p.constant? with
  | some b => ofBool (!b)
  | none => .not p

def conjoin (l r : Formula) : Formula :=
  match l.constant?, r.constant? with
  | some false, _ => falsum
  | _, some false => falsum
  | some true, _ => r
  | none, some true => l
  | none, none => .binary .and l r

def disjoin (l r : Formula) : Formula :=
  match l.constant?, r.constant? with
  | some true, _ => verum
  | _, some true => verum
  | some false, _ => r
  | none, some false => l
  | none, none => .binary .or l r

def conditional (l r : Formula) : Formula :=
  match l.constant?, r.constant? with
  | some false, _ => verum
  | _, some true => verum
  | some true, _ => r
  | none, some false => .not l
  | none, none => .binary .implies l r

def equate (l r : Formula) : Formula :=
  match l.constant?, r.constant? with
  | some true, _ => r
  | some false, _ => negate r
  | none, some true => l
  | none, some false => .not l
  | none, none => .binary .iff l r

/-- Any connective between two simplified formulas. -/
def combine : Connective → Formula → Formula → Formula
  | .and => conjoin
  | .or => disjoin
  | .implies => conditional
  | .iff => equate

/-! ## Simplification -/

/-- The formula with what `k` settles carried out. -/
def simplify (k : Valuation) : Formula → Formula
  | verum => verum
  | symbol s =>
    match (k s).toBool? with
    | some b => ofBool b
    | none => symbol s
  | not p => (p.simplify k).negate
  | binary c l r => combine c (l.simplify k) (r.simplify k)

end Reasoner.Formula
