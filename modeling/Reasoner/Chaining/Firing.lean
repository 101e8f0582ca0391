/-
Firing a clause: once its body is decided, the consequent is committed. Two
firing rules do the same work on different data. `simplifying` carries out in
the clause what is known and looks whether a constant is left; the simplified
clause is what waits for more knowledge. `direct` leaves the clause as it is
and evaluates its body.
-/
import Reasoner.Clause
import Reasoner.Knowledge

namespace Reasoner.Chaining

/-- What comes of trying a clause. -/
inductive Firing where
  /-- The body is undecided; this clause is to be tried again. -/
  | waits (clause : Clause)
  | commits (symbol : Symbol) (value : Bool) (knowledge : Knowledge)
  | contradicts (conflict : Contradiction)

/-- How a clause is tried. -/
abbrev FiringRule := Clause → Knowledge → Firing

/-- Commits what is proved of a symbol; while that is open, `clause` waits. -/
def settle (clause : Clause) (k : Knowledge) : Symbol × Truth → Firing
  | (s, t) =>
    match t.toBool? with
    | none => .waits clause
    | some b =>
      match k.commit s b with
      | (.ok _, k) => .commits s b k
      | (.error e, _) => .contradicts e

def simplifying : FiringRule := fun clause k =>
  let clause := clause.simplify k.valuation
  if clause.isDecided then settle clause k (clause.proves k.valuation) else .waits clause

def direct : FiringRule := fun clause k =>
  settle clause k (clause.proves k.valuation)

/-- The answer to a question, once what is known decides it. -/
def verdict (target : Formula) (k : Knowledge) : Option Bool :=
  (target.value k.valuation).toBool?

end Reasoner.Chaining
