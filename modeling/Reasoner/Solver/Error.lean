/-
What can go wrong when a solver is told or asked something, the wording, and
the errors underneath.
-/
import Reasoner.Clause
import Reasoner.Knowledge

namespace Reasoner

inductive SolverError where
  | invalidSentence (e : InvalidSentence)
  | invalidQuery (e : SyntaxError)
  | malformedClause (e : MalformedClause)
  | contradiction (e : Contradiction)
  /-- A truth table over so many symbols is more than the limit allows. -/
  | tooManySymbols (symbols limit : Nat)
deriving DecidableEq

namespace SolverError

def message : SolverError → String
  | invalidSentence e => "invalid sentence " ++ e.message
  | invalidQuery e => "invalid query: " ++ e.message
  | malformedClause e => e.message
  | contradiction e => e.message
  | tooManySymbols symbols limit =>
    "truth table over " ++ toString symbols ++ " symbols exceeds the limit of " ++ toString limit

/-- The wordings of the errors underneath, the nearest first. -/
def causes : SolverError → List String
  | invalidSentence e => [e.message, e.error.message]
  | invalidQuery e => [e.message]
  | malformedClause e => [e.message]
  | contradiction e => [e.message]
  | tooManySymbols _ _ => []

end SolverError

end Reasoner
