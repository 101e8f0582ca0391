/-
The faults a text can have as a sentence, and their wording.
-/
import Reasoner.Connective

namespace Reasoner

/-- Why a text is no sentence. -/
inductive SyntaxError where
  /-- Nothing to read, as in a blank text or between `(` and `)`. -/
  | empty
  /-- An operator without an operand on a side where it needs one. -/
  | missingOperand (op : Operator)
  | unmatchedParenthesis
  /-- Operands side by side, as in `a b`. -/
  | missingOperator
  /-- Characters that belong to no token. -/
  | unreadable
deriving DecidableEq

def SyntaxError.message : SyntaxError → String
  | .empty => "sentence is empty"
  | .missingOperand op => "operator `" ++ op.text ++ "` is missing an operand"
  | .unmatchedParenthesis => "unmatched parenthesis"
  | .missingOperator => "operands without an operator between them"
  | .unreadable => "sentence could not be tokenized"

end Reasoner
