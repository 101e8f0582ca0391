/-
The binary connectives and the operators of the sentence language. Each
connective has a table on two-valued truth (`onBool`) and the strong Kleene
table on three-valued truth (`onTruth`), which answers as soon as the known
operands force the answer.
-/
import Reasoner.Truth

namespace Reasoner

inductive Connective where
  | and
  | or
  | implies
  | iff
deriving DecidableEq

/-- What may stand between or before operands. -/
inductive Operator where
  | not
  | binary (c : Connective)
deriving DecidableEq

namespace Connective

/-- From the tightest binding to the loosest. -/
def byPrecedence : List Connective :=
  [and, or, implies, iff]

def text : Connective → String
  | and => "&"
  | or => "||"
  | implies => "=>"
  | iff => "<=>"

def onBool : Connective → Bool → Bool → Bool
  | and, a, b => a && b
  | or, a, b => a || b
  | implies, a, b => !a || b
  | iff, a, b => a == b

def onTruth : Connective → Truth → Truth → Truth
  | and, .fails, _ => .fails
  | and, _, .fails => .fails
  | and, .holds, .holds => .holds
  | and, _, _ => .unknown
  | or, .holds, _ => .holds
  | or, _, .holds => .holds
  | or, .fails, .fails => .fails
  | or, _, _ => .unknown
  | implies, .fails, _ => .holds
  | implies, _, .holds => .holds
  | implies, .holds, .fails => .fails
  | implies, _, _ => .unknown
  | iff, .unknown, _ => .unknown
  | iff, _, .unknown => .unknown
  | iff, a, b => .ofBool (a = b)

/-- On known operands the two tables are one. -/
theorem onTruth_ofBool (c : Connective) (a b : Bool) :
    c.onTruth (.ofBool a) (.ofBool b) = .ofBool (c.onBool a b) := by
  cases c <;> cases a <;> cases b <;> rfl

end Connective

def Operator.text : Operator → String
  | .not => "~"
  | .binary c => c.text

end Reasoner
