/-
Sentences half read. A piece is an operand or an operator that still waits for
its own operands. Symbols and bracketed groups become operands first
(`ofTokens`); then every negation takes the operand after it, the last one
first (`negateAll`); then the connectives join their neighbours, the tightest
binding first and each from the left (`joinAll`). One operand has to be left.
-/
import Reasoner.Formula
import Reasoner.Token.Bracket

namespace Reasoner

inductive Piece (Op : Type) where
  | operand (p : Formula)
  | operator (op : Op)

namespace Piece

/-! ## Negations -/

/-- Puts a negation in front of what was read to its right. -/
def negateFirst : List (Piece Connective) → Except SyntaxError (List (Piece Connective))
  | operand p :: rest => .ok (operand (.not p) :: rest)
  | _ => .error (.missingOperand .not)

/-- Applies every negation to the operand after it. -/
def negateAll : List (Piece Operator) → Except SyntaxError (List (Piece Connective))
  | [] => .ok []
  | operand p :: rest => do return operand p :: (← negateAll rest)
  | operator (.binary c) :: rest => do return operator c :: (← negateAll rest)
  | operator .not :: rest => do negateFirst (← negateAll rest)

/-! ## Connectives -/

/-- The operand that waits to the left, if any. -/
def waiting (left : Option Formula) : List (Piece Connective) :=
  left.toList.map operand

/-- Joins the operands around every `c`; `left` stands just before the pieces. -/
def joinAll (c : Connective) :
    Option Formula → List (Piece Connective) → Except SyntaxError (List (Piece Connective))
  | left, [] => .ok (waiting left)
  | left, operand p :: rest => do return waiting left ++ (← joinAll c (some p) rest)
  | left, operator d :: rest =>
    if d = c then
      match left, rest with
      | some l, operand r :: rest => joinAll c (some (.binary c l r)) rest
      | _, _ => .error (.missingOperand (.binary c))
    else do return waiting left ++ operator d :: (← joinAll c none rest)

/-! ## Whole sentences -/

/-- The only operand there is. -/
def sole : List (Piece Connective) → Except SyntaxError Formula
  | [operand p] => .ok p
  | [] => .error .empty
  | _ => .error .missingOperator

/-- The formula of a stretch without brackets. -/
def assemble (ps : List (Piece Operator)) : Except SyntaxError Formula := do
  sole (← Connective.byPrecedence.foldlM (fun qs c => joinAll c none qs) (← negateAll ps))

/-- The pieces of a token list, every bracketed group assembled. -/
def ofTokens : List Token → Except SyntaxError (List (Piece Operator))
  | [] => .ok []
  | .symbol s :: ts => do return operand (.symbol s) :: (← ofTokens ts)
  | .operator op :: ts => do return operator op :: (← ofTokens ts)
  | .closing :: _ => .error .unmatchedParenthesis
  | .opening :: ts =>
    match Token.matchingClose? (.opening :: ts) 0 with
    | none => .error .unmatchedParenthesis
    | some close => do
      let group ← assemble (← ofTokens (ts.take (close - 1)))
      return operand group :: (← ofTokens (ts.drop close))
termination_by ts => ts.length

end Piece

end Reasoner
