/-
Horn clauses: a body that implies a single literal. A fact `a` is the clause
with body `T` and consequent `a`, and `~a` the one with consequent `~a`. A
body known to hold proves the consequent, and one known to fail proves its
opposite.
-/
import Reasoner.Formula.Simplify
import Reasoner.Sentence

namespace Reasoner

/-- A symbol or its negation. -/
structure Literal where
  symbol : Symbol
  /-- `false` for a negated symbol. -/
  polarity : Bool
deriving DecidableEq

structure Clause where
  /-- The sentence it was made from. -/
  source : Sentence
  body : Formula
  consequent : Literal
deriving DecidableEq

/-- A sentence that is no Horn clause. -/
structure MalformedClause where
  text : String
deriving DecidableEq

def MalformedClause.message (e : MalformedClause) : String :=
  "`" ++ e.text ++ "` is not a Horn clause: expected a literal or `body => literal`"

namespace Literal

def ofFormula? : Formula → Option Literal
  | .symbol s => some ⟨s, true⟩
  | .not (.symbol s) => some ⟨s, false⟩
  | _ => none

def render (l : Literal) : String :=
  if l.polarity then l.symbol.name else "~" ++ l.symbol.name

end Literal

namespace Clause

/-- Body and consequent of a formula, if that is a literal. -/
def parts : Formula → Formula × Option Literal
  | .binary .implies body head => (body, Literal.ofFormula? head)
  | fact => (.verum, Literal.ofFormula? fact)

def ofSentence (s : Sentence) : Except MalformedClause Clause :=
  match parts s.formula with
  | (body, some consequent) => .ok ⟨s, body, consequent⟩
  | (_, none) => .error ⟨s.text⟩

/-- Whether the body is the true constant. -/
def isFact (c : Clause) : Bool :=
  c.body = .verum

/-- Whether the body has come down to a constant. -/
def isDecided (c : Clause) : Bool :=
  c.body.isConstant

/-- The symbols the body depends on. -/
def bodySymbols (c : Clause) : List Symbol :=
  Symbol.firstAppearances c.body.symbols

/-- The clause with its body simplified by what is known. -/
def simplify (k : Valuation) (c : Clause) : Clause :=
  { c with body := c.body.simplify k }

/-- What the body says about the consequent's symbol. -/
def proves (k : Valuation) (c : Clause) : Symbol × Truth :=
  (c.consequent.symbol, (c.body.value k).signed c.consequent.polarity)

def render (c : Clause) : String :=
  c.body.render ++ " => " ++ c.consequent.render

end Clause

end Reasoner
