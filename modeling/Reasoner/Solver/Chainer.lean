/-
Entailment by chaining over Horn clauses. Every told sentence has to be a Horn
clause. What the last search learned is kept for later questions, until
something is told, a search fails, or all is reset.
-/
import Reasoner.Chaining.Backward
import Reasoner.Chaining.Forward
import Reasoner.KnowledgeBase
import Reasoner.Solver.Error

namespace Reasoner

/-- The direction of a search. -/
inductive Strategy where
  | forward
  | backward
deriving DecidableEq

structure Chainer where
  strategy : Strategy
  base : KnowledgeBase := {}
  clauses : List Clause := []
  /-- What the last search learned. -/
  learned : Knowledge := .empty

namespace Chainer

/-- The clauses of a batch, or the first sentence that is none. -/
def clausesOf : List Sentence → Except MalformedClause (List Clause)
  | [] => .ok []
  | s :: rest => do
    let c ← Clause.ofSentence s
    return c :: (← clausesOf rest)

/-- Takes in a batch; on an error nothing changes. -/
def tell (c : Chainer) (batch : String) : Except SolverError Unit × Chainer :=
  match c.base.tell batch with
  | (.error e, _) => (.error (.invalidSentence e), c)
  | (.ok told, base) =>
    match clausesOf told with
    | .error e => (.error (.malformedClause e), c)
    | .ok clauses => (.ok (), { c with base, clauses := c.clauses ++ clauses, learned := .empty })

/-- Forgets everything but the strategy. -/
def reset (c : Chainer) : Chainer :=
  { strategy := c.strategy }

/-- A search with nothing known at first. -/
def search (c : Chainer) (target : Formula) : Chaining.Run :=
  match c.strategy with
  | .forward => Chaining.Forward.search c.base.vocabulary.symbols c.clauses target
  | .backward => Chaining.Backward.search c.base.vocabulary.symbols c.clauses target

/-- Whether a search finds the formula to hold; a failed search leaves nothing learned. -/
def entails (c : Chainer) (target : Formula) : Except SolverError Bool × Chainer :=
  match (c.search target).result with
  | .ok (answer, k) => (.ok answer, { c with learned := k })
  | .error e => (.error (.contradiction e), { c with learned := .empty })

/-- One if the last search found the symbol to hold, and zero otherwise. -/
def query (c : Chainer) (s : Symbol) : Nat :=
  if (c.learned.valuation s).toBool? = some true then 1 else 0

/-- The symbols the last search found to hold. -/
def proven (c : Chainer) : List Symbol :=
  c.learned.knownAs true

end Chainer

end Reasoner
