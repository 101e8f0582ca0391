/-
Solvers: one interface to the three methods. A solver is told sentences and
asked questions; each operation gives an answer or an error, and the solver as
it is afterwards.
-/
import Reasoner.Solver.Chainer
import Reasoner.Solver.ModelChecker

namespace Reasoner

inductive Solver where
  | modelChecker (m : ModelChecker)
  | chainer (c : Chainer)

/-- What a solver can be told or asked. -/
inductive Operation where
  | tell (batch : String)
  | reset
  /-- Is the symbol entailed? -/
  | ask (s : Symbol)
  /-- What support has the symbol, without a new search? -/
  | query (s : Symbol)
  /-- Is the formula entailed? -/
  | queryFormula (p : Formula)
  /-- Is the formula of this text entailed? -/
  | queryText (text : String)

inductive Answer where
  | done
  | verdict (b : Bool)
  | count (n : Nat)
deriving DecidableEq

namespace Solver

def new (config : Config) : Method → Solver
  | .truthTable => modelChecker { config }
  | .forwardChaining => chainer { strategy := .forward }
  | .backwardChaining => chainer { strategy := .backward }

def base : Solver → KnowledgeBase
  | modelChecker m => m.base
  | chainer c => c.base

/-- The symbols proven to hold, in order of first appearance. -/
def proven : Solver → List Symbol
  | modelChecker m => m.proven
  | chainer c => c.proven

/-- The number of models, where the method knows it. -/
def worlds? : Solver → Option Nat
  | modelChecker m => some m.worlds.length
  | chainer _ => none

/-! ## Operations -/

def tell : Solver → String → Except SolverError Unit × Solver
  | modelChecker m, batch => (m.tell batch).map id modelChecker
  | chainer c, batch => (c.tell batch).map id chainer

def reset : Solver → Solver
  | modelChecker m => modelChecker m.reset
  | chainer c => chainer c.reset

def ask : Solver → Symbol → Except SolverError Bool × Solver
  | modelChecker m, s => (.ok (m.ask s), modelChecker m)
  | chainer c, s => (c.entails (.symbol s)).map id chainer

def query : Solver → Symbol → Nat
  | modelChecker m, s => m.query s
  | chainer c, s => c.query s

/-- A number other than zero if the formula is entailed. -/
def queryFormula : Solver → Formula → Except SolverError Nat × Solver
  | modelChecker m, p => (.ok (m.queryFormula p), modelChecker m)
  | chainer c, p => (c.entails p).map (Except.map Bool.toNat) chainer

def queryText (s : Solver) (text : String) : Except SolverError Nat × Solver :=
  match Formula.parse text with
  | .ok p => s.queryFormula p
  | .error e => (.error (.invalidQuery e), s)

/-- **One step of a session.** -/
def perform (s : Solver) : Operation → Except SolverError Answer × Solver
  | .tell batch => (s.tell batch).map (Except.map fun _ => .done) id
  | .reset => (.ok .done, s.reset)
  | .ask symbol => (s.ask symbol).map (Except.map .verdict) id
  | .query symbol => (.ok (.count (s.query symbol)), s)
  | .queryFormula p => (s.queryFormula p).map (Except.map .count) id
  | .queryText text => (s.queryText text).map (Except.map .count) id

/-- The solver after a session. -/
def performAll (s : Solver) (session : List Operation) : Solver :=
  session.foldl (fun s op => (s.perform op).2) s

end Solver

end Reasoner
