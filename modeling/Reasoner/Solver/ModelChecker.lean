/-
Entailment by model checking. The models of the knowledge base are the rows of
the truth table over its vocabulary in which every told sentence holds; they
are found anew whenever something is told. A symbol is entailed when there is a
model and the symbol holds in all of them.
-/
import Reasoner.KnowledgeBase
import Reasoner.Method
import Reasoner.Solver.Error
import Reasoner.TruthTable

namespace Reasoner

structure ModelChecker where
  config : Config
  base : KnowledgeBase := {}
  /-- The rows of the models; the empty knowledge base has the empty model. -/
  worlds : List UInt64 := [0]

namespace ModelChecker

/-- The rows of the models of a knowledge base. -/
def enumerate (config : Config) (base : KnowledgeBase) : Except SolverError (List UInt64) :=
  let columns := base.vocabulary.symbols
  let tooMany := SolverError.tooManySymbols columns.length config.symbolLimit
  if config.symbolLimit < columns.length then .error tooMany
  else
    match TruthTable.ofColumns? columns base.formulas with
    | some table => .ok table.trueRows
    | none => .error tooMany

/-- Takes in a batch; on an error nothing changes. -/
def tell (m : ModelChecker) (batch : String) : Except SolverError Unit × ModelChecker :=
  match m.base.tell batch with
  | (.error e, _) => (.error (.invalidSentence e), m)
  | (.ok _, base) =>
    match enumerate m.config base with
    | .error e => (.error e, m)
    | .ok worlds => (.ok (), { m with base, worlds })

/-- Forgets everything but the settings. -/
def reset (m : ModelChecker) : ModelChecker :=
  { config := m.config }

/-- The models as assignments to the vocabulary. -/
def models (m : ModelChecker) : List Assignment :=
  m.worlds.map fun row => ⟨m.base.vocabulary.symbols, row⟩

/-- In how many models a symbol holds. -/
def query (m : ModelChecker) (s : Symbol) : Nat :=
  m.models.countP (·.world s)

/-- Whether a symbol is entailed. -/
def ask (m : ModelChecker) (s : Symbol) : Bool :=
  !m.worlds.isEmpty && m.query s == m.worlds.length

/-- The number of models if a formula holds in all of them, and zero otherwise. -/
def queryFormula (m : ModelChecker) (p : Formula) : Nat :=
  let supported := m.models.countP fun a => p.holds a.world
  if supported = m.worlds.length then supported else 0

/-- The symbols that hold in every model, if there is a model. -/
def proven (m : ModelChecker) : List Symbol :=
  if m.worlds.isEmpty then []
  else m.base.vocabulary.symbols.filter fun s => m.models.all (·.world s)

end ModelChecker

end Reasoner
