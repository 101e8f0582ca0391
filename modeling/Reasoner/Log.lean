/-
What is reported while sentences are read and questions answered. A report is
computed from the same data as the answer: the text, the knowledge base, or the
record of a search.
-/
import Reasoner.Solver

namespace Reasoner

inductive Level where
  | warn
  | debug
  | trace
deriving DecidableEq

/-- The part of the program a line is about. -/
inductive Topic where
  | parser
  | knowledgeBase
  | truthTable
  | forwardChaining
  | backwardChaining
deriving DecidableEq

/-- A line of the report. -/
structure Event where
  level : Level
  topic : Topic
  message : String
deriving DecidableEq

def Level.text : Level → String
  | .warn => "WARN"
  | .debug => "DEBUG"
  | .trace => "TRACE"

def Topic.text : Topic → String
  | .parser => "parser"
  | .knowledgeBase => "knowledge_base"
  | .truthTable => "truth_table"
  | .forwardChaining => "forward_chaining"
  | .backwardChaining => "backward_chaining"

namespace Log

def quote (text : String) : String :=
  "`" ++ text ++ "`"

/-! ## Reading -/

/-- A text is reported once its tokens are known, sentence or not. -/
def parse (text : String) : List Event :=
  match Token.tokenize text with
  | .ok ts => [⟨.trace, .parser, toString ts.length ++ " tokens in " ++ quote (Text.trim text)⟩]
  | .error _ => []

def sentence (text : String) : List Event :=
  parse (Text.trim text)

/-- Sentence after sentence, up to the first that is none. -/
def sentences : List String → List Event
  | [] => []
  | text :: texts =>
    match Sentence.parse text with
    | .ok _ => sentence text ++ sentences texts
    | .error _ => sentence text

/-- Telling a batch to a knowledge base. -/
def told (base : KnowledgeBase) (batch : String) : List Event :=
  sentences (Sentence.split batch) ++
    match base.tell batch with
    | (.ok told, base) =>
      [⟨.debug, .knowledgeBase, "Told " ++ toString told.length ++ " sentences, "
        ++ toString base.vocabulary.size ++ " symbols known"⟩]
    | (.error _, _) => []

/-! ## Model checking -/

/-- The models found over a knowledge base, if its table is made. -/
def enumerated (config : Config) (base : KnowledgeBase) : List Event :=
  match ModelChecker.enumerate config base with
  | .ok worlds =>
    let n := base.vocabulary.size
    [⟨.debug, .truthTable, toString worlds.length ++ " of " ++ toString (TruthTable.rowCount n) ++ " rows over "
      ++ toString n ++ " symbols are models"⟩]
  | .error _ => []

def supported (m : ModelChecker) (s : Symbol) : List Event :=
  [⟨.debug, .truthTable, quote s.name ++ " holds in " ++ toString (m.query s) ++ " of "
    ++ toString m.worlds.length ++ " models"⟩]

/-! ## Chaining -/

open Chaining

def pulled (topic : Topic) (c : Clause) : Event :=
  ⟨.trace, topic, "Pulled " ++ quote c.source.text ++ " for " ++ c.consequent.symbol.name⟩

/-- A clause that waits is not reported. -/
def attempt (topic : Topic) (a : Attempt) : List Event :=
  match a.firing with
  | .waits _ => []
  | .commits s b _ =>
    [⟨.trace, topic, quote a.clause.source.text ++ " => " ++ s.name ++ " = " ++ toString b⟩]
  | .contradicts e => [⟨.warn, topic, quote a.clause.source.text ++ " contradicts: " ++ e.message⟩]

def round (topic : Topic) (r : Round) : List Event :=
  r.pulled.map (pulled topic) ++ r.attempts.flatMap (attempt topic)

def topicOf : Strategy → Topic
  | .forward => .forwardChaining
  | .backward => .backwardChaining

/-- How a search ended, after so many rounds. -/
def ending (strategy : Strategy) (target : Formula) (rounds : Nat) : Outcome → List Event
  | .decided answer _ =>
    let unit := match strategy with
      | .forward => " passes: "
      | .backward => " rounds: "
    [⟨.debug, topicOf strategy, quote target.render ++ " decided after " ++ toString rounds ++ unit
      ++ toString answer⟩]
  | .undecided _ unfired =>
    let rest := match strategy with
      | .forward => " undecided at fixpoint after " ++ toString rounds ++ " passes"
      | .backward => " undecided after " ++ toString rounds ++ " rounds, "
        ++ toString unfired.length ++ " clauses left unfired"
    [⟨.debug, topicOf strategy, quote target.render ++ rest⟩]
  | .contradictory _ => []

def searched (c : Chainer) (target : Formula) : List Event :=
  let run := c.search target
  run.rounds.flatMap (round (topicOf c.strategy))
    ++ ending c.strategy target run.rounds.length run.outcome

/-! ## Solvers -/

def queryFormula : Solver → Formula → List Event
  | .modelChecker _, _ => []
  | .chainer c, p => searched c p

/-- What a solver reports while it performs an operation. -/
def perform : Solver → Operation → List Event
  | .modelChecker m, .tell batch =>
    told m.base batch ++
      match m.base.tell batch with
      | (.ok _, base) => enumerated m.config base
      | (.error _, _) => []
  | .chainer c, .tell batch => told c.base batch
  | .modelChecker m, .ask s => supported m s
  | .chainer c, .ask s => searched c (.symbol s)
  | s, .queryFormula p => queryFormula s p
  | s, .queryText text =>
    parse text ++
      match Formula.parse text with
      | .ok p => queryFormula s p
      | .error _ => []
  | _, .reset => []
  | _, .query _ => []

end Log

end Reasoner
