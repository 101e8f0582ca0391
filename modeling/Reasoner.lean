import Reasoner.Assignment
import Reasoner.Chaining.Backward
import Reasoner.Chaining.Firing
import Reasoner.Chaining.Forward
import Reasoner.Chaining.Run
import Reasoner.Clause
import Reasoner.Connective
import Reasoner.Formula
import Reasoner.Formula.Parse
import Reasoner.Formula.Simplify
import Reasoner.Knowledge
import Reasoner.KnowledgeBase
import Reasoner.Log
import Reasoner.Method
import Reasoner.Piece
import Reasoner.Sentence
import Reasoner.Solver
import Reasoner.Solver.Chainer
import Reasoner.Solver.Error
import Reasoner.Solver.ModelChecker
import Reasoner.Symbol
import Reasoner.SyntaxError
import Reasoner.Text.Blank
import Reasoner.Text.Split
import Reasoner.Token
import Reasoner.Token.Bracket
import Reasoner.Truth
import Reasoner.TruthTable
import Reasoner.Vocabulary
import Reasoner.Vocabulary.Order
import Reasoner.Proofs.Simplification
import Reasoner.Proofs.Chaining.Derivation
import Reasoner.Proofs.Chaining.Search
import Reasoner.Proofs.Chaining.Saturation
import Reasoner.Proofs.Chaining.Simulation
import Reasoner.Proofs.HornBase
import Reasoner.Proofs.ToldFacts
import Reasoner.Proofs.DirectSearch
import Reasoner.Proofs.Assignment
import Reasoner.Proofs.ModelChecker
import Reasoner.Proofs.Definite
import Reasoner.Proofs.Entailment
import Reasoner.Proofs.Grammar
import Reasoner.Proofs.RoundTrip
import Reasoner.Proofs.Retelling
import Reasoner.Proofs.LastSearch
import Reasoner.Proofs.TellingBack
import Reasoner.Proofs.Failure
import Reasoner.Proofs.Tokens
import Reasoner.Proofs.TellingMore
import Reasoner.Proofs.Questions
import Reasoner.Proofs.Chaining.Renaming
import Reasoner.Proofs.RenamedSession
import Reasoner.Proofs.Contradictions
import Reasoner.Proofs.Relevance
import Reasoner.Proofs.ClauseUse
import Reasoner.Proofs.NormalForm
import Reasoner.Proofs.ProvenSymbols
import Reasoner.Proofs.Commits
import Reasoner.Proofs.Defects
import Reasoner.Proofs.Faults
import Reasoner.Proofs.Spelling
import Reasoner.Proofs.ClauseMeaning
import Reasoner.Proofs.Batches
import Reasoner.Proofs.Enumeration
import Reasoner.Proofs.SymbolLimit
import Reasoner.Proofs.ClosingPlace
import Reasoner.Proofs.Nesting
