/-
The vocabulary of a knowledge base: its symbols, each once, in order of first
appearance.
-/
import Reasoner.Symbol

namespace Reasoner

structure Vocabulary where
  symbols : List Symbol := []
deriving DecidableEq

namespace Vocabulary

def contains (v : Vocabulary) (s : Symbol) : Bool :=
  s ∈ v.symbols

/-- Adds a symbol; the answer is whether it is new. -/
def insert (v : Vocabulary) (s : Symbol) : Bool × Vocabulary :=
  (!v.contains s, ⟨Symbol.insertNew v.symbols s⟩)

def extend (v : Vocabulary) (added : List Symbol) : Vocabulary :=
  ⟨Symbol.appendNew v.symbols added⟩

def size (v : Vocabulary) : Nat :=
  v.symbols.length

end Vocabulary

end Reasoner
