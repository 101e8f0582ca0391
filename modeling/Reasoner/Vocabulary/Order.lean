/-
The order a vocabulary gives to symbols: that of first appearance, whatever
their names. Literals are ordered by their symbols, and a negated symbol comes
before the plain one.
-/
import Reasoner.Clause
import Reasoner.Vocabulary

namespace Reasoner.Vocabulary

/-- The place of a symbol; one that never appeared comes after all others. -/
def rank (v : Vocabulary) (s : Symbol) : Nat :=
  v.symbols.idxOf s

def order (v : Vocabulary) (a b : Symbol) : Ordering :=
  compare (v.rank a) (v.rank b)

def literalOrder (v : Vocabulary) (a b : Literal) : Ordering :=
  (v.order a.symbol b.symbol).then (compare a.polarity.toNat b.polarity.toNat)

def sort (v : Vocabulary) (symbols : List Symbol) : List Symbol :=
  symbols.mergeSort fun a b => (v.order a b).isLE

def sortLiterals (v : Vocabulary) (literals : List Literal) : List Literal :=
  literals.mergeSort fun a b => (v.literalOrder a b).isLE

end Reasoner.Vocabulary
