/-
Knowledge bases: the told sentences and the vocabulary of their symbols. A batch
of sentences is taken as a whole or not at all.
-/
import Reasoner.Sentence
import Reasoner.Vocabulary

namespace Reasoner

structure KnowledgeBase where
  sentences : List Sentence := []
  vocabulary : Vocabulary := {}
deriving DecidableEq

namespace KnowledgeBase

def formulas (base : KnowledgeBase) : List Formula :=
  base.sentences.map Sentence.formula

def append (base : KnowledgeBase) (s : Sentence) : KnowledgeBase where
  sentences := base.sentences ++ [s]
  vocabulary := base.vocabulary.extend s.symbols

/-- Takes in a `;`-separated batch; the answer is what was appended. -/
def tell (base : KnowledgeBase) (batch : String) :
    Except InvalidSentence (List Sentence) × KnowledgeBase :=
  match Sentence.parseAll (Sentence.split batch) with
  | .ok told => (.ok told, told.foldl append base)
  | .error e => (.error e, base)

def clear (_ : KnowledgeBase) : KnowledgeBase :=
  {}

/-- The sentences' written forms, one after the other. -/
def render (base : KnowledgeBase) : String :=
  "; ".intercalate (base.formulas.map Formula.render)

end KnowledgeBase

end Reasoner
