/-
Sentences: a formula together with the text it was told as.
-/
import Reasoner.Formula.Parse
import Reasoner.Text.Split

namespace Reasoner

structure Sentence where
  text : String
  formula : Formula
deriving DecidableEq

/-- A text that is no sentence, and why. -/
structure InvalidSentence where
  text : String
  error : SyntaxError
deriving DecidableEq

def InvalidSentence.message (e : InvalidSentence) : String :=
  "`" ++ e.text ++ "`: " ++ e.error.message

namespace Sentence

/-- Reads a sentence; its text is kept without the blanks around it. -/
def parse (text : String) : Except InvalidSentence Sentence :=
  let text := Text.trim text
  match Formula.parse text with
  | .ok formula => .ok ⟨text, formula⟩
  | .error error => .error ⟨text, error⟩

def symbols (s : Sentence) : List Symbol :=
  s.formula.symbols

/-- The sentence texts of a `;`-separated batch; blank ones are skipped. -/
def split (batch : String) : List String :=
  Text.trimmedParts ';' batch

/-- Reads sentence after sentence, up to the first that is none. -/
def parseAll : List String → Except InvalidSentence (List Sentence)
  | [] => .ok []
  | text :: texts => do
    let s ← parse text
    return s :: (← parseAll texts)

end Sentence

end Reasoner
