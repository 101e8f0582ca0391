/-
Reading a formula: from text to tokens, from tokens to pieces, and from pieces
to the one formula they make up.
-/
import Reasoner.Piece

namespace Reasoner.Formula

/-- The formula a token list stands for. -/
def ofTokens (ts : List Token) : Except SyntaxError Formula := do
  Piece.assemble (← Piece.ofTokens ts)

/-- **Reading a sentence.** The formula a text stands for. -/
def parse (text : String) : Except SyntaxError Formula := do
  ofTokens (← Token.tokenize text)

end Reasoner.Formula
