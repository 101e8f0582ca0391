/-
Which closing parenthesis belongs to an opening one: the first that leaves as
many closed as were opened from there on. A counter of the depth finds it.
-/
import Reasoner.Token

namespace Reasoner.Token

/-- The place of the first parenthesis that brings the depth back to zero. -/
def closeFrom (depth : Nat) : List Token → Option Nat
  | [] => none
  | opening :: ts => (closeFrom (depth + 1) ts).map (· + 1)
  | closing :: ts =>
    if depth - 1 = 0 then some 0 else (closeFrom (depth - 1) ts).map (· + 1)
  | operator _ :: ts => (closeFrom depth ts).map (· + 1)
  | symbol _ :: ts => (closeFrom depth ts).map (· + 1)

/-- The place of the parenthesis that closes the one at `start`. -/
def matchingClose? (ts : List Token) (start : Nat) : Option Nat :=
  (closeFrom 0 (ts.drop start)).map (start + ·)

end Reasoner.Token
