/-
Splitting a text at a separator. Every separator divides, so `n` of them give
`n + 1` parts, some of them perhaps empty.
-/
import Reasoner.Text.Blank

namespace Reasoner.Text

/-- The parts between the separators. -/
def splitAt (separator : Char) : List Char → List (List Char)
  | [] => [[]]
  | c :: cs =>
    if c = separator then [] :: splitAt separator cs
    else (splitAt separator cs).modifyHead (c :: ·)

/-- The parts of a text, trimmed, without those that are blank. -/
def trimmedParts (separator : Char) (text : String) : List String :=
  (((splitAt separator text.toList).map trimChars).filter (· ≠ [])).map String.ofList

theorem length_splitAt (separator : Char) (cs : List Char) :
    (splitAt separator cs).length = cs.count separator + 1 := by
  induction cs with
  | nil => rfl
  | cons c cs ih =>
    by_cases h : c = separator <;> simp [splitAt, h, ih]

end Reasoner.Text
