/-
Tokens of the sentence language, and how they are read off a text. Blanks
separate tokens and are otherwise ignored. Where an operator or a parenthesis
can be read it is read, the longest first, so `<=>` is one token; everything
up to the next blank or operator is the name of a symbol.
-/
import Reasoner.SyntaxError
import Reasoner.Symbol
import Reasoner.Text.Blank

namespace Reasoner

inductive Token where
  | opening
  | closing
  | operator (op : Operator)
  | symbol (s : Symbol)
deriving DecidableEq

namespace Token

open Text (isBlank)

def text : Token → String
  | opening => "("
  | closing => ")"
  | operator op => op.text
  | symbol s => s.name

/-! ## One token at the front -/

/-- The operator or parenthesis that `cs` starts with, and what follows it. -/
def markAt : List Char → Option (Token × List Char)
  | '<' :: '=' :: '>' :: cs => some (operator (.binary .iff), cs)
  | '=' :: '>' :: cs => some (operator (.binary .implies), cs)
  | '|' :: '|' :: cs => some (operator (.binary .or), cs)
  | '&' :: cs => some (operator (.binary .and), cs)
  | '~' :: cs => some (operator .not, cs)
  | '(' :: cs => some (opening, cs)
  | ')' :: cs => some (closing, cs)
  | _ => none

/-- The name that `cs` starts with, perhaps empty, and what follows it. -/
def nameAt : List Char → List Char × List Char
  | [] => ([], [])
  | c :: cs =>
    if isBlank c || (markAt (c :: cs)).isSome then ([], c :: cs)
    else
      let (name, rest) := nameAt cs
      (c :: name, rest)

/-- The token that `cs` starts with, and what follows it. -/
def tokenAt (cs : List Char) : Option (Token × List Char) :=
  match markAt cs with
  | some found => some found
  | none =>
    match nameAt cs with
    | ([], _) => none
    | (name, rest) => some (symbol ⟨String.ofList name⟩, rest)

theorem length_of_markAt {cs rest : List Char} {t : Token} (h : markAt cs = some (t, rest)) :
    rest.length < cs.length := by
  unfold markAt at h
  split at h <;> simp_all
  all_goals omega

theorem nameAt_append (cs : List Char) : (nameAt cs).1 ++ (nameAt cs).2 = cs := by
  induction cs with
  | nil => rfl
  | cons c cs ih =>
    unfold nameAt
    split
    · rfl
    · simp [ih]

theorem length_of_tokenAt {cs rest : List Char} {t : Token} (h : tokenAt cs = some (t, rest)) :
    rest.length < cs.length := by
  unfold tokenAt at h
  split at h
  next found hm =>
    cases h
    exact length_of_markAt hm
  next =>
    split at h
    · cases h
    next name after hne hn =>
      cases h
      have hcs := congrArg List.length (nameAt_append cs)
      simp only [hn, List.length_append] at hcs
      have := List.length_pos_iff.2 hne
      omega

theorem length_dropBlank_le (cs : List Char) : (cs.dropWhile isBlank).length ≤ cs.length :=
  (List.dropWhile_sublist _).length_le

/-! ## The whole text -/

/-- Reads tokens as long as there is one, and returns what is left unread. -/
def scan (cs : List Char) : List Token × List Char :=
  match _found : tokenAt (cs.dropWhile isBlank) with
  | none => ([], cs)
  | some (t, rest) =>
    let (ts, unread) := scan rest
    (t :: ts, unread)
termination_by cs.length
decreasing_by exact Nat.lt_of_lt_of_le (length_of_tokenAt _found) (length_dropBlank_le cs)

/-- The tokens of a text; only blanks may be left after the last. -/
def tokenize (text : String) : Except SyntaxError (List Token) :=
  let (tokens, rest) := scan text.toList
  if rest.all isBlank then .ok tokens else .error .unreadable

end Token

end Reasoner
