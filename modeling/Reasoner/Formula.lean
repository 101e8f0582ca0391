/-
Formulas of propositional logic, their two evaluations and their written form.
A total world gives every symbol one of two values (`Formula.holds`); a partial
valuation leaves symbols open, and a formula then has a value as soon as the
known symbols force one (`Formula.value`).
-/
import Reasoner.Symbol
import Reasoner.Connective

namespace Reasoner

/-- A total valuation. -/
abbrev World := Symbol → Bool

/-- A partial valuation. -/
abbrev Valuation := Symbol → Truth

inductive Formula where
  | verum
  | symbol (s : Symbol)
  | not (p : Formula)
  | binary (c : Connective) (l r : Formula)
deriving DecidableEq

namespace Formula

/-- The false constant is the negated true one. -/
def falsum : Formula :=
  .not .verum

def ofBool : Bool → Formula
  | true => verum
  | false => falsum

/-- The value of a constant, `none` for every other formula. -/
def constant? : Formula → Option Bool
  | verum => some true
  | .not verum => some false
  | _ => none

/-- Whether nothing but a constant is left. -/
def isConstant (p : Formula) : Bool :=
  p.constant?.isSome

/-- Every occurrence of a symbol, from left to right. -/
def symbols : Formula → List Symbol
  | verum => []
  | symbol s => [s]
  | not p => p.symbols
  | binary _ l r => l.symbols ++ r.symbols

/-! ## Evaluation -/

/-- Truth in a world. -/
def holds (w : World) : Formula → Bool
  | verum => true
  | symbol s => w s
  | not p => !p.holds w
  | binary c l r => c.onBool (l.holds w) (r.holds w)

/-- Truth as far as a partial valuation settles it. -/
def value (k : Valuation) : Formula → Truth
  | verum => .holds
  | symbol s => k s
  | not p => (p.value k).not
  | binary c l r => c.onTruth (l.value k) (r.value k)

/-! ## Written form -/

/-- Fully bracketed text; only binary formulas are bracketed. -/
def render : Formula → String
  | verum => "T"
  | symbol s => s.name
  | not p => "~" ++ p.render
  | binary c l r => "(" ++ l.render ++ " " ++ c.text ++ " " ++ r.render ++ ")"

/-! ## Constants -/

@[simp] theorem constant?_ofBool (b : Bool) : (ofBool b).constant? = some b := by
  cases b <;> rfl

theorem constant?_eq_some {p : Formula} {b : Bool} : p.constant? = some b ↔ p = ofBool b := by
  constructor
  · intro h
    unfold constant? at h
    split at h <;> simp_all [ofBool, falsum]
  · rintro rfl
    exact constant?_ofBool b

end Formula

end Reasoner
