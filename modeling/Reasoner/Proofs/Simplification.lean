/-
What simplification does to a formula's meaning. A connective with a constant operand
does one of three things to the other operand: it settles the value, keeps the operand or
negates it (`Effect`); with no constant operand it stays (`combine_cases`). A simplified
formula has the value of the original under every valuation that knows at least as much
(`value_simplify`), and it is a constant exactly when the original's value is known
(`constant?_simplify`).
-/
import Reasoner.Formula.Simplify
import Reasoner.Proofs.Valuation

namespace Reasoner

/-! ## A connective with a constant operand -/

/-- What becomes of the other operand when one is a constant. -/
inductive Effect where
  | settle (b : Bool)
  | keep
  | negate

namespace Effect

def apply : Effect → Formula → Formula
  | settle b, _ => .ofBool b
  | keep, p => p
  | negate, p => p.negate

def onTruth : Effect → Truth → Truth
  | settle b, _ => .ofBool b
  | keep, t => t
  | negate, t => t.not

end Effect

namespace Connective

/-- The effect of the constant `b` on the left. -/
def effectOfLeft : Connective → Bool → Effect
  | and, true => .keep
  | and, false => .settle false
  | or, true => .settle true
  | or, false => .keep
  | implies, true => .keep
  | implies, false => .settle true
  | iff, true => .keep
  | iff, false => .negate

/-- The effect of the constant `b` on the right; only `=>` tells the sides apart. -/
def effectOfRight : Connective → Bool → Effect
  | implies, true => .settle true
  | implies, false => .negate
  | c, b => c.effectOfLeft b

theorem onTruth_ofBool_left (c : Connective) (b : Bool) (t : Truth) :
    c.onTruth (.ofBool b) t = (c.effectOfLeft b).onTruth t := by
  cases c <;> cases b <;> cases t <;> rfl

theorem onTruth_ofBool_right (c : Connective) (b : Bool) (t : Truth) :
    c.onTruth t (.ofBool b) = (c.effectOfRight b).onTruth t := by
  cases c <;> cases b <;> cases t <;> rfl

end Connective

namespace Formula

theorem ofBool_or_open (p : Formula) : (∃ b, p = ofBool b) ∨ p.constant? = none := by
  cases h : p.constant? with
  | none => exact .inr rfl
  | some b => exact .inl ⟨b, constant?_eq_some.1 h⟩

theorem negate_ofBool (b : Bool) : (ofBool b).negate = ofBool !b := by
  cases b <;> rfl

theorem negate_of_open {p : Formula} (h : p.constant? = none) : p.negate = .not p := by
  simp only [negate, h]

theorem combine_ofBool_left (c : Connective) (b : Bool) (p : Formula) :
    combine c (ofBool b) p = (c.effectOfLeft b).apply p := by
  rcases p.ofBool_or_open with ⟨a, rfl⟩ | hp
  · cases c <;> cases b <;> cases a <;> rfl
  · cases c <;> cases b <;>
      simp only [combine, conjoin, disjoin, conditional, equate, constant?_ofBool, hp] <;> rfl

theorem combine_ofBool_right (c : Connective) (b : Bool) (p : Formula) :
    combine c p (ofBool b) = (c.effectOfRight b).apply p := by
  rcases p.ofBool_or_open with ⟨a, rfl⟩ | hp
  · cases c <;> cases b <;> cases a <;> rfl
  -- `p => F` and `p <=> F` are written `~p` at once, since `p` is no constant
  · cases c <;> cases b <;>
      simp only [combine, conjoin, disjoin, conditional, equate, constant?_ofBool, hp,
        ← negate_of_open hp] <;> rfl

theorem combine_of_open (c : Connective) {l r : Formula} (hl : l.constant? = none)
    (hr : r.constant? = none) : combine c l r = .binary c l r := by
  cases c <;> simp only [combine, conjoin, disjoin, conditional, equate, hl, hr]

/-- All that can become of a connective between two formulas. -/
theorem combine_cases (c : Connective) (l r : Formula) :
    (∃ b, l = ofBool b ∧ ∀ q, combine c l q = (c.effectOfLeft b).apply q) ∨
    (∃ b, r = ofBool b ∧ ∀ q, combine c q r = (c.effectOfRight b).apply q) ∨
    (l.constant? = none ∧ r.constant? = none) := by
  rcases l.ofBool_or_open with ⟨b, rfl⟩ | hl
  · exact .inl ⟨b, rfl, combine_ofBool_left c b⟩
  · rcases r.ofBool_or_open with ⟨b, rfl⟩ | hr
    · exact .inr (.inl ⟨b, rfl, combine_ofBool_right c b⟩)
    · exact .inr (.inr ⟨hl, hr⟩)

/-! ## Building from simplified operands -/

@[simp] theorem value_ofBool (k : Valuation) (b : Bool) : (ofBool b).value k = .ofBool b := by
  cases b <;> rfl

theorem value_negate (k : Valuation) (p : Formula) : p.negate.value k = (p.value k).not := by
  rcases p.ofBool_or_open with ⟨b, rfl⟩ | hp
  · rw [negate_ofBool, value_ofBool, value_ofBool, Truth.not_ofBool]
  · rw [negate_of_open hp, value]

theorem constant?_not_of_none {p : Formula} (h : p.constant? = none) :
    (Formula.not p).constant? = none := by
  cases p <;> simp_all [constant?]

theorem constant?_negate (p : Formula) : p.negate.constant? = p.constant?.map (!·) := by
  rcases p.ofBool_or_open with ⟨b, rfl⟩ | hp
  · rw [negate_ofBool, constant?_ofBool, constant?_ofBool, Option.map_some]
  · rw [negate_of_open hp, constant?_not_of_none hp, hp, Option.map_none]

theorem value_apply (k : Valuation) (e : Effect) (p : Formula) :
    (e.apply p).value k = e.onTruth (p.value k) := by
  cases e with
  | settle b => exact value_ofBool k b
  | keep => rfl
  | negate => exact value_negate k p

/-- A connective between formulas means what its table says, whichever
operands are dropped. -/
theorem value_combine (k : Valuation) (c : Connective) (l r : Formula) :
    (combine c l r).value k = c.onTruth (l.value k) (r.value k) := by
  rcases combine_cases c l r with ⟨b, rfl, h⟩ | ⟨b, rfl, h⟩ | ⟨hl, hr⟩
  · rw [h, value_apply, value_ofBool, Connective.onTruth_ofBool_left]
  · rw [h, value_apply, value_ofBool, Connective.onTruth_ofBool_right]
  · rw [combine_of_open c hl hr, value]

theorem constant?_apply (e : Effect) {p : Formula} {t : Truth} (h : p.constant? = t.toBool?) :
    (e.apply p).constant? = (e.onTruth t).toBool? := by
  cases e with
  | settle b => simp only [Effect.apply, Effect.onTruth, constant?_ofBool, Truth.toBool?_ofBool]
  | keep => exact h
  | negate =>
    rw [Effect.apply, constant?_negate, h]
    cases t <;> rfl

/-- On simplified operands the outcome is a constant as soon as the table gives
a known value. -/
theorem constant?_combine (c : Connective) {l r : Formula} {t u : Truth}
    (hl : l.constant? = t.toBool?) (hr : r.constant? = u.toBool?) :
    (combine c l r).constant? = (c.onTruth t u).toBool? := by
  rcases combine_cases c l r with ⟨b, rfl, h⟩ | ⟨b, rfl, h⟩ | ⟨hlo, hro⟩
  · obtain rfl : t = .ofBool b := Truth.toBool?_eq_some.1 (by rw [← hl, constant?_ofBool])
    rw [h, constant?_apply _ hr, Connective.onTruth_ofBool_left]
  · obtain rfl : u = .ofBool b := Truth.toBool?_eq_some.1 (by rw [← hr, constant?_ofBool])
    rw [h, constant?_apply _ hl, Connective.onTruth_ofBool_right]
  · obtain rfl : t = .unknown := Truth.toBool?_eq_none.1 (by rw [← hl, hlo])
    obtain rfl : u = .unknown := Truth.toBool?_eq_none.1 (by rw [← hr, hro])
    rw [combine_of_open c hlo hro]
    cases c <;> rfl

/-! ## Simplification -/

/-- **Simplification keeps the value** under every valuation that knows what
was used. -/
theorem value_simplify {k j : Valuation} (h : k ≤ j) (p : Formula) :
    (p.simplify k).value j = p.value j := by
  induction p with
  | verum => rfl
  | symbol s =>
    have hs := h s
    unfold simplify
    split
    next b hb =>
      rw [Truth.toBool?_eq_some.1 hb, Truth.ofBool_le] at hs
      rw [value_ofBool, value, hs]
    next => rfl
  | not p ih => rw [simplify, value_negate, ih, value]
  | binary c l r ihl ihr => rw [simplify, value_combine, ihl, ihr, value]

/-- **Simplification is complete**: what is left is a constant exactly when the
value is known, and then it is that value. -/
theorem constant?_simplify (k : Valuation) (p : Formula) :
    (p.simplify k).constant? = (p.value k).toBool? := by
  induction p with
  | verum => rfl
  | symbol s =>
    unfold simplify
    split
    next b hb => rw [constant?_ofBool, value, hb]
    next hn => rw [value, hn]; rfl
  | not p ih =>
    rw [simplify, constant?_negate, ih, value]
    cases p.value k <;> rfl
  | binary c l r ihl ihr => exact constant?_combine c ihl ihr

theorem isConstant_simplify {k : Valuation} {p : Formula} :
    (p.simplify k).isConstant = true ↔ p.value k ≠ .unknown := by
  rw [isConstant, constant?_simplify, Option.isSome_iff_ne_none, Ne, Truth.toBool?_eq_none]

end Formula

end Reasoner
