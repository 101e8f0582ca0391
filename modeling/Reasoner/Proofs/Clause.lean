/-
Clauses and what they say. A sentence that is a Horn clause holds in a world
exactly when its body, if it holds there, makes the consequent hold
(`holds_iff_of_ofSentence`). Under a partial valuation the body makes a value of
the consequent's symbol (`Clause.implied`), and more knowledge never takes that
value back.
-/
import Reasoner.Clause
import Reasoner.Proofs.Valuation

namespace Reasoner

namespace Literal

/-- Truth of a literal in a world. -/
def holds (w : World) (l : Literal) : Bool :=
  w l.symbol == l.polarity

theorem holds_of_ofFormula? {p : Formula} {l : Literal} (h : ofFormula? p = some l) (w : World) :
    l.holds w = p.holds w := by
  unfold ofFormula? at h
  split at h
  · cases h
    simp [holds, Formula.holds]
  · cases h
    simp [holds, Formula.holds]
  · cases h

theorem symbols_of_ofFormula? {p : Formula} {l : Literal} (h : ofFormula? p = some l) :
    p.symbols = [l.symbol] := by
  unfold ofFormula? at h
  split at h
  · cases h; rfl
  · cases h; rfl
  · cases h

end Literal

namespace Clause

/-! ## The sentence of a clause -/

/-- The two shapes of a Horn clause: a rule or a bare literal. -/
theorem ofSentence_cases {s : Sentence} {c : Clause} (h : ofSentence s = .ok c) :
    c.source = s ∧
      ((∃ head, s.formula = .binary .implies c.body head ∧
          Literal.ofFormula? head = some c.consequent) ∨
        (c.body = .verum ∧ Literal.ofFormula? s.formula = some c.consequent)) := by
  unfold ofSentence at h
  split at h
  next body l hp =>
    cases h
    refine ⟨rfl, ?_⟩
    unfold parts at hp
    split at hp
    next b head hf =>
      simp only [Prod.mk.injEq] at hp
      obtain ⟨rfl, hl⟩ := hp
      exact .inl ⟨head, hf, hl⟩
    next =>
      simp only [Prod.mk.injEq] at hp
      exact .inr ⟨hp.1.symm, hp.2⟩
  next => cases h

/-- A Horn sentence says that its body implies its consequent. -/
theorem holds_iff_of_ofSentence {s : Sentence} {c : Clause} (h : ofSentence s = .ok c) (w : World) :
    s.formula.holds w = true ↔ (c.body.holds w = true → c.consequent.holds w = true) := by
  rcases (ofSentence_cases h).2 with ⟨head, hs, hl⟩ | ⟨hb, hl⟩
  · rw [hs, Formula.holds, Literal.holds_of_ofFormula? hl]
    simp only [Connective.onBool]
    cases c.body.holds w <;> simp
  · rw [hb, Literal.holds_of_ofFormula? hl]
    simp [Formula.holds]

/-- The symbols of a clause are those of its sentence. -/
theorem mem_symbols_of_ofSentence {s : Sentence} {c : Clause} (h : ofSentence s = .ok c)
    (t : Symbol) : t ∈ s.symbols ↔ t ∈ c.body.symbols ∨ t = c.consequent.symbol := by
  rcases (ofSentence_cases h).2 with ⟨head, hs, hl⟩ | ⟨hb, hl⟩
  · rw [Sentence.symbols, hs, Formula.symbols, Literal.symbols_of_ofFormula? hl]
    simp
  · rw [Sentence.symbols, Literal.symbols_of_ofFormula? hl, hb]
    simp [Formula.symbols]

/-! ## What a body makes of the consequent -/

/-- The value a body gives to the consequent's symbol: the polarity if the body
holds, the opposite if it fails. -/
def implied (k : Valuation) (c : Clause) : Truth :=
  (c.body.value k).signed c.consequent.polarity

theorem proves_eq (k : Valuation) (c : Clause) :
    c.proves k = (c.consequent.symbol, c.implied k) := rfl

theorem implied_mono {k j : Valuation} (h : k ≤ j) (c : Clause) : c.implied k ≤ c.implied j :=
  Truth.signed_mono _ (Formula.value_mono h c.body)

theorem implied_eq_of_le {k j : Valuation} (h : k ≤ j) {c : Clause} {b : Bool}
    (hc : c.implied k = .ofBool b) : c.implied j = .ofBool b := by
  have := implied_mono h c
  rwa [hc, Truth.ofBool_le] at this

theorem implied_congr {k j : Valuation} {c : Clause} (h : ∀ s ∈ c.body.symbols, k s = j s) :
    c.implied k = c.implied j := by
  rw [implied, implied, Formula.value_congr h]

theorem implied_eq_unknown {k : Valuation} {c : Clause} :
    c.implied k = .unknown ↔ c.body.value k = .unknown :=
  Truth.signed_eq_unknown

/-- A body decided one way or the other implies the polarity or its opposite. -/
theorem implied_of_value {k : Valuation} {c : Clause} {b : Bool} (h : c.body.value k = .ofBool b) :
    c.implied k = .ofBool (b == c.consequent.polarity) := by
  rw [implied, h, Truth.signed_ofBool]

end Clause

end Reasoner
