/-
Sessions: a solver that performs operation after operation. Telling either takes
in the whole batch or leaves the solver as it was (`ModelChecker.tell_cases`,
`Chainer.tell_cases`), and what every single operation keeps, a session keeps
(`Solver.performAll_of_perform`).
-/
import Reasoner.Solver

namespace Reasoner

/-! ## What telling can do -/

theorem ModelChecker.tell_cases (m : ModelChecker) (batch : String) :
    (∃ e, m.tell batch = (.error e, m)) ∨
    ∃ told base worlds, m.base.tell batch = (.ok told, base) ∧
      enumerate m.config base = .ok worlds ∧ m.tell batch = (.ok (), { m with base, worlds }) := by
  unfold ModelChecker.tell
  split
  next e _ _ => exact .inl ⟨_, rfl⟩
  next told base htell =>
    split
    next e _ => exact .inl ⟨e, rfl⟩
    next worlds henum => exact .inr ⟨told, base, worlds, htell, henum, rfl⟩

theorem Chainer.tell_cases (c : Chainer) (batch : String) :
    (∃ e, c.tell batch = (.error e, c)) ∨
    ∃ told base clauses, c.base.tell batch = (.ok told, base) ∧
      clausesOf told = .ok clauses ∧
      c.tell batch = (.ok (), { c with base, clauses := c.clauses ++ clauses, learned := .empty }) := by
  unfold Chainer.tell
  split
  next e _ _ => exact .inl ⟨_, rfl⟩
  next told base htell =>
    split
    next e _ => exact .inl ⟨_, rfl⟩
    next clauses hclauses => exact .inr ⟨told, base, clauses, htell, hclauses, rfl⟩

namespace Solver

@[simp] theorem tell_modelChecker (m : ModelChecker) (batch : String) :
    (modelChecker m).tell batch = ((m.tell batch).1, modelChecker (m.tell batch).2) := rfl

@[simp] theorem tell_chainer (c : Chainer) (batch : String) :
    (chainer c).tell batch = ((c.tell batch).1, chainer (c.tell batch).2) := rfl

/-! ## Operation after operation -/

/-- What every operation keeps, a session keeps. -/
theorem performAll_of_perform {P : Solver → Prop} (step : ∀ s op, P s → P (s.perform op).2)
    {s : Solver} (h : P s) (session : List Operation) : P (s.performAll session) := by
  induction session generalizing s with
  | nil => exact h
  | cons op session ih => exact ih (step s op h)

/-- A model checker stays one; it changes by telling and by forgetting only. -/
theorem perform_modelChecker (m : ModelChecker) (op : Operation) :
    ∃ m', ((modelChecker m).perform op).2 = modelChecker m' ∧
      (m' = m ∨ m' = m.reset ∨ ∃ batch, m' = (m.tell batch).2) := by
  cases op with
  | tell batch => exact ⟨_, rfl, .inr (.inr ⟨batch, rfl⟩)⟩
  | reset => exact ⟨_, rfl, .inr (.inl rfl)⟩
  | ask s => exact ⟨_, rfl, .inl rfl⟩
  | query s => exact ⟨_, rfl, .inl rfl⟩
  | queryFormula p => exact ⟨_, rfl, .inl rfl⟩
  | queryText text =>
    refine ⟨m, ?_, .inl rfl⟩
    simp only [perform, queryText]
    cases Formula.parse text with
    | ok p => rfl
    | error e => rfl

end Solver

end Reasoner
