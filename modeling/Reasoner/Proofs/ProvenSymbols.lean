/-
What is proven of definite knowledge, as a list. A model checker lists the symbols of the
vocabulary that all rows agree on (`ModelChecker.proven_eq_filter`), a chaining solver
those that its last search knows to hold (`HornBase.proven_of_search`). A forward search
for a symbol that is not entailed ends with saturated knowledge, the least model, and so
both go through the same vocabulary with the same question
(`Solver.proven_agree_of_definite`).
-/
import Reasoner.Proofs.Definite
import Reasoner.Proofs.Questions

namespace Reasoner

open Chaining

/-! ## The two lists -/

namespace HornBase

/-- After a search the proven symbols are those of the vocabulary that it knows to hold,
in the order of the vocabulary. -/
theorem proven_of_search (h : HornBase) {strategy : Strategy} {target : Formula} {v : Bool}
    {k : Knowledge} (hr : (h.search strategy target).result = .ok (v, k)) :
    k.knownAs true = (KnowledgeBase.ofSentences h.sentences).vocabulary.symbols.filter fun s =>
      k.valuation s = .holds := by
  obtain ⟨hindexed, hsymbols⟩ := h.symbols_of_search hr
  rw [hindexed.knownAs_eq_filter, hsymbols]
  rfl

/-- A forward search that leaves the question open has proven all that saturation knows
to hold. -/
theorem forward_entails_of_unknown (h : HornBase) {k : Knowledge} (hk : Saturation h.clauses k)
    {target : Formula} (hu : target.value k.valuation = .unknown) :
    ((h.chainer .forward).entails target).1 = .ok false ∧
    ((h.chainer .forward).entails target).2.proven =
      (KnowledgeBase.ofSentences h.sentences).vocabulary.symbols.filter fun s =>
        k.valuation s = .holds := by
  obtain ⟨j, hj, hvaluation⟩ := h.forward_eq_saturation hk hu
  have hsearch : ((h.chainer .forward).search target).result = .ok (false, j) := hj
  rw [← hvaluation, ← h.proven_of_search hj]
  simp only [Chainer.entails, hsearch, Chainer.proven, and_self]

namespace Definite

variable {h : HornBase} (hd : h.Definite) {k : Knowledge} (hk : Saturation h.clauses k)
include hd hk

/-- Saturation leaves open what some world makes false that satisfies the base. -/
theorem unknown_of_not_entailed {base : KnowledgeBase} (hs : base.sentences = h.sentences)
    {x : Symbol} (hx : ¬ ∀ w, base.SatisfiedBy w → w x = true) : k.valuation x = .unknown := by
  cases hvalue : k.valuation x with
  | holds =>
    have hsymbol : (Formula.symbol x).value k.valuation = .holds := hvalue
    exact absurd (fun w hw => hd.holds_of_saturation hs hk hsymbol hw) hx
  | fails => exact absurd hvalue (hd.ne_fails hk.derivation x)
  | unknown => rfl

theorem modelChecker_proven {m : ModelChecker} (hm : m.Enumerated)
    (hs : m.base.sentences = h.sentences) :
    m.proven = (KnowledgeBase.ofSentences h.sentences).vocabulary.symbols.filter fun s =>
      k.valuation s = .holds := by
  have hbase : m.base = .ofSentences h.sentences := by rw [hm.built, hs]
  rw [m.proven_eq_filter, hbase]
  refine List.filter_congr fun s _ => ?_
  rw [Bool.eq_iff_iff, decide_eq_true_eq]
  exact Solver.modelChecker_ask_iff hk hd hm hs s

end Definite

end HornBase

/-! ## Agreement -/

namespace Solver

/-- **Forward chaining and the truth table prove the same symbols of definite knowledge**,
in the same order. Of a text that both accept and that holds nothing but symbols and rules
from positive bodies to symbols, and of a symbol that is not entailed, forward chaining
denies the symbol, and what it has then proven is what the truth table has proven. -/
theorem proven_agree_of_definite (config : Config) (text : String)
    (tabulated : ((new config .truthTable).tell text).1 = .ok ())
    (chained : ((new config .forwardChaining).tell text).1 = .ok ())
    (definite : ∀ s ∈ (KnowledgeBase.tell {} text).2.sentences, s.formula.isDefinite = true)
    (x : Symbol)
    (notEntailed : ¬ ∀ w, (KnowledgeBase.tell {} text).2.SatisfiedBy w → w x = true) :
    ((told config text .forwardChaining).ask x).1 = .ok false ∧
    ((told config text .forwardChaining).ask x).2.proven = (told config text .truthTable).proven := by
  obtain ⟨m, hm, hbase, htt⟩ := told_modelChecker tabulated
  obtain ⟨h, hsentences, hchainer⟩ := told_chainer chained
  have hfc : told config text .forwardChaining = .chainer (h.chainer .forward) := hchainer
  have hd : h.Definite := by
    intro s hmem
    rw [hsentences] at hmem
    exact definite s hmem
  obtain ⟨k, hk⟩ := h.exists_saturation hd.not_conflicting
  have hopen : (Formula.symbol x).value k.valuation = .unknown :=
    hd.unknown_of_not_entailed hk hsentences.symm notEntailed
  obtain ⟨hdenied, hproven⟩ := h.forward_entails_of_unknown hk hopen
  have hs : m.base.sentences = h.sentences := by rw [hbase, hsentences]
  rw [hfc, htt]
  exact ⟨hdenied, hproven.trans (hd.modelChecker_proven hk hm hs).symm⟩

/-- The rules for `a` and `b` go in a circle that `c` starts; that for `d` goes in a circle
that nothing starts. -/
theorem proven_agree_of_definite_cycle :
    let text := "b => a; a || c => b; c; d & a => d"
    let base := (KnowledgeBase.tell {} text).2
    ((new {} .truthTable).tell text).1 = .ok () ∧
    ((new {} .forwardChaining).tell text).1 = .ok () ∧
    (∀ s ∈ base.sentences, s.formula.isDefinite = true) ∧
    (¬ ∀ w, base.SatisfiedBy w → w ⟨"d"⟩ = true) ∧
    ((told {} text .forwardChaining).ask ⟨"d"⟩).2.proven = (told {} text .truthTable).proven ∧
    (told {} text .truthTable).proven = [⟨"b"⟩, ⟨"a"⟩, ⟨"c"⟩] := by
  intro text base
  have tabulated : ((new {} .truthTable).tell text).1 = .ok () := by decide +kernel
  have chained : ((new {} .forwardChaining).tell text).1 = .ok () := by decide +kernel
  have definite : ∀ s ∈ base.sentences, s.formula.isDefinite = true := by decide +kernel
  have model : base.SatisfiedBy fun s => s.name ∈ ["a", "b", "c"] := by decide +kernel
  have notEntailed : ¬ ∀ w, base.SatisfiedBy w → w ⟨"d"⟩ = true := by
    intro hall
    have hd := hall _ model
    simp at hd
  exact ⟨tabulated, chained, definite, notEntailed,
    (proven_agree_of_definite {} text tabulated chained definite ⟨"d"⟩ notEntailed).2,
    by decide +kernel⟩

end Solver

end Reasoner
