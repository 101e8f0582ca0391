/-
Definite knowledge: facts and rules without negation. Nothing is ever known to
fail there, so no body fails and no contradiction is met
(`HornBase.Definite.not_conflicting`). What saturation knows to hold is the least
model: it satisfies the sentences (`HornBase.Definite.least_model`), and it is
right in every world that does (`HornBase.Definite.respects`). A question without
negation therefore has the same answer whether all rows of a truth table are
searched, or facts are chained forwards, or goals backwards
(`Solver.methods_agree_of_definite`).
-/
import Reasoner.Proofs.HornBase
import Reasoner.Proofs.ModelChecker

namespace Reasoner

/-- The world in which only what is known to hold is true. -/
def World.least (k : Valuation) : World := fun s =>
  decide (k s = .holds)

/-! ## Positive and definite formulas -/

namespace Formula

/-- Built from symbols with `&` and `||`. -/
def isPositive : Formula → Bool
  | .symbol _ => true
  | .binary .and l r => l.isPositive && r.isPositive
  | .binary .or l r => l.isPositive && r.isPositive
  | _ => false

/-- A symbol, or a positive body that implies one. -/
def isDefinite : Formula → Bool
  | .symbol _ => true
  | .binary .implies body (.symbol _) => body.isPositive
  | _ => false

theorem isDefinite_cases {p : Formula} (h : p.isDefinite = true) :
    (∃ s, p = .symbol s) ∨
      ∃ body s, p = .binary .implies body (.symbol s) ∧ body.isPositive = true := by
  unfold isDefinite at h
  split at h
  next s => exact .inl ⟨s, rfl⟩
  next body s => exact .inr ⟨body, s, rfl, h⟩
  next => cases h

/-- Where nothing fails, a positive formula holds as soon as it is true in the
least world, and is open otherwise. -/
theorem value_of_isPositive {k : Valuation} (hk : ∀ s, k s ≠ .fails) {p : Formula}
    (hp : p.isPositive = true) :
    p.value k = if p.holds (World.least k) then .holds else .unknown := by
  fun_induction isPositive p with
  | case1 s =>
    have hs := hk s
    cases h : k s with
    | holds => simp [value, holds, World.least, h]
    | fails => exact absurd h hs
    | unknown => simp [value, holds, World.least, h]
  | case2 l r ihl ihr =>
    rw [Bool.and_eq_true] at hp
    rw [value, ihl hp.1, ihr hp.2, holds]
    cases l.holds (World.least k) <;> cases r.holds (World.least k) <;> rfl
  | case3 l r ihl ihr =>
    rw [Bool.and_eq_true] at hp
    rw [value, ihl hp.1, ihr hp.2, holds]
    cases l.holds (World.least k) <;> cases r.holds (World.least k) <;> rfl
  | case4 => cases hp

end Formula

/-! ## Definite clauses -/

/-- A positive body, or none, that implies a symbol. -/
structure Clause.Definite (c : Clause) : Prop where
  body : c.body = .verum ∨ c.body.isPositive = true
  polarity : c.consequent.polarity = true

namespace Clause

theorem definite_of_ofSentence {s : Sentence} {c : Clause} (h : ofSentence s = .ok c)
    (hs : s.formula.isDefinite = true) : c.Definite := by
  obtain ⟨text, p⟩ := s
  rcases Formula.isDefinite_cases hs with ⟨t, rfl⟩ | ⟨body, t, rfl, hb⟩
  · cases h
    exact ⟨.inl rfl, rfl⟩
  · cases h
    exact ⟨.inr hb, rfl⟩

namespace Definite

variable {c : Clause} (hc : c.Definite) {k : Valuation} (hk : ∀ s, k s ≠ .fails)
include hc hk

theorem body_value :
    c.body.value k = if c.body.holds (World.least k) then .holds else .unknown := by
  rcases hc.body with hb | hb
  · rw [hb]
    rfl
  · exact Formula.value_of_isPositive hk hb

theorem body_ne_fails : c.body.value k ≠ .fails := by
  rw [hc.body_value hk]
  split <;> simp

/-- A definite clause implies that its consequent holds, or nothing. -/
theorem eq_true_of_implied {b : Bool} (hb : c.implied k = .ofBool b) : b = true := by
  rw [Clause.implied, hc.polarity] at hb
  cases b with
  | true => rfl
  | false => exact absurd hb (hc.body_ne_fails hk)

end Definite

end Clause

/-! ## Definite bases -/

namespace HornBase

open Chaining

def Definite (h : HornBase) : Prop :=
  ∀ s ∈ h.sentences, s.formula.isDefinite = true

namespace Definite

variable {h : HornBase} (hd : h.Definite) {k : Knowledge}
include hd

theorem clause {c : Clause} (hc : c ∈ h.clauses) : c.Definite := by
  obtain ⟨s, hs, hsc⟩ := h.mem_clauses.1 hc
  exact Clause.definite_of_ofSentence hsc (hd s hs)

theorem ne_fails (hk : Derivation h.clauses k) (s : Symbol) : k.valuation s ≠ .fails := by
  induction hk generalizing s with
  | start symbols =>
    rw [Knowledge.valuation_ofSymbols]
    simp
  | @commit k k' c t b before mem fired ih =>
    obtain ⟨-, hc⟩ := commits_of_direct before.indexed fired
    have hb : b = true := (hd.clause mem).eq_true_of_implied ih hc.implied
    rw [hc.valuation_eq, hb]
    by_cases hs : s = c.consequent.symbol
    · rw [hs, Function.update_self]
      simp [Truth.ofBool]
    · rw [Function.update_of_ne hs]
      exact ih s

/-- No contradiction comes out of definite knowledge. -/
theorem not_conflicting (e : Contradiction) : ¬ Conflicting h.clauses e := by
  rintro ⟨j, c, hj, hc, hdirect⟩
  obtain ⟨-, hne, hknown, himp⟩ := conflict_of_contradicts hj.indexed hdirect
  have hderived : e.derived = true := (hd.clause hc).eq_true_of_implied (hd.ne_fails hj) himp
  rw [hne, hderived] at hknown
  exact hd.ne_fails hj e.symbol hknown

/-- **What saturation knows is a model.** -/
theorem least_model (hk : Saturation h.clauses k) :
    ∀ s ∈ h.sentences, s.formula.holds (World.least k.valuation) = true := by
  rw [h.holds_sentences_iff]
  intro c hc hbody
  have hdef := hd.clause hc
  have hvalue : c.body.value k.valuation = .holds := by
    rw [hdef.body_value (hd.ne_fails hk.derivation), if_pos hbody]
  have hclosed := hk.closed c hc
  rw [Clause.implied, hvalue, hdef.polarity] at hclosed
  have hholds : k.valuation c.consequent.symbol = .holds := (Truth.ofBool_le (b := true)).1 hclosed
  simp [Literal.holds, World.least, hholds, hdef.polarity]

/-- **What is derived is right in every model.** -/
theorem respects (hk : Derivation h.clauses k) {w : World}
    (hw : ∀ s ∈ h.sentences, s.formula.holds w = true) : w.Respects k.valuation := by
  refine hk.respects ((h.holds_sentences_iff w).1 hw) fun c hc hf => ?_
  exact absurd hf ((hd.clause hc).body_ne_fails (hd.ne_fails hk))

/-! ## Models of a definite base -/

variable {base : KnowledgeBase}

omit hd in
/-- Nothing outside the vocabulary holds in the least model, so it is one of the
choices. -/
theorem world_choiceOf_least (hb : base.Built) (hs : base.sentences = h.sentences)
    (hk : Derivation h.clauses k) :
    (base.choiceOf (World.least k.valuation)).world = World.least k.valuation := by
  funext s
  by_cases hmem : s ∈ base.vocabulary.symbols
  · exact KnowledgeBase.world_choiceOf hmem
  · rw [KnowledgeBase.Choice.world_of_not_mem hmem, eq_comm, World.least, decide_eq_false_iff_not]
    intro hholds
    obtain ⟨c, hc, rfl⟩ := hk.exists_consequent (by rw [hholds]; simp)
    obtain ⟨t, ht, htc⟩ := h.mem_clauses.1 hc
    have hsym := (Clause.mem_symbols_of_ofSentence htc _).2 (.inr rfl)
    rw [← hs] at ht
    exact hmem (hb.mem_symbols.2 ⟨t.formula, List.mem_map_of_mem ht, hsym⟩)

theorem satisfiedBy_least (hs : base.sentences = h.sentences) (hk : Saturation h.clauses k) :
    base.SatisfiedBy (World.least k.valuation) := by
  rw [KnowledgeBase.satisfiedBy_iff, hs]
  exact hd.least_model hk

/-- What saturation settles is so in every world that satisfies the base. -/
theorem holds_of_saturation (hs : base.sentences = h.sentences) (hk : Saturation h.clauses k)
    {p : Formula} (hp : p.value k.valuation = .holds) {w : World} (hw : base.SatisfiedBy w) :
    p.holds w = true := by
  rw [KnowledgeBase.satisfiedBy_iff, hs] at hw
  exact Formula.holds_of_value (hd.respects hk.derivation hw) hp

/-- A positive formula that holds in all models holds in the least one, and so
under saturation. -/
theorem value_of_models (hb : base.Built) (hs : base.sentences = h.sentences)
    (hk : Saturation h.clauses k) {p : Formula} (hp : p.isPositive = true)
    (hall : ∀ v ∈ base.models, p.holds v.world = true) : p.value k.valuation = .holds := by
  have hworld := world_choiceOf_least hb hs hk.derivation
  have hleast : base.choiceOf (World.least k.valuation) ∈ base.models := by
    rw [KnowledgeBase.mem_models, hworld]
    exact hd.satisfiedBy_least hs hk
  have hholds := hall _ hleast
  rw [hworld] at hholds
  rw [Formula.value_of_isPositive (hd.ne_fails hk.derivation) hp, if_pos hholds]

end Definite

end HornBase

/-! ## Agreement of the methods -/

namespace Solver

/-- The solver affirms what holds under `k`, and of positive formulas and symbols
nothing else. -/
structure AnswersBy (solver : Solver) (k : Valuation) : Prop where
  queryFormula : ∀ p, ∃ n, (solver.queryFormula p).1 = .ok n ∧ (p.value k = .holds → n ≠ 0) ∧
    (p.isPositive = true → n ≠ 0 → p.value k = .holds)
  ask : ∀ s, (solver.ask s).1 = .ok (decide (k s = .holds))

section Saturated

open Chaining

variable {h : HornBase} {k : Knowledge} (hk : Saturation h.clauses k)
include hk

theorem chainer_queryFormula (strategy : Strategy) (p : Formula) :
    ∃ n, ((chainer (h.chainer strategy)).queryFormula p).1 = .ok n ∧
      (n ≠ 0 ↔ p.value k.valuation = .holds) := by
  refine ⟨(decide (p.value k.valuation = .holds)).toNat, ?_, ?_⟩
  · have he := h.entails_of_saturation hk strategy p
    simp only [queryFormula, Prod.map_fst, he, Except.map]
  · by_cases hp : p.value k.valuation = .holds
    · simp [hp]
    · simp [hp]

theorem chainer_answersBy (strategy : Strategy) :
    (chainer (h.chainer strategy)).AnswersBy k.valuation where
  queryFormula p := by
    obtain ⟨n, hn, hiff⟩ := chainer_queryFormula hk strategy p
    exact ⟨n, hn, hiff.2, fun _ => hiff.1⟩
  ask s := h.entails_of_saturation hk strategy (.symbol s)

section ModelChecker

variable (hd : h.Definite) {m : ModelChecker} (hm : m.Enumerated)
  (hs : m.base.sentences = h.sentences)
include hd hm hs

theorem modelChecker_ask_iff (s : Symbol) : m.ask s = true ↔ k.valuation s = .holds := by
  have hleast := hd.satisfiedBy_least hs hk
  rw [hm.ask_iff]
  constructor
  · intro hall
    have hsymbol := hall.2 _ hleast
    rwa [World.least, decide_eq_true_eq] at hsymbol
  · intro hholds
    have hvalue : (Formula.symbol s).value k.valuation = .holds := hholds
    exact ⟨⟨_, hleast⟩, fun w hw => hd.holds_of_saturation hs hk hvalue hw⟩

theorem modelChecker_answersBy : (modelChecker m).AnswersBy k.valuation where
  queryFormula p := by
    refine ⟨m.queryFormula p, rfl, ?_, ?_⟩
    · intro hp
      rw [hm.queryFormula_ne_zero]
      refine ⟨⟨_, hd.satisfiedBy_least hs hk⟩, fun v hv => ?_⟩
      exact hd.holds_of_saturation hs hk hp (KnowledgeBase.mem_models.1 hv)
    · intro hp hq
      have hall := ((hm.queryFormula_ne_zero p).1 hq).2
      exact hd.value_of_models hm.built hs hk hp hall
  ask s := by
    have hdec : m.ask s = decide (k.valuation s = .holds) := by
      rw [Bool.eq_iff_iff, decide_eq_true_eq]
      exact modelChecker_ask_iff hk hd hm hs s
    rw [ask, hdec]

end ModelChecker

end Saturated

/-- The solver of a method after it was told one text. -/
def told (config : Config) (text : String) (method : Method) : Solver :=
  ((new config method).tell text).2

theorem told_modelChecker {config : Config} {text : String}
    (accepted : ((new config .truthTable).tell text).1 = .ok ()) :
    ∃ m : ModelChecker, m.Enumerated ∧ m.base = (KnowledgeBase.tell {} text).2 ∧
      told config text .truthTable = .modelChecker m := by
  obtain ⟨sentences, hbase⟩ := base_of_tell (Prod.ext accepted rfl)
  rw [base_new] at hbase
  exact ⟨_, (ModelChecker.enumerated_new config).tell text, by rw [hbase]; rfl, rfl⟩

theorem told_chainer {strategy : Strategy} {text : String}
    (accepted : ((chainer { strategy }).tell text).1 = .ok ()) :
    ∃ h : HornBase, h.sentences = (KnowledgeBase.tell {} text).2.sentences ∧
      ((chainer { strategy }).tell text).2 = .chainer (h.chainer strategy) := by
  simp only [tell_chainer, ← HornBase.chainer_empty] at accepted ⊢
  obtain ⟨h, hs, hc⟩ := HornBase.tell_empty accepted
  exact ⟨h, hs, by rw [hc]⟩

/-- The three solvers that accept a text: a model checker that enumerated it and
the two chainers over one Horn base. -/
theorem told_of_accepted {config : Config} {text : String}
    (accepted : ∀ method, ((new config method).tell text).1 = .ok ()) :
    ∃ (m : ModelChecker) (h : HornBase),
      m.Enumerated ∧ m.base.sentences = h.sentences ∧
      h.sentences = (KnowledgeBase.tell {} text).2.sentences ∧
      told config text .truthTable = .modelChecker m ∧
      told config text .forwardChaining = .chainer (h.chainer .forward) ∧
      told config text .backwardChaining = .chainer (h.chainer .backward) := by
  obtain ⟨m, hm, hbase, htt⟩ := told_modelChecker (accepted .truthTable)
  obtain ⟨h, hfs, hfc⟩ := told_chainer (accepted .forwardChaining)
  obtain ⟨h', hbs, hbc⟩ := told_chainer (accepted .backwardChaining)
  obtain rfl : h' = h := HornBase.eq_of_sentences (hbs.trans hfs.symm)
  exact ⟨m, h', hm, by rw [hbase, hfs], hfs, htt, hfc, hbc⟩

/-- **The three methods agree on definite knowledge.** Of a text that all of them
accept and that holds nothing but symbols and rules from positive bodies to symbols,
all say the same about every positive formula and about every symbol; and of any
formula at all, the chainers affirm nothing that the truth table does not. -/
theorem methods_agree_of_definite (config : Config) (text : String)
    (accepted : ∀ method, ((new config method).tell text).1 = .ok ())
    (definite : ∀ s ∈ (KnowledgeBase.tell {} text).2.sentences, s.formula.isDefinite = true) :
    (∀ target : Formula, target.isPositive = true → ∃ entailed : Bool, ∀ method, ∃ n,
      ((told config text method).queryFormula target).1 = .ok n ∧ (n ≠ 0 ↔ entailed = true)) ∧
    (∀ s : Symbol, ∃ entailed : Bool, ∀ method,
      ((told config text method).ask s).1 = .ok entailed) ∧
    (∀ target : Formula, ∃ t, ((told config text .truthTable).queryFormula target).1 = .ok t ∧
      ∀ method, ∃ n,
        ((told config text method).queryFormula target).1 = .ok n ∧ (n ≠ 0 → t ≠ 0)) := by
  obtain ⟨m, h, hm, hs, hsentences, htt, hfc, hbc⟩ := told_of_accepted accepted
  have hd : h.Definite := by
    intro s hmem
    rw [hsentences] at hmem
    exact definite s hmem
  obtain ⟨k, hk⟩ := h.exists_saturation hd.not_conflicting
  have answers : ∀ method, (told config text method).AnswersBy k.valuation := by
    intro method
    cases method with
    | truthTable => rw [htt]; exact modelChecker_answersBy hk hd hm hs
    | forwardChaining => rw [hfc]; exact chainer_answersBy hk .forward
    | backwardChaining => rw [hbc]; exact chainer_answersBy hk .backward
  refine ⟨fun target hp => ?_, fun s => ⟨_, fun method => (answers method).ask s⟩, fun target => ?_⟩
  · refine ⟨decide (target.value k.valuation = .holds), fun method => ?_⟩
    obtain ⟨n, hn, hnonzero, hvalue⟩ := (answers method).queryFormula target
    rw [decide_eq_true_eq]
    exact ⟨n, hn, hvalue hp, hnonzero⟩
  · obtain ⟨t, ht, htable, -⟩ := (answers .truthTable).queryFormula target
    refine ⟨t, ht, fun method => ?_⟩
    cases method with
    | truthTable => exact ⟨t, ht, id⟩
    | forwardChaining =>
      obtain ⟨n, hn, hiff⟩ := chainer_queryFormula hk .forward target
      exact ⟨n, by rw [hfc, hn], fun hne => htable (hiff.1 hne)⟩
    | backwardChaining =>
      obtain ⟨n, hn, hiff⟩ := chainer_queryFormula hk .backward target
      exact ⟨n, by rw [hbc, hn], fun hne => htable (hiff.1 hne)⟩

/-- Although `a` and `b` follow from each other, all three methods affirm `a`: it follows
from the fact `c`. -/
theorem methods_agree_of_definite_cycle :
    let text := "c; b => a; a || c => b"
    (∀ method, ((new {} method).tell text).1 = .ok ()) ∧
    (∀ s ∈ (KnowledgeBase.tell {} text).2.sentences, s.formula.isDefinite = true) ∧
    ∀ method, ((told {} text method).ask ⟨"a"⟩).1 = .ok true := by
  intro text
  have all : ∀ method ∈ Method.all, ((new {} method).tell text).1 = .ok () := by decide +kernel
  have accepted : ∀ method, ((new {} method).tell text).1 = .ok () := by
    intro method
    exact all method (by cases method <;> decide)
  have definite : ∀ s ∈ (KnowledgeBase.tell {} text).2.sentences, s.formula.isDefinite = true := by
    decide +kernel
  obtain ⟨entailed, hsame⟩ := (methods_agree_of_definite {} text accepted definite).2.1 ⟨"a"⟩
  have htable : ((told {} text .truthTable).ask ⟨"a"⟩).1 = .ok true := by decide +kernel
  cases htable.symm.trans (hsame .truthTable)
  exact ⟨accepted, definite, hsame⟩

end Solver

end Reasoner
