/-
Entailment of formulas. A model checker looks at the choices for the vocabulary
and reads every other symbol as false. So it affirms a formula when that holds in
every world, of which there must be one, that satisfies what was told and makes
nothing outside the vocabulary true. Making more symbols true keeps a formula true
in which they have no negative occurrence (`Formula.holds_mono`); where all symbols
with a negative occurrence are in the vocabulary, what is affirmed is therefore what
holds in all worlds that satisfy what was told (`Solver.truthTable_entails`).
-/
import Reasoner.Proofs.ModelChecker

namespace Reasoner

/-! ## Signs of occurrences -/

namespace Formula

/-- The symbols with an occurrence of this sign: positive (`true`), or negative
(`false`) under an odd number of negations and left sides of `=>`. Below `<=>` an
occurrence has both signs. -/
def signedSymbols : Bool → Formula → List Symbol
  | _, verum => []
  | sign, symbol s => if sign then [s] else []
  | sign, not p => p.signedSymbols !sign
  | sign, binary .implies l r => l.signedSymbols (!sign) ++ r.signedSymbols sign
  | _, binary .iff l r => l.symbols ++ r.symbols
  | sign, binary _ l r => l.signedSymbols sign ++ r.signedSymbols sign

/-- A formula stays true when its positive symbols gain and its negative ones lose
truth. -/
theorem holds_mono {v w : World} {p : Formula} (up : ∀ s ∈ p.signedSymbols true, v s ≤ w s)
    (down : ∀ s ∈ p.signedSymbols false, w s ≤ v s) : p.holds v ≤ p.holds w := by
  induction p generalizing v w with
  | verum => exact le_rfl
  | symbol s => exact up s (by simp [signedSymbols])
  | not p ih => exact compl_le_compl (ih down up)
  | binary c l r ihl ihr =>
    cases c with
    | and =>
      simp only [signedSymbols, List.mem_append] at up down
      have hl := ihl (fun s hs => up s (.inl hs)) fun s hs => down s (.inl hs)
      have hr := ihr (fun s hs => up s (.inr hs)) fun s hs => down s (.inr hs)
      exact inf_le_inf hl hr
    | or =>
      simp only [signedSymbols, List.mem_append] at up down
      have hl := ihl (fun s hs => up s (.inl hs)) fun s hs => down s (.inl hs)
      have hr := ihr (fun s hs => up s (.inr hs)) fun s hs => down s (.inr hs)
      exact sup_le_sup hl hr
    | implies =>
      simp only [signedSymbols, List.mem_append, Bool.not_true, Bool.not_false] at up down
      have hl := ihl (fun s hs => down s (.inl hs)) fun s hs => up s (.inl hs)
      have hr := ihr (fun s hs => up s (.inr hs)) fun s hs => down s (.inr hs)
      exact sup_le_sup (compl_le_compl hl) hr
    | iff =>
      refine (holds_congr fun s hs => ?_).le
      exact le_antisymm (up s hs) (down s hs)

end Formula

/-! ## Models and worlds -/

namespace KnowledgeBase

variable {base : KnowledgeBase}

theorem choiceOf_world_le (w : World) (s : Symbol) : (base.choiceOf w).world s ≤ w s := by
  by_cases hs : s ∈ base.vocabulary.symbols
  · exact (world_choiceOf hs).le
  · rw [Choice.world_of_not_mem hs]
    exact Bool.false_le _

/-- The worlds of models are those that satisfy what was told and make nothing
outside the vocabulary true. -/
theorem forall_models_iff (p : Formula) :
    (∀ v ∈ base.models, p.holds v.world = true) ↔
      ∀ w : World, base.SatisfiedBy w → (∀ s, s ∉ base.vocabulary.symbols → w s = false) →
        p.holds w = true := by
  constructor
  · intro hall w hw hout
    have hworld : (base.choiceOf w).world = w := by
      funext s
      by_cases hs : s ∈ base.vocabulary.symbols
      · exact world_choiceOf hs
      · rw [Choice.world_of_not_mem hs, hout s hs]
    have hmem : base.choiceOf w ∈ base.models := by
      rw [mem_models, hworld]
      exact hw
    have hholds := hall _ hmem
    rwa [hworld] at hholds
  · intro hall v hv
    exact hall v.world (mem_models.1 hv) fun s hs => Choice.world_of_not_mem hs

/-- Models decide for all worlds about a formula whose negative symbols are all in
the vocabulary. -/
theorem Built.forall_models_iff_of_told (h : base.Built) {p : Formula}
    (told : ∀ s ∈ p.signedSymbols false, s ∈ base.vocabulary.symbols) :
    (∀ v ∈ base.models, p.holds v.world = true) ↔
      ∀ w : World, base.SatisfiedBy w → p.holds w = true := by
  constructor
  · intro hall w hw
    have hv := hall (base.choiceOf w) (mem_models.2 (h.satisfiedBy_choiceOf.2 hw))
    have hle : p.holds (base.choiceOf w).world ≤ p.holds w :=
      Formula.holds_mono (fun s _ => choiceOf_world_le w s)
        fun s hs => (world_choiceOf (told s hs)).ge
    rw [hv] at hle
    exact Bool.eq_true_of_true_le hle
  · intro hall v hv
    exact hall v.world (mem_models.1 hv)

end KnowledgeBase

/-! ## What a model checker affirms -/

namespace Solver

/-- **What the truth table affirms is entailed**, up to its reading of untold
symbols. After any session what was told is what the batches accepted since the last
reset make of an empty knowledge base, and a formula has support exactly when what was
told can be satisfied and the formula holds in every world that satisfies it and makes no
symbol true that was never told. Where every symbol with a negative occurrence was told,
the worlds may make untold symbols true as well. -/
theorem truthTable_entails (config : Config) (session : List Operation) (p : Formula) :
    let solver := (new config .truthTable).performAll session
    KnowledgeBase.tell {} (";".intercalate ((new config .truthTable).accepted [] session)) =
      (.ok solver.base.sentences, solver.base) ∧
    ∃ n, (solver.queryFormula p).1 = .ok n ∧
      (n ≠ 0 ↔ (∃ w, solver.base.SatisfiedBy w) ∧
        ∀ w, solver.base.SatisfiedBy w →
          (∀ s, s ∉ solver.base.vocabulary.symbols → w s = false) → p.holds w = true) ∧
      ((∀ s ∈ p.signedSymbols false, s ∈ solver.base.vocabulary.symbols) →
        (n ≠ 0 ↔ (∃ w, solver.base.SatisfiedBy w) ∧
          ∀ w, solver.base.SatisfiedBy w → p.holds w = true)) := by
  intro solver
  refine ⟨tell_accepted config .truthTable session, ?_⟩
  obtain ⟨m, hm, h⟩ := ModelChecker.enumerated_of_session config session
  have hsolver : solver = modelChecker m := hm
  rw [hsolver]
  refine ⟨m.queryFormula p, rfl, ?_, fun told => ?_⟩
  · rw [h.queryFormula_ne_zero, KnowledgeBase.forall_models_iff]
    rfl
  · rw [h.queryFormula_ne_zero, h.built.forall_models_iff_of_told told]
    rfl

/-- The untold symbol has no negative occurrence, so its goal is entailed outright. -/
theorem truthTable_entails_untold_goal :
    let solver := (new {} .truthTable).performAll [.tell "a => b", .tell "a"]
    let goal : Formula := .binary .implies (.symbol ⟨"a"⟩) (.binary .or (.symbol ⟨"b"⟩) (.symbol ⟨"z"⟩))
    (∀ s ∈ goal.signedSymbols false, s ∈ solver.base.vocabulary.symbols) ∧
      (⟨"z"⟩ : Symbol) ∉ solver.base.vocabulary.symbols ∧
      ∀ w, solver.base.SatisfiedBy w → goal.holds w = true := by
  intro solver goal
  have told : ∀ s ∈ goal.signedSymbols false, s ∈ solver.base.vocabulary.symbols := by decide +kernel
  have hone : (solver.queryFormula goal).1 = .ok 1 := by decide +kernel
  obtain ⟨-, n, hn, -, hiff⟩ := truthTable_entails {} [.tell "a => b", .tell "a"] goal
  cases hone.symm.trans hn
  exact ⟨told, by decide +kernel, ((hiff told).1 Nat.one_ne_zero).2⟩

/-- An untold symbol is taken to be false: told `a`, the truth table affirms `~z`,
which fails in the world where everything is true. -/
theorem truthTable_affirms_untold_negation :
    let solver := (new {} .truthTable).performAll [.tell "a"]
    let goal : Formula := .not (.symbol ⟨"z"⟩)
    ¬ ∃ n, (solver.queryFormula goal).1 = .ok n ∧
      (n ≠ 0 ↔ (∃ w, solver.base.SatisfiedBy w) ∧
        ∀ w, solver.base.SatisfiedBy w → goal.holds w = true) := by
  rintro solver goal ⟨n, hn, hiff⟩
  have hone : (solver.queryFormula goal).1 = .ok 1 := by decide +kernel
  cases hone.symm.trans hn
  have hall : solver.base.SatisfiedBy fun _ => true := by decide +kernel
  have hentailed := (hiff.1 Nat.one_ne_zero).2 _ hall
  cases hentailed

end Solver

end Reasoner
