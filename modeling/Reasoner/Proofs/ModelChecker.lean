/-
Model checking counts models. A choice gives each symbol of the vocabulary a truth
value, and the models of a knowledge base are the choices that satisfy it
(`KnowledgeBase.models`). A model checker keeps the rows of the models of what it
was told (`ModelChecker.Enumerated`); every operation preserves this, so the rows
of every reachable model checker are the models, each once, and its answers are
counts of models (`ModelChecker.reachable_counts_models`).
-/
import Mathlib.Data.Fintype.Pi
import Mathlib.Data.Fintype.Sets
import Reasoner.Proofs.Assignment
import Reasoner.Proofs.KnowledgeBase
import Reasoner.Proofs.Retelling
import Reasoner.Proofs.TruthTable

namespace Reasoner

/-! ## The models of a knowledge base -/

namespace KnowledgeBase

instance (base : KnowledgeBase) (w : World) : Decidable (base.SatisfiedBy w) :=
  inferInstanceAs (Decidable (∀ p ∈ base.formulas, p.holds w = true))

/-- A truth value for every symbol of the vocabulary. -/
abbrev Choice (base : KnowledgeBase) : Type :=
  {s // s ∈ base.vocabulary.symbols} → Bool

/-- The world of a choice: false outside the vocabulary. -/
def Choice.world {base : KnowledgeBase} (v : base.Choice) : World := fun s =>
  if h : s ∈ base.vocabulary.symbols then v ⟨s, h⟩ else false

/-- The choices that satisfy every told sentence. -/
def models (base : KnowledgeBase) : Finset base.Choice :=
  Finset.univ.filter fun v => base.SatisfiedBy v.world

/-- What a world chooses for the vocabulary. -/
def choiceOf (base : KnowledgeBase) (w : World) : base.Choice := fun s => w s

variable {base : KnowledgeBase}

@[simp] theorem mem_models {v : base.Choice} : v ∈ base.models ↔ base.SatisfiedBy v.world := by
  simp [models]

@[simp] theorem choiceOf_world (v : base.Choice) : base.choiceOf v.world = v := by
  funext s
  simp [choiceOf, Choice.world, s.2]

theorem world_choiceOf {w : World} {s : Symbol} (h : s ∈ base.vocabulary.symbols) :
    (base.choiceOf w).world s = w s := by
  simp [Choice.world, choiceOf, h]

theorem Choice.world_of_not_mem {v : base.Choice} {s : Symbol} (h : s ∉ base.vocabulary.symbols) :
    v.world s = false := by
  simp [Choice.world, h]

theorem Built.satisfiedBy_choiceOf (h : base.Built) {w : World} :
    base.SatisfiedBy (base.choiceOf w).world ↔ base.SatisfiedBy w :=
  satisfiedBy_congr h fun _ hs => world_choiceOf hs

/-- Models decide for all worlds what a symbol of the vocabulary is; a symbol
outside it is false in every model, and forced in no world. -/
theorem Built.entails_symbol_iff (h : base.Built) (s : Symbol) :
    (∀ v ∈ base.models, v.world s = true) ↔ ∀ w, base.SatisfiedBy w → w s = true := by
  constructor
  · intro hall w hw
    have hv := hall (base.choiceOf w) (mem_models.2 (h.satisfiedBy_choiceOf.2 hw))
    by_cases hs : s ∈ base.vocabulary.symbols
    · rwa [world_choiceOf hs] at hv
    · rw [Choice.world_of_not_mem hs] at hv
      cases hv
  · intro hall v hv
    exact hall v.world (mem_models.1 hv)

end KnowledgeBase

namespace ModelChecker

/-! ## The invariant -/

/-- The worlds kept are those of a truth table over what was told. -/
structure Enumerated (m : ModelChecker) : Prop where
  built : m.base.Built
  exists_table : ∃ table, TruthTable.ofColumns? m.base.vocabulary.symbols m.base.formulas = some table ∧
    m.worlds = table.trueRows

theorem enumerated_new (config : Config) : Enumerated { config } where
  built := KnowledgeBase.built_empty
  exists_table := by
    refine ⟨_, rfl, ?_⟩
    change [0] = TruthTable.trueRows ⟨[], [], 1, 0⟩
    decide +kernel

theorem Enumerated.tell {m : ModelChecker} (h : m.Enumerated) (batch : String) :
    (m.tell batch).2.Enumerated := by
  obtain ⟨e, he⟩ | ⟨told, base, worlds, htell, henum, heq⟩ := m.tell_cases batch
  · rw [he]
    exact h
  · rw [heq]
    have hbase := h.built.tell htell
    refine ⟨hbase ▸ KnowledgeBase.built_ofSentences _, ?_⟩
    simp only [enumerate] at henum
    split at henum
    next => cases henum
    next =>
      split at henum
      next table htable =>
        cases henum
        exact ⟨table, htable, rfl⟩
      next => cases henum

/-- **Every reachable model checker has enumerated what it was told.** -/
theorem enumerated_of_session (config : Config) (session : List Operation) :
    ∃ m, (Solver.new config .truthTable).performAll session = .modelChecker m ∧ m.Enumerated := by
  refine Solver.performAll_of_perform (P := fun s => ∃ m, s = .modelChecker m ∧ Enumerated m) ?_
    ⟨_, rfl, enumerated_new config⟩ session
  rintro _ op ⟨m, rfl, h⟩
  obtain ⟨m', hm', rfl | rfl | ⟨batch, rfl⟩⟩ := Solver.perform_modelChecker m op
  · exact ⟨_, hm', h⟩
  · exact ⟨_, hm', enumerated_new m.config⟩
  · exact ⟨_, hm', h.tell batch⟩

/-! ## Rows and models -/

/-- The choices that the kept rows stand for. -/
def choices (m : ModelChecker) : List m.base.Choice :=
  m.models.map fun a => m.base.choiceOf a.world

namespace Enumerated

variable {m : ModelChecker} (h : m.Enumerated)
include h

theorem length_lt : m.base.vocabulary.symbols.length < 64 := by
  obtain ⟨table, htable, -⟩ := h.exists_table
  exact (TruthTable.ofColumns?_eq_some htable).1

theorem mem_worlds {row : UInt64} :
    row ∈ m.worlds ↔ row.toNat < 2 ^ m.base.vocabulary.symbols.length ∧
      m.base.SatisfiedBy (Assignment.world ⟨m.base.vocabulary.symbols, row⟩) := by
  obtain ⟨table, htable, hworlds⟩ := h.exists_table
  rw [hworlds]
  exact TruthTable.mem_trueRows_ofColumns? htable

theorem pairwise_worlds : m.worlds.Pairwise (· < ·) := by
  obtain ⟨table, -, hworlds⟩ := h.exists_table
  rw [hworlds]
  exact table.pairwise_trueRows

/-- Each model stands in one kept row. -/
theorem nodup_choices : m.choices.Nodup := by
  rw [choices, models, List.map_map]
  refine List.Nodup.map_on ?_ (h.pairwise_worlds.imp UInt64.ne_of_lt)
  intro r hr r' hr' heq
  refine row_ext h.built.nodup h.length_lt (h.mem_worlds.1 hr).1 (h.mem_worlds.1 hr').1 fun s hs => ?_
  exact congrFun heq ⟨s, hs⟩

omit h in
theorem world_choiceOf_of_mem_models {a : Assignment} (ha : a ∈ m.models) :
    (m.base.choiceOf a.world).world = a.world := by
  obtain ⟨row, -, rfl⟩ := List.mem_map.1 ha
  funext s
  by_cases hs : s ∈ m.base.vocabulary.symbols
  · exact KnowledgeBase.world_choiceOf hs
  · rw [KnowledgeBase.Choice.world_of_not_mem hs, Assignment.world_of_not_mem hs]

/-- **The kept rows are the models.** -/
theorem mem_choices {v : m.base.Choice} : v ∈ m.choices ↔ v ∈ m.base.models := by
  rw [choices, models, List.map_map, List.mem_map, KnowledgeBase.mem_models]
  constructor
  · rintro ⟨row, hrow, rfl⟩
    exact h.built.satisfiedBy_choiceOf.2 (h.mem_worlds.1 hrow).2
  · intro hv
    have hrow : ∀ s ∈ m.base.vocabulary.symbols,
        Assignment.world ⟨m.base.vocabulary.symbols, rowOf m.base.vocabulary.symbols v.world⟩ s =
          v.world s := fun s hs => world_rowOf h.built.nodup h.length_lt v.world hs
    refine ⟨rowOf m.base.vocabulary.symbols v.world, h.mem_worlds.2 ⟨toNat_rowOf_lt h.length_lt _, ?_⟩, ?_⟩
    · exact (KnowledgeBase.satisfiedBy_congr h.built hrow).2 hv
    · funext s
      exact (hrow s s.2).trans (congrFun (KnowledgeBase.choiceOf_world v) s)

/-- Counting kept rows is counting models. -/
theorem countP_models (q : World → Bool) :
    m.models.countP (fun a => q a.world) = (m.base.models.filter fun v => q v.world = true).card := by
  have hfilter : m.base.models.filter (fun v => q v.world = true) =
      (m.choices.filter fun v => q v.world).toFinset := by
    ext v
    rw [Finset.mem_filter, List.mem_toFinset, List.mem_filter, h.mem_choices]
  rw [hfilter, List.toFinset_card_of_nodup (h.nodup_choices.filter _), ← List.countP_eq_length_filter,
    choices, List.countP_map]
  refine List.countP_congr fun a ha => ?_
  rw [Function.comp_apply, world_choiceOf_of_mem_models ha]

theorem length_worlds : m.worlds.length = m.base.models.card := by
  have := h.countP_models fun _ => true
  simpa [models] using this

theorem query_eq (s : Symbol) :
    m.query s = (m.base.models.filter fun v => v.world s = true).card :=
  h.countP_models fun w => w s

/-- All kept rows satisfy what all models satisfy. -/
theorem card_filter_eq_length_iff (q : World → Bool) :
    (m.base.models.filter fun v => q v.world = true).card = m.worlds.length ↔
      ∀ v ∈ m.base.models, q v.world = true := by
  rw [h.length_worlds, Finset.card_filter_eq_iff]

theorem queryFormula_eq (p : Formula) :
    m.queryFormula p =
      if ∀ v ∈ m.base.models, p.holds v.world = true then m.worlds.length else 0 := by
  simp only [queryFormula, h.countP_models fun w => p.holds w,
    h.card_filter_eq_length_iff fun w => p.holds w]
  split
  next hall => exact (h.card_filter_eq_length_iff fun w => p.holds w).2 hall
  next => rfl

theorem worlds_isEmpty : m.worlds.isEmpty = false ↔ ∃ w, m.base.SatisfiedBy w := by
  rw [← Bool.not_eq_true, List.isEmpty_iff_length_eq_zero, h.length_worlds, Finset.card_eq_zero,
    ← Ne, ← Finset.nonempty_iff_ne_empty]
  constructor
  · rintro ⟨v, hv⟩
    exact ⟨v.world, KnowledgeBase.mem_models.1 hv⟩
  · rintro ⟨w, hw⟩
    exact ⟨m.base.choiceOf w, KnowledgeBase.mem_models.2 (h.built.satisfiedBy_choiceOf.2 hw)⟩

/-- A formula has support when there are models and it holds in all of them. -/
theorem queryFormula_ne_zero (p : Formula) :
    m.queryFormula p ≠ 0 ↔
      (∃ w, m.base.SatisfiedBy w) ∧ ∀ v ∈ m.base.models, p.holds v.world = true := by
  rw [h.queryFormula_eq, ← h.worlds_isEmpty, ← Bool.not_eq_true, List.isEmpty_iff_length_eq_zero]
  split
  next hall => exact (and_iff_left hall).symm
  next hnot => exact iff_of_false (fun hne => hne rfl) fun hand => hnot hand.2

/-- **A symbol is entailed** when there is a model and every world that satisfies
what was told makes it true. -/
theorem ask_iff (s : Symbol) :
    m.ask s = true ↔ (∃ w, m.base.SatisfiedBy w) ∧ ∀ w, m.base.SatisfiedBy w → w s = true := by
  rw [ask, Bool.and_eq_true, Bool.not_eq_true', h.worlds_isEmpty, beq_iff_eq, h.query_eq,
    h.card_filter_eq_length_iff fun w => w s, h.built.entails_symbol_iff]

end Enumerated

/-- **Model checking is correct in every reachable state.** After any session what was
told is what the batches accepted since the last reset make of an empty knowledge base.
The kept rows are the row numbers, in increasing order, of the assignments that satisfy
all that was told, so there are as many as models; a symbol's support is the number
of models in which it is true; a formula's is the number of models if it holds in
all of them and zero otherwise; and the symbols entailed are those true in every
world, of which there must be one, that satisfies what was told. -/
theorem reachable_counts_models (config : Config) (session : List Operation) :
    ∃ m, (Solver.new config .truthTable).performAll session = .modelChecker m ∧
      KnowledgeBase.tell {} (";".intercalate ((Solver.new config .truthTable).accepted [] session)) =
        (.ok m.base.sentences, m.base) ∧
      m.worlds.Pairwise (· < ·) ∧
      (∀ row, row ∈ m.worlds ↔ row.toNat < 2 ^ m.base.vocabulary.symbols.length ∧
        m.base.SatisfiedBy (Assignment.world ⟨m.base.vocabulary.symbols, row⟩)) ∧
      m.worlds.length = m.base.models.card ∧
      (∀ s, m.query s = (m.base.models.filter fun v => v.world s = true).card) ∧
      (∀ p, m.queryFormula p =
        if ∀ v ∈ m.base.models, p.holds v.world = true then m.worlds.length else 0) ∧
      ∀ s, m.ask s = true ↔
        (∃ w, m.base.SatisfiedBy w) ∧ ∀ w, m.base.SatisfiedBy w → w s = true := by
  obtain ⟨m, hm, h⟩ := enumerated_of_session config session
  have htold := Solver.tell_accepted config .truthTable session
  rw [hm] at htold
  exact ⟨m, hm, htold, h.pairwise_worlds, fun _ => h.mem_worlds, h.length_worlds, h.query_eq,
    h.queryFormula_eq, h.ask_iff⟩

end ModelChecker

end Reasoner
