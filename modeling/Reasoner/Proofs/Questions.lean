/-
The ways to ask a solver about a symbol: a verdict, the support of a formula, the support
of a symbol without a search, and the list of proven symbols. A model checker answers all
of them from its rows, a chaining solver from a search. Whatever it learned in a session is
what some search over its present knowledge base found (`Solver.recalls_of_session`), and a
search has an entry for each symbol of the vocabulary, in its order, and no other
(`HornBase.symbols_of_search`). So all ways to ask agree in every reachable state
(`Solver.questions_agree`).
-/
import Reasoner.Proofs.LastSearch
import Reasoner.Proofs.ModelChecker

namespace Reasoner

/-! ## Rows -/

namespace ModelChecker

theorem length_models (m : ModelChecker) : m.models.length = m.worlds.length :=
  List.length_map _

theorem ask_iff_query (m : ModelChecker) (s : Symbol) :
    m.ask s = true ↔ m.worlds ≠ [] ∧ m.query s = m.worlds.length := by
  rw [ask, Bool.and_eq_true, Bool.not_eq_true', List.isEmpty_eq_false_iff, beq_iff_eq]

/-- A symbol is affirmed when there are models and all of them make it true. -/
theorem ask_iff_models (m : ModelChecker) (s : Symbol) :
    m.ask s = true ↔ m.worlds ≠ [] ∧ ∀ a ∈ m.models, a.world s = true := by
  rw [ask_iff_query, query, ← length_models, List.countP_eq_length]

/-- What is proven are the affirmed symbols of the vocabulary, in its order. -/
theorem proven_eq_filter (m : ModelChecker) :
    m.proven = m.base.vocabulary.symbols.filter fun s => m.ask s := by
  rw [proven]
  split
  next hempty => simp [ask, hempty]
  next hne =>
    rw [List.isEmpty_iff] at hne
    refine List.filter_congr fun s _ => ?_
    rw [Bool.eq_iff_iff, ask_iff_models, List.all_eq_true, and_iff_right hne]

theorem mem_proven_iff_ask (m : ModelChecker) (s : Symbol) : s ∈ m.proven ↔ m.ask s = true := by
  rw [proven_eq_filter, List.mem_filter, and_iff_right_iff_imp]
  intro hs
  -- some row makes the symbol true, so it heads a column
  obtain ⟨hne, hall⟩ := (m.ask_iff_models s).1 hs
  obtain ⟨row, hrow⟩ := List.exists_mem_of_ne_nil _ hne
  by_contra hnot
  have htrue := hall _ (List.mem_map_of_mem hrow)
  rw [Assignment.world_of_not_mem hnot] at htrue
  cases htrue

theorem queryFormula_symbol (m : ModelChecker) (s : Symbol) :
    m.queryFormula (.symbol s) ≠ 0 ↔ m.ask s = true := by
  have hquery : m.queryFormula (.symbol s) =
      if m.query s = m.worlds.length then m.query s else 0 := rfl
  rw [hquery, ask_iff_query]
  split
  next hall => simp [hall]
  next hnot => simp [hnot]

theorem query_of_ask {m : ModelChecker} {s : Symbol} (h : m.ask s = true) :
    m.query s = m.worlds.length ∧ 0 < m.worlds.length := by
  rw [ask_iff_query] at h
  exact ⟨h.2, List.length_pos_iff.2 h.1⟩

theorem proven_sublist (m : ModelChecker) : m.proven.Sublist m.base.vocabulary.symbols := by
  rw [proven_eq_filter]
  exact List.filter_sublist

end ModelChecker

/-! ## What a search has entries for -/

namespace HornBase

open Chaining

theorem consequent_mem_vocabulary (h : HornBase) {strategy : Strategy} {c : Clause}
    (hc : c ∈ h.clauses) : c.consequent.symbol ∈ (h.chainer strategy).base.vocabulary.symbols := by
  obtain ⟨s, hs, hsc⟩ := h.mem_clauses.1 hc
  have hmem := (Clause.mem_symbols_of_ofSentence hsc c.consequent.symbol).2 (.inr rfl)
  exact KnowledgeBase.mem_symbols_ofSentences.2 ⟨s, hs, hmem⟩

/-- A search has one entry for each symbol of the vocabulary, in its order. -/
theorem symbols_of_search (h : HornBase) {strategy : Strategy} {target : Formula} {v : Bool}
    {k : Knowledge} (hr : (h.search strategy target).result = .ok (v, k)) :
    k.Indexed ∧ k.symbols = (h.chainer strategy).base.vocabulary.symbols := by
  refine h.search_keeps (P := fun k => k.Indexed ∧
    k.symbols = (h.chainer strategy).base.vocabulary.symbols) ?_ ⟨Knowledge.indexed_ofSymbols _, ?_⟩ hr
  · rintro k k' c s b ⟨hk, hsymbols⟩ hc hfired
    obtain ⟨rfl, hcommits⟩ := commits_of_direct hk hfired
    refine ⟨hcommits.indexed, ?_⟩
    have hmem : c.consequent.symbol ∈ k.symbols := hsymbols ▸ h.consequent_mem_vocabulary hc
    rw [knowledge_of_commits hfired, hk.symbols_commit, Symbol.insertNew, if_pos hmem, hsymbols]
  · rw [Knowledge.symbols_ofSymbols]
    exact Symbol.firstAppearances_of_nodup (KnowledgeBase.built_ofSentences h.sentences).nodup

end HornBase

/-! ## What a chaining solver has learned -/

namespace Chainer

/-- Nothing is learned, or what a search over the present knowledge base found. -/
def Recalls (c : Chainer) : Prop :=
  c.learned = .empty ∨ ∃ target v, (c.search target).result = .ok (v, c.learned)

theorem recalls_entails (c : Chainer) (target : Formula) : (c.entails target).2.Recalls := by
  cases hr : (c.search target).result with
  | error e =>
    left
    simp only [Chainer.entails, hr]
  | ok found =>
    right
    refine ⟨target, found.1, ?_⟩
    simp only [Chainer.entails, hr]
    exact hr

/-- The entries of what was learned are in order, and lie within the vocabulary. -/
structure Orderly (c : Chainer) : Prop where
  indexed : c.learned.Indexed
  sublist : c.learned.symbols.Sublist c.base.vocabulary.symbols
  nodup : c.base.vocabulary.symbols.Nodup

namespace Orderly

variable {c : Chainer} (h : Orderly c)
include h

theorem mem_proven {s : Symbol} : s ∈ c.proven ↔ c.learned.valuation s = .holds :=
  h.indexed.mem_knownAs

theorem query_eq (s : Symbol) : c.query s = if s ∈ c.proven then 1 else 0 := by
  have hholds : (c.learned.valuation s).toBool? = some true ↔ s ∈ c.proven := by
    rw [h.mem_proven]
    exact Truth.toBool?_eq_some
  simp only [Chainer.query, hholds]

theorem proven_sublist : c.proven.Sublist c.base.vocabulary.symbols :=
  (Knowledge.knownAs_sublist _ _).trans h.sublist

end Orderly

/-- A search that answers leaves behind the knowledge its verdict is read from. -/
theorem verdict_iff_learned {c : Chainer} {h : HornBase} {strategy : Strategy} {target : Formula}
    (hsearch : c.search target = h.search strategy target) {v : Bool}
    (hv : (c.entails target).1 = .ok v) :
    v = true ↔ target.value (c.entails target).2.learned.valuation = .holds := by
  have hr := result_of_entails hv
  rw [hsearch] at hr
  exact (h.derivation_of_search hr).2

end Chainer

namespace Solver

theorem recalls_of_session (strategy : Strategy) (session : List Operation) :
    ∃ c, (chainer { strategy }).performAll session = chainer c ∧ c.Recalls := by
  refine performAll_of_perform (P := fun s => ∃ c, s = chainer c ∧ c.Recalls) ?_
    ⟨_, rfl, .inl rfl⟩ session
  rintro _ op ⟨c, rfl, hc⟩
  rcases perform_chainer_cases c op with ⟨-, -, hsame⟩ | ⟨target, -, -, hsearch⟩ | ⟨-, -, c', hc', hl⟩
  · exact ⟨c, hsame, hc⟩
  · exact ⟨_, hsearch, c.recalls_entails target⟩
  · exact ⟨c', hc', .inl hl⟩

/-- **What a reachable chaining solver has learned is in order.** It searches as a Horn
base does. -/
theorem orderly_of_session (config : Config) (strategy : Strategy) (session : List Operation) :
    ∃ (c : Chainer) (h : HornBase), (new config strategy.method).performAll session = chainer c ∧
      (∀ target, c.search target = h.search strategy target) ∧ c.Orderly := by
  obtain ⟨h, learned, hsolver⟩ := chainer_of_session config strategy session
  obtain ⟨c, hc, hrecalls⟩ := recalls_of_session strategy session
  rw [← new_method config, hsolver] at hc
  obtain rfl := chainer.inj hc
  have hnodup := (KnowledgeBase.built_ofSentences h.sentences).nodup
  refine ⟨_, h, hsolver, fun _ => rfl, ?_⟩
  rcases hrecalls with hempty | ⟨target, v, hr⟩
  · refine ⟨?_, ?_, hnodup⟩
    · rw [hempty]
      exact Knowledge.indexed_empty
    · rw [hempty]
      exact List.nil_sublist _
  · have hsearch : (h.search strategy target).result = .ok (v, learned) := hr
    obtain ⟨hindexed, hsymbols⟩ := h.symbols_of_search hsearch
    exact ⟨hindexed, hsymbols ▸ List.Sublist.refl _, hnodup⟩

/-! ## Agreement -/

/-- The ways to ask about a symbol tell the same, and what is proven is listed once and in
the order of the vocabulary. -/
structure Coherent (s : Solver) : Prop where
  queryFormula : ∀ x, (s.ask x).1 = .ok true ↔
    ∃ n, (s.queryFormula (.symbol x)).1 = .ok n ∧ n ≠ 0
  proven : ∀ x v, (s.ask x).1 = .ok v → (v = true ↔ x ∈ (s.ask x).2.proven)
  nodup : s.proven.Nodup
  sublist : s.proven.Sublist s.base.vocabulary.symbols

theorem coherent_modelChecker {m : ModelChecker} (h : m.Enumerated) : (modelChecker m).Coherent where
  queryFormula x := by
    simp [ask, Solver.queryFormula, ← m.queryFormula_symbol]
  proven x v hv := by
    obtain rfl : m.ask x = v := Except.ok.inj hv
    exact (m.mem_proven_iff_ask x).symm
  nodup := m.proven_sublist.nodup h.built.nodup
  sublist := m.proven_sublist

theorem coherent_chainer (config : Config) (strategy : Strategy) (session : List Operation) :
    ((new config strategy.method).performAll session).Coherent := by
  obtain ⟨c, h, hc, hsearch, horderly⟩ := orderly_of_session config strategy session
  have hafter : ∀ x, (c.entails (.symbol x)).2.Orderly := by
    intro x
    obtain ⟨c', -, hc', -, h'⟩ := orderly_of_session config strategy (session ++ [.ask x])
    rw [performAll_append, hc] at hc'
    obtain rfl : (c.entails (.symbol x)).2 = c' := chainer.inj hc'
    exact h'
  rw [hc]
  refine ⟨fun x => ?_, fun x v hv => ?_, horderly.proven_sublist.nodup horderly.nodup,
    horderly.proven_sublist⟩
  · have hask : ((chainer c).ask x).1 = (c.entails (.symbol x)).1 := rfl
    have hquery : ((chainer c).queryFormula (.symbol x)).1 =
        (c.entails (.symbol x)).1.map Bool.toNat := rfl
    rw [hask, hquery]
    cases (c.entails (.symbol x)).1 with
    | error e => simp [Except.map]
    | ok v => cases v <;> simp [Except.map]
  · exact (Chainer.verdict_iff_learned (hsearch _) hv).trans (hafter x).mem_proven.symm

/-- **All ways to ask about a symbol agree**, in every reachable state. A symbol is affirmed
exactly when the formula that it is has support, and then it is listed among the proven
symbols; these are listed once and in the order of the vocabulary. For a chaining solver
the support of a symbol without a search is whether it is listed. For a truth table an
affirmed symbol has the support of all worlds, of which there is one at least. -/
theorem questions_agree (config : Config) (method : Method) (session : List Operation) :
    let solver := (new config method).performAll session
    solver.Coherent ∧
    (method ≠ .truthTable → ∀ x, solver.query x = if x ∈ solver.proven then 1 else 0) ∧
    (method = .truthTable → ∃ worlds, solver.worlds? = some worlds ∧
      ∀ x, (solver.ask x).1 = .ok true → solver.query x = worlds ∧ 0 < worlds) := by
  have hchainer : ∀ strategy : Strategy, ∀ x,
      ((new config strategy.method).performAll session).query x =
        if x ∈ ((new config strategy.method).performAll session).proven then 1 else 0 := by
    intro strategy
    obtain ⟨c, -, hc, -, h⟩ := orderly_of_session config strategy session
    rw [hc]
    exact h.query_eq
  cases method with
  | truthTable =>
    obtain ⟨m, hm, h⟩ := ModelChecker.enumerated_of_session config session
    rw [hm]
    refine ⟨coherent_modelChecker h, fun hne => absurd rfl hne, fun _ => ⟨_, rfl, fun x hx => ?_⟩⟩
    exact ModelChecker.query_of_ask (Except.ok.inj hx)
  | forwardChaining =>
    exact ⟨coherent_chainer config .forward session, fun _ => hchainer .forward, nofun⟩
  | backwardChaining =>
    exact ⟨coherent_chainer config .backward session, fun _ => hchainer .backward, nofun⟩

end Solver

end Reasoner
