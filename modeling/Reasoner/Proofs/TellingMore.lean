/-
Telling more. A solver that is not reset forgets no sentence (`Solver.sentences_performAll`).
More sentences leave fewer worlds that satisfy them, so a truth table still affirms what
all worlds made true before. And saturation over more clauses knows all that could be
derived from fewer, so what a search once found to hold still holds in it
(`HornBase.entails_of_subset`). An entailed symbol is therefore kept, for as long as the
method finds no contradiction in what it is told (`Solver.ask_of_telling_more`).
-/
import Reasoner.Proofs.LastSearch
import Reasoner.Proofs.ModelChecker

namespace Reasoner

/-! ## Sentences are kept -/

namespace Solver

theorem sentences_tell (s : Solver) (batch : String) :
    s.base.sentences <+: (s.tell batch).2.base.sentences := by
  obtain ⟨e, he⟩ | ⟨told, t, ht, htold, -⟩ := s.tell_cases batch
  · rw [he]
  · rw [ht]
    exact ⟨told, (KnowledgeBase.sentences_of_tell htold).symm⟩

theorem sentences_of_unsearched {s t : Solver} (h : t.unsearched = s.unsearched) :
    s.base.sentences <+: t.base.sentences := by
  rw [← base_unsearched t, h, base_unsearched]

/-- No operation but a reset drops a sentence. -/
theorem sentences_perform (s : Solver) {op : Operation} (h : op ≠ .reset) :
    s.base.sentences <+: (s.perform op).2.base.sentences := by
  cases op with
  | tell batch => exact s.sentences_tell batch
  | reset => exact absurd rfl h
  | query symbol => exact List.prefix_rfl
  | ask symbol => exact sentences_of_unsearched (s.ask_unsearched symbol).2
  | queryFormula p => exact sentences_of_unsearched (s.queryFormula_unsearched p).2
  | queryText text => exact sentences_of_unsearched (s.queryText_unsearched text).2

theorem sentences_performAll (s : Solver) {session : List Operation} (h : .reset ∉ session) :
    s.base.sentences <+: (s.performAll session).base.sentences := by
  induction session generalizing s with
  | nil => exact List.prefix_rfl
  | cons op session ih =>
    rw [List.mem_cons, not_or] at h
    exact (s.sentences_perform (Ne.symm h.1)).trans (ih (s.perform op).2 h.2)

end Solver

/-! ## Entailment from more sentences -/

theorem ModelChecker.Enumerated.ask_of_subset {m m' : ModelChecker} (h : m.Enumerated)
    (h' : m'.Enumerated) (hsub : m.base.sentences ⊆ m'.base.sentences)
    (hmodel : 0 < m'.worlds.length) {s : Symbol} (hs : m.ask s = true) : m'.ask s = true := by
  have hentailed := ((h.ask_iff s).1 hs).2
  rw [h'.ask_iff]
  refine ⟨h'.worlds_isEmpty.1 ?_, fun w hw => hentailed w ?_⟩
  · rwa [List.isEmpty_eq_false_iff, ← List.length_pos_iff]
  · rw [KnowledgeBase.satisfiedBy_iff] at hw ⊢
    exact fun sentence hmem => hw sentence (hsub hmem)

open Chaining in
/-- What a search found to hold is found again over more clauses, where these saturate. -/
theorem HornBase.entails_of_subset {h h' : HornBase} (hsub : h.sentences ⊆ h'.sentences)
    {k : Knowledge} (hk : Saturation h'.clauses k) {strategy : Strategy} {target : Formula}
    (hentails : ((h.chainer strategy).entails target).1 = .ok true) :
    ((h'.chainer strategy).entails target).1 = .ok true := by
  have hclauses : ∀ c ∈ h.clauses, c ∈ h'.clauses := by
    intro c hc
    obtain ⟨s, hs, hsc⟩ := h.mem_clauses.1 hc
    exact h'.mem_clauses.2 ⟨s, hsub hs, hsc⟩
  obtain ⟨hj, hv⟩ := h.derivation_of_search (Chainer.result_of_entails hentails)
  have hle := (hj.mono hclauses).le_closed hk.closed
  have hholds : target.value k.valuation = .holds := Formula.value_eq_of_le (b := true) hle (hv.1 rfl)
  rw [h'.entails_of_saturation hk, hholds]
  rfl

/-! ## Entailment after more was told -/

namespace Solver

/-- The method finds no contradiction in what it was told: there is a model, or forward
chaining has an answer when it is asked about a symbol that was never told. -/
def Consistent : Solver → Prop
  | modelChecker m => 0 < m.worlds.length
  | chainer c => ∃ untold, untold ∉ c.base.vocabulary.symbols ∧
      ∃ v, (Chainer.entails { c with strategy := .forward } (.symbol untold)).1 = .ok v

open Chaining in
theorem saturation_of_consistent {h : HornBase} {strategy : Strategy} {learned : Knowledge}
    (hc : (chainer { h.chainer strategy with learned := learned }).Consistent) :
    ∃ k, Saturation h.clauses k := by
  obtain ⟨untold, hu, v, hv⟩ := hc
  have hvocabulary : ∀ s ∈ h.sentences, untold ∉ s.symbols := fun s hs hmem =>
    hu (KnowledgeBase.mem_symbols_ofSentences.2 ⟨s, hs, hmem⟩)
  exact ⟨_, h.saturation_of_untold hvocabulary (Chainer.result_of_entails hv)⟩

variable {config : Config} {before after : List Operation} {s : Symbol}

theorem truthTable_ask_append
    (entailed : (((new config .truthTable).performAll before).ask s).1 = .ok true)
    (kept : .reset ∉ after)
    (consistent : ((new config .truthTable).performAll (before ++ after)).Consistent) :
    (((new config .truthTable).performAll (before ++ after)).ask s).1 = .ok true := by
  obtain ⟨m, hm, h⟩ := ModelChecker.enumerated_of_session config before
  obtain ⟨m', hm', h'⟩ := ModelChecker.enumerated_of_session config (before ++ after)
  have hsub := ((new config .truthTable).performAll before).sentences_performAll kept
  rw [← performAll_append, hm', hm] at hsub
  rw [hm'] at consistent ⊢
  rw [hm] at entailed
  exact congrArg Except.ok (h.ask_of_subset h' hsub.subset consistent (Except.ok.inj entailed))

theorem chaining_ask_append (strategy : Strategy)
    (entailed : (((new config strategy.method).performAll before).ask s).1 = .ok true)
    (kept : .reset ∉ after)
    (consistent : ((new config strategy.method).performAll (before ++ after)).Consistent) :
    (((new config strategy.method).performAll (before ++ after)).ask s).1 = .ok true := by
  obtain ⟨h, learned, hc⟩ := chainer_of_session config strategy before
  obtain ⟨h', learned', hc'⟩ := chainer_of_session config strategy (before ++ after)
  have hsub := ((new config strategy.method).performAll before).sentences_performAll kept
  rw [← performAll_append, hc', hc] at hsub
  have hsub' : h.sentences <+: h'.sentences := by
    simpa [base, HornBase.chainer] using hsub
  rw [hc'] at consistent ⊢
  rw [hc] at entailed
  obtain ⟨k, hk⟩ := saturation_of_consistent consistent
  have hask : ∀ (b : HornBase) (l : Knowledge),
      ((chainer { b.chainer strategy with learned := l }).ask s).1 =
        ((b.chainer strategy).entails (.symbol s)).1 :=
    fun b l => ((chainer { b.chainer strategy with learned := l }).ask_unsearched s).1.symm
  rw [hask] at entailed ⊢
  exact HornBase.entails_of_subset hsub'.subset hk entailed

/-- **Telling more never retracts an entailed symbol.** A symbol that is entailed after
some session is entailed after every longer one, whatever else was told and asked in
between, if nothing was reset and the method finds no contradiction in what it was
told by then. -/
theorem ask_of_telling_more (config : Config) (method : Method) (before after : List Operation)
    (s : Symbol) (entailed : (((new config method).performAll before).ask s).1 = .ok true)
    (kept : .reset ∉ after)
    (consistent : ((new config method).performAll (before ++ after)).Consistent) :
    (((new config method).performAll (before ++ after)).ask s).1 = .ok true := by
  cases method with
  | truthTable => exact truthTable_ask_append entailed kept consistent
  | forwardChaining => exact chaining_ask_append .forward entailed kept consistent
  | backwardChaining => exact chaining_ask_append .backward entailed kept consistent

/-- The search for `b` takes another course once the fact `b` and a rule for `a` are told. -/
theorem ask_of_telling_more_backward :
    let before : List Operation := [.tell "a; a => b"]
    let after : List Operation := [.ask ⟨"b"⟩, .tell "~c => a; b"]
    (((new {} .backwardChaining).performAll before).ask ⟨"b"⟩).1 = .ok true ∧
      ((new {} .backwardChaining).performAll (before ++ after)).Consistent ∧
      (((new {} .backwardChaining).performAll (before ++ after)).ask ⟨"b"⟩).1 = .ok true := by
  intro before after
  have entailed : (((new {} .backwardChaining).performAll before).ask ⟨"b"⟩).1 = .ok true := by
    decide +kernel
  have consistent : ((new {} .backwardChaining).performAll (before ++ after)).Consistent :=
    ⟨⟨"z"⟩, by decide +kernel, false, by decide +kernel⟩
  exact ⟨entailed, consistent,
    ask_of_telling_more {} .backwardChaining before after ⟨"b"⟩ entailed (by simp [after]) consistent⟩

end Solver

end Reasoner
