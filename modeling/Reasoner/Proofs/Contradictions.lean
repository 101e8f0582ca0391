/-
Contradictions that a search reports. Read every clause as an equivalence, which is how
a search takes it: a body that holds proves the consequent, and one that fails its
opposite. A world in which each body has the truth value of its consequent is closed
under the clauses (`closed_of_equivalences`), and nothing derived can go against a closed
valuation. So a contradiction is met only where there is no such world, and then
saturation meets one as well (`HornBase.contradiction_not_spurious`).

The other way round, a fact is decided from the start. Where both a symbol and its
negation are told, a round that tries both facts cannot end well, whatever happens in
between (`Trial.error_of_opposite_facts`), and no question is looked at before that round
is over (`HornBase.opposite_facts_reported`).
-/
import Reasoner.Proofs.ToldFacts

namespace Reasoner

namespace Chaining

/-! ## Clauses read as equivalences -/

theorem closed_of_equivalences {clauses : List Clause} {w : World}
    (hw : ∀ c ∈ clauses, c.body.holds w = c.consequent.holds w) :
    Closed clauses w.valuation := by
  intro c hc
  have hvalue : c.body.value w.valuation = .ofBool (c.consequent.holds w) := by
    rw [Formula.value_world, hw c hc]
  rw [Clause.implied_of_value hvalue, Truth.ofBool_le, World.valuation, Truth.ofBool_inj,
    Literal.holds]
  cases w c.consequent.symbol <;> cases c.consequent.polarity <;> rfl

theorem Conflicting.known_ne_derived {clauses : List Clause} {e : Contradiction}
    (h : Conflicting clauses e) : e.known ≠ e.derived := by
  obtain ⟨k, c, hk, -, hd⟩ := h
  rw [(conflict_of_contradicts hk.indexed hd).2.1]
  exact Bool.not_ne_self _

/-! ## Facts that oppose each other -/

/-- A trial of two facts about one symbol with different polarities ends in a
contradiction. -/
theorem Trial.error_of_opposite_facts {cs : List Clause} {k : Knowledge} {p : Pass}
    (h : Trial direct k cs p) (hk : k.Indexed) {c d : Clause} (hc : c ∈ cs) (hd : d ∈ cs)
    (hcf : c.isFact = true) (hdf : d.isFact = true)
    (hsymbol : d.consequent.symbol = c.consequent.symbol)
    (hpolarity : d.consequent.polarity ≠ c.consequent.polarity) :
    ∃ e, p.result = .error e := by
  cases hr : p.result with
  | error e => exact ⟨e, rfl⟩
  | ok learned =>
    have hcv := (h.settled_of_isFact hk hr hc hcf).value_of_isFact hcf
    have hdv := (h.settled_of_isFact hk hr hd hdf).value_of_isFact hdf
    rw [hsymbol, hcv, Truth.ofBool_inj] at hdv
    exact absurd hdv.symm hpolarity

/-- A clause about a goal is pulled when the pulling comes past. -/
theorem Backward.mem_pulled_of_goal {goals : List Symbol} {cs : List Clause} {c : Clause}
    (hc : c ∈ cs) (hgoal : c.consequent.symbol ∈ goals) : c ∈ (pull goals cs).pulled := by
  by_contra hleft
  obtain ⟨xs, ys, rfl⟩ := List.append_of_mem hc
  exact (pull_of_left hleft).1 (subset_goals_pull goals xs _ hgoal)

end Chaining

namespace HornBase

open Chaining

/-! ## No contradiction without a cause -/

/-- **A contradiction is never spurious.** If a search reports one, it names two
different values, there is no world in which every body has the truth value of its
consequent, and forward chaining runs into a contradiction as well when it is asked about
a symbol that was never told, and so has to derive all there is. -/
theorem contradiction_not_spurious (h : HornBase) (strategy : Strategy) (target : Formula)
    {e : Contradiction} (hr : (h.search strategy target).result = .error e) :
    e.known ≠ e.derived ∧
    (¬ ∃ w : World, ∀ c ∈ h.clauses, c.body.holds w = c.consequent.holds w) ∧
    ∀ untold : Symbol, (∀ s ∈ h.sentences, untold ∉ s.symbols) →
      ∃ e', (h.search .forward (.symbol untold)).result = .error e' := by
  have hconflict := h.conflicting_of_search hr
  refine ⟨hconflict.known_ne_derived, ?_, fun untold hu => ?_⟩
  · rintro ⟨w, hw⟩
    exact (closed_of_equivalences hw).not_conflicting e hconflict
  · cases hforward : (h.search .forward (.symbol untold)).result with
    | error e' => exact ⟨e', rfl⟩
    | ok found => exact absurd hconflict ((h.saturation_of_untold hu hforward).not_conflicting e)

theorem exists_error {r : Run} (h : r.result.toOption.isNone = true) :
    ∃ e, r.result = .error e := by
  cases hr : r.result with
  | ok found =>
    rw [hr] at h
    cases h
  | error e => exact ⟨e, rfl⟩

/-- The sentences `~a`, `a => b` and `b`, of which the last goes against what the others
say of `b`. -/
def refuted : HornBase where
  sentences := [⟨"~a", .not (.symbol ⟨"a"⟩)⟩,
    ⟨"a => b", .binary .implies (.symbol ⟨"a"⟩) (.symbol ⟨"b"⟩)⟩, ⟨"b", .symbol ⟨"b"⟩⟩]
  clauses := _
  clauses_eq := rfl

/-- Asked about `a` and `b`, backward chaining over `~a; a => b; b` meets a contradiction
that rests on the failed body of the rule. -/
theorem contradiction_not_spurious_refuted :
    ∃ e, (refuted.search .backward
        (.binary .and (.symbol ⟨"a"⟩) (.symbol ⟨"b"⟩))).result = .error e ∧
      e.known ≠ e.derived ∧
      (¬ ∃ w : World, ∀ c ∈ refuted.clauses, c.body.holds w = c.consequent.holds w) ∧
      ∃ e', (refuted.search .forward (.symbol ⟨"z"⟩)).result = .error e' := by
  obtain ⟨e, he⟩ : ∃ e, (refuted.search .backward
      (.binary .and (.symbol ⟨"a"⟩) (.symbol ⟨"b"⟩))).result = .error e :=
    exists_error (by decide +kernel)
  obtain ⟨hne, hworld, hforward⟩ := contradiction_not_spurious refuted .backward _ he
  exact ⟨e, he, hne, hworld, hforward ⟨"z"⟩ (by decide)⟩

/-! ## No opposite facts without a contradiction -/

/-- The clause of a told literal is a fact. -/
theorem exists_fact (h : HornBase) {p : Formula} {l : Literal} (hl : Literal.ofFormula? p = some l)
    (hp : p ∈ h.sentences.map Sentence.formula) :
    ∃ c ∈ h.clauses, c.isFact = true ∧ c.consequent = l := by
  obtain ⟨s, hs, rfl⟩ := List.mem_map.1 hp
  obtain ⟨c, hc, hsc⟩ := h.exists_clause hs
  rcases (Clause.ofSentence_cases hsc).2 with ⟨head, himplies, -⟩ | ⟨hbody, hconsequent⟩
  · rw [himplies] at hl
    cases hl
  · rw [hl] at hconsequent
    exact ⟨c, hc, by simpa [Clause.isFact] using hbody, (Option.some.inj hconsequent).symm⟩

/-- **Opposite facts are always reported.** Where a symbol and its negation are both told,
wherever they stand and whatever else is told, forward chaining reports a contradiction to
every question, and backward chaining to every question that mentions the symbol. -/
theorem opposite_facts_reported (h : HornBase) (s : Symbol)
    (hpos : .symbol s ∈ h.sentences.map Sentence.formula)
    (hneg : .not (.symbol s) ∈ h.sentences.map Sentence.formula) :
    (∀ target : Formula, ∃ e, (h.search .forward target).result = .error e) ∧
    ∀ target : Formula, s ∈ target.symbols →
      ∃ e, (h.search .backward target).result = .error e := by
  obtain ⟨c, hc, hcf, hcs⟩ := h.exists_fact rfl hpos
  obtain ⟨d, hd, hdf, hds⟩ := h.exists_fact rfl hneg
  have hsymbol : d.consequent.symbol = c.consequent.symbol := by rw [hcs, hds]
  have hpolarity : d.consequent.polarity ≠ c.consequent.polarity := by simp [hcs, hds]
  refine ⟨fun target => ?_, fun target hs => ?_⟩
  · have hk := Knowledge.indexed_ofSymbols (h.chainer .forward).base.vocabulary.symbols
    obtain ⟨e, he⟩ := (Forward.trial_pass direct _ h.clauses).error_of_opposite_facts hk hc hd
      hcf hdf hsymbol hpolarity
    refine ⟨e, ?_⟩
    rw [(h.search_tracks .forward target).result, directSearch, Forward.run_of_error he]
    rfl
  · have hk := Knowledge.indexed_ofSymbols (h.chainer .backward).base.vocabulary.symbols
    -- both facts are about a symbol of the question, so the first round pulls them
    have hgoal : c.consequent.symbol ∈ Symbol.firstAppearances target.symbols := by
      rw [hcs]
      exact Symbol.mem_firstAppearances.2 hs
    have hcp := Backward.mem_pulled_of_goal hc hgoal
    have hdp := Backward.mem_pulled_of_goal hd (hsymbol ▸ hgoal)
    obtain ⟨e, he⟩ := (Backward.trial_sweep direct _ ([] ++ _)).error_of_opposite_facts hk hcp hdp
      hcf hdf hsymbol hpolarity
    refine ⟨e, ?_⟩
    rw [(h.search_tracks .backward target).result, directSearch,
      Backward.run_of_error rfl he]
    rfl

/-- The sentences `b`, `a`, `a => b` and `~a`. -/
def opposed : HornBase where
  sentences := [⟨"b", .symbol ⟨"b"⟩⟩, ⟨"a", .symbol ⟨"a"⟩⟩,
    ⟨"a => b", .binary .implies (.symbol ⟨"a"⟩) (.symbol ⟨"b"⟩)⟩, ⟨"~a", .not (.symbol ⟨"a"⟩)⟩]
  clauses := _
  clauses_eq := rfl

/-- Told `b; a; a => b; ~a`, neither search answers the question whether `b` or `a`, which
the first sentence decides. -/
theorem opposite_facts_reported_opposed :
    (∃ e, (opposed.search .forward (.symbol ⟨"b"⟩)).result = .error e) ∧
    ∃ e, (opposed.search .backward
      (.binary .or (.symbol ⟨"b"⟩) (.symbol ⟨"a"⟩))).result = .error e := by
  obtain ⟨hforward, hbackward⟩ := opposite_facts_reported opposed ⟨"a"⟩ (by decide) (by decide)
  exact ⟨hforward _, hbackward _ (by decide)⟩

end HornBase

end Reasoner
