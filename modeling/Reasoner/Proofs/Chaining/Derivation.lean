/-
What can become known from clauses. A clause that is tried waits, commits its
consequent or contradicts what is known, and `direct_cases` says which. Searches
differ in which clauses they try and in which order, but all of them only commit
what some clause implies, so the knowledge they reach is derived (`Derivation`).

Every derived knowledge is below each valuation that is closed under the clauses
(`Derivation.le_closed`), and right in every world that satisfies the clauses
and gives up the consequents of failed bodies (`Derivation.respects`).
-/
import Reasoner.Chaining.Firing
import Reasoner.Proofs.Clause
import Reasoner.Proofs.Knowledge

namespace Reasoner.Chaining

/-! ## Trying one clause -/

/-- `k'` is `k` with `b`, which `c` implies, committed for its consequent. -/
structure Commits (c : Clause) (b : Bool) (k k' : Knowledge) : Prop where
  implied : c.implied k.valuation = .ofBool b
  compatible : k.valuation c.consequent.symbol ≤ .ofBool b
  indexed : k'.Indexed
  valuation_eq : k'.valuation = Function.update k.valuation c.consequent.symbol (.ofBool b)

theorem direct_cases {k : Knowledge} (hk : k.Indexed) (c : Clause) :
    (c.implied k.valuation = .unknown ∧ direct c k = .waits c) ∨
    (∃ b k', Commits c b k k' ∧ direct c k = .commits c.consequent.symbol b k') ∨
    (∃ b, c.implied k.valuation = .ofBool b ∧ k.valuation c.consequent.symbol = .ofBool !b ∧
      direct c k = .contradicts ⟨c.consequent.symbol, !b, b⟩) := by
  rcases (c.implied k.valuation).unknown_or_ofBool with hi | ⟨b, hi⟩
  · refine .inl ⟨hi, ?_⟩
    simp only [direct, Clause.proves_eq, hi, settle, Truth.toBool?]
  · rcases (k.valuation c.consequent.symbol).unknown_or_ofBool with hs | ⟨known, hs⟩
    · obtain ⟨k', hc, hk', hv⟩ := Knowledge.commit_of_unknown hk hs b
      refine .inr (.inl ⟨b, k', ⟨hi, by rw [hs]; exact Truth.unknown_le _, hk', hv⟩, ?_⟩)
      simp only [direct, Clause.proves_eq, hi, settle, Truth.toBool?_ofBool, hc]
    · have hc := Knowledge.commit_of_known hs b
      by_cases hb : known = b
      · subst hb
        refine .inr (.inl ⟨known, k, ⟨hi, le_of_eq hs, hk, ?_⟩, ?_⟩)
        · rw [← hs, Function.update_eq_self]
        · simp only [direct, Clause.proves_eq, hi, settle, Truth.toBool?_ofBool, hc, if_true]
      · have hb' : known = !b := Bool.eq_not.2 hb
        refine .inr (.inr ⟨b, hi, by rw [hs, hb'], ?_⟩)
        simp only [direct, Clause.proves_eq, hi, settle, Truth.toBool?_ofBool, hc, if_neg hb]
        rw [hb']

theorem implied_of_waits {k : Knowledge} (hk : k.Indexed) {c c' : Clause}
    (h : direct c k = .waits c') : c' = c ∧ c.implied k.valuation = .unknown := by
  rcases direct_cases hk c with ⟨hi, hd⟩ | ⟨b, k', -, hd⟩ | ⟨b, -, -, hd⟩
  · rw [hd] at h
    cases h
    exact ⟨rfl, hi⟩
  · rw [hd] at h; cases h
  · rw [hd] at h; cases h

theorem commits_of_direct {k k' : Knowledge} (hk : k.Indexed) {c : Clause} {s : Symbol} {b : Bool}
    (h : direct c k = .commits s b k') : s = c.consequent.symbol ∧ Commits c b k k' := by
  rcases direct_cases hk c with ⟨-, hd⟩ | ⟨b, k', hc, hd⟩ | ⟨b, -, -, hd⟩
  · rw [hd] at h; cases h
  · rw [hd] at h
    cases h
    exact ⟨rfl, hc⟩
  · rw [hd] at h; cases h

theorem knowledge_of_commits {k k' : Knowledge} {c : Clause} {s : Symbol} {b : Bool}
    (h : direct c k = .commits s b k') : k' = (k.commit s b).2 := by
  simp only [direct, Clause.proves_eq, settle] at h
  split at h
  next => cases h
  next =>
    split at h
    next hcommit =>
      cases h
      rw [hcommit]
    next => cases h

/-- A contradiction names the symbol, the value known of it and the other one,
which the clause implies. -/
theorem conflict_of_contradicts {k : Knowledge} (hk : k.Indexed) {c : Clause} {e : Contradiction}
    (h : direct c k = .contradicts e) :
    e.symbol = c.consequent.symbol ∧ e.known = !e.derived ∧
      k.valuation e.symbol = .ofBool e.known ∧ c.implied k.valuation = .ofBool e.derived := by
  rcases direct_cases hk c with ⟨-, hd⟩ | ⟨b, k', -, hd⟩ | ⟨b, hi, hs, hd⟩
  · rw [hd] at h; cases h
  · rw [hd] at h; cases h
  · rw [hd] at h
    cases h
    exact ⟨rfl, rfl, hs, hi⟩

theorem Commits.le {c : Clause} {b : Bool} {k k' : Knowledge} (h : Commits c b k k') :
    k.valuation ≤ k'.valuation := by
  rw [h.valuation_eq, le_update_iff]
  exact ⟨h.compatible, fun _ _ => le_rfl⟩

theorem Commits.valuation_consequent {c : Clause} {b : Bool} {k k' : Knowledge}
    (h : Commits c b k k') : k'.valuation c.consequent.symbol = .ofBool b := by
  rw [h.valuation_eq, Function.update_self]

/-! ## Derived knowledge -/

/-- Knowledge reached from nothing by committing what the clauses imply. -/
inductive Derivation (clauses : List Clause) : Knowledge → Prop where
  | start (symbols : List Symbol) : Derivation clauses (.ofSymbols symbols)
  | commit {k k' : Knowledge} {c : Clause} {s : Symbol} {b : Bool} (before : Derivation clauses k)
      (mem : c ∈ clauses) (fired : direct c k = .commits s b k') : Derivation clauses k'

/-- What some clause implies is known, for every clause. -/
def Closed (clauses : List Clause) (v : Valuation) : Prop :=
  ∀ c ∈ clauses, c.implied v ≤ v c.consequent.symbol

/-- A closed valuation has the consequent of each body that holds, and its opposite
where the body fails. -/
theorem closed_iff {clauses : List Clause} {v : Valuation} :
    Closed clauses v ↔ ∀ c ∈ clauses,
      (c.body.value v = .holds → v c.consequent.symbol = .ofBool c.consequent.polarity) ∧
      (c.body.value v = .fails → v c.consequent.symbol = .ofBool !c.consequent.polarity) := by
  refine forall₂_congr fun c _ => ?_
  rcases (c.body.value v).unknown_or_ofBool with hb | ⟨b, hb⟩
  · rw [Clause.implied_eq_unknown.2 hb, hb]
    simp
  · rw [Clause.implied_of_value hb, hb, Truth.ofBool_le]
    cases b <;> simp [Truth.ofBool]

namespace Derivation

variable {clauses : List Clause} {k : Knowledge}

theorem indexed (h : Derivation clauses k) : k.Indexed := by
  induction h with
  | start symbols => exact Knowledge.indexed_ofSymbols symbols
  | commit _ _ fired ih => exact (commits_of_direct ih fired).2.indexed

/-- A valuation that takes in what each clause implies of known things is above
whatever is derived. -/
theorem le_of_implied_le (h : Derivation clauses k) {v : Valuation}
    (hv : ∀ c ∈ clauses, ∀ j, j ≤ v → j ≤ k.valuation → c.implied j ≤ v c.consequent.symbol) :
    k.valuation ≤ v := by
  induction h with
  | start symbols =>
    intro s
    rw [Knowledge.valuation_ofSymbols]
    exact Truth.unknown_le _
  | @commit k k' c s b before mem fired ih =>
    obtain ⟨-, hc⟩ := commits_of_direct before.indexed fired
    have hk : k.valuation ≤ v := ih fun d hd j hj hjk => hv d hd j hj (hjk.trans hc.le)
    rw [hc.valuation_eq, update_le_iff]
    refine ⟨?_, fun t _ => hk t⟩
    have := hv c mem k.valuation hk hc.le
    rwa [hc.implied] at this

/-- Closed valuations contain all that can be derived. -/
theorem le_closed (h : Derivation clauses k) {v : Valuation} (hv : Closed clauses v) :
    k.valuation ≤ v :=
  h.le_of_implied_le fun c hc _ hj _ => (c.implied_mono hj).trans (hv c hc)

/-- **Derived knowledge is right** in each world that satisfies the clauses and
in which the consequent is false wherever the body is known to fail. -/
theorem respects (h : Derivation clauses k) {w : World}
    (hw : ∀ c ∈ clauses, c.body.holds w = true → c.consequent.holds w = true)
    (hf : ∀ c ∈ clauses, c.body.value k.valuation = .fails → c.consequent.holds w = false) :
    w.Respects k.valuation := by
  rw [World.respects_iff]
  refine h.le_of_implied_le fun c hc j hjw hjk => ?_
  rcases (c.body.value j).unknown_or_ofBool with hb | ⟨b, hb⟩
  · rw [Clause.implied_eq_unknown.2 hb]
    exact Truth.unknown_le _
  · rw [Clause.implied_of_value hb, Truth.ofBool_le, World.valuation, Truth.ofBool_inj]
    have hbw : c.body.holds w = b := Formula.holds_of_value (World.respects_iff.2 hjw) hb
    cases b with
    | true => simpa [Literal.holds] using hw c hc hbw
    | false =>
      have hne := hf c hc (Formula.value_eq_of_le hjk hb)
      rw [Literal.holds, beq_eq_false_iff_ne] at hne
      rw [Bool.false_beq]
      exact Bool.eq_not.2 hne

/-- Only consequents ever become known. -/
theorem exists_consequent (h : Derivation clauses k) {s : Symbol}
    (hs : k.valuation s ≠ .unknown) : ∃ c ∈ clauses, c.consequent.symbol = s := by
  induction h with
  | start symbols => exact absurd (Knowledge.valuation_ofSymbols symbols s) hs
  | @commit k k' c t b before mem fired ih =>
    obtain ⟨-, hc⟩ := commits_of_direct before.indexed fired
    by_cases hcs : s = c.consequent.symbol
    · exact ⟨c, mem, hcs.symm⟩
    · rw [hc.valuation_eq, Function.update_of_ne hcs] at hs
      exact ih hs

end Derivation

end Reasoner.Chaining
