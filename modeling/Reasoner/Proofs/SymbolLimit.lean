/-
The limit on symbols. A model checker refuses a batch for two reasons: the vocabulary would
grow past the configured limit, or its truth table would have more rows than 64 bits can
count. It says the same in both cases, that there are too many symbols for the limit
(`enumerate_eq_error_iff`), and it stays as it was. So below 64 symbols a refusal names a
limit that is exceeded, while from 64 symbols on the limit it names need not be.
-/
import Reasoner.Proofs.ModelChecker

namespace Reasoner.ModelChecker

/-- When there is no truth table over a knowledge base, and what is said then. -/
theorem enumerate_eq_error_iff {config : Config} {base : KnowledgeBase} {e : SolverError} :
    enumerate config base = .error e ↔
      e = .tooManySymbols base.vocabulary.size config.symbolLimit ∧
        (config.symbolLimit < base.vocabulary.size ∨ 64 ≤ base.vocabulary.size) := by
  simp only [Vocabulary.size]
  by_cases hlimit : config.symbolLimit < base.vocabulary.symbols.length
  · have hrefused : enumerate config base =
        .error (.tooManySymbols base.vocabulary.symbols.length config.symbolLimit) := if_pos hlimit
    simp [hrefused, hlimit, eq_comm]
  · cases htable : TruthTable.ofColumns? base.vocabulary.symbols base.formulas with
    | none =>
      have hmany : 64 ≤ base.vocabulary.symbols.length := TruthTable.ofColumns?_eq_none_iff.1 htable
      have hrefused : enumerate config base =
          .error (.tooManySymbols base.vocabulary.symbols.length config.symbolLimit) := by
        rw [enumerate, if_neg hlimit, htable]
      simp [hrefused, hmany, eq_comm]
    | some table =>
      have hfew : base.vocabulary.symbols.length < 64 := (TruthTable.ofColumns?_eq_some htable).1
      have hrows : enumerate config base = .ok table.trueRows := by
        rw [enumerate, if_neg hlimit, htable]
      simp [hrows, hlimit, hfew]

/-- Once a batch has been read, only its symbols can stand in its way. -/
theorem tell_eq_error_iff {m : ModelChecker} {batch : String} {told : List Sentence}
    {base : KnowledgeBase} (hread : m.base.tell batch = (.ok told, base)) {e : SolverError} :
    (m.tell batch).1 = .error e ↔ enumerate m.config base = .error e := by
  rw [tell, hread]
  simp only
  cases enumerate m.config base with
  | error e' => simp
  | ok worlds => simp

theorem tell_of_error {m : ModelChecker} {batch : String} {e : SolverError}
    (h : (m.tell batch).1 = .error e) : (m.tell batch).2 = m := by
  obtain ⟨e', he⟩ | ⟨told, base, worlds, -, -, heq⟩ := m.tell_cases batch
  · rw [he]
  · rw [heq] at h
    cases h

/-- The settings never change. -/
theorem config_of_session (config : Config) (session : List Operation) :
    ∃ m, (Solver.new config .truthTable).performAll session = .modelChecker m ∧
      m.config = config := by
  refine Solver.performAll_of_perform
    (P := fun s => ∃ m, s = .modelChecker m ∧ m.config = config) ?_ ⟨_, rfl, rfl⟩ session
  rintro _ op ⟨m, rfl, h⟩
  obtain ⟨m', hm', rfl | rfl | ⟨batch, rfl⟩⟩ := Solver.perform_modelChecker m op
  · exact ⟨_, hm', h⟩
  · exact ⟨_, hm', h⟩
  · refine ⟨_, hm', ?_⟩
    obtain ⟨e, he⟩ | ⟨told, base, worlds, -, -, heq⟩ := m.tell_cases batch
    · rw [he, h]
    · rw [heq, h]

/-- **When a batch has too many symbols.** After any session, a batch that can be read is
refused when the vocabulary with its symbols has more of them than the limit, or 64 or more,
and in no other case. The refusal tells the size of that vocabulary and the configured limit,
and leaves the knowledge base and the rows of the models as they were. -/
theorem too_many_symbols_iff (config : Config) (session : List Operation) :
    ∃ m, (Solver.new config .truthTable).performAll session = .modelChecker m ∧
      ∀ batch told base, m.base.tell batch = (.ok told, base) →
        ∀ e, ((m.tell batch).1 = .error e ↔
            e = .tooManySymbols base.vocabulary.size config.symbolLimit ∧
              (config.symbolLimit < base.vocabulary.size ∨ 64 ≤ base.vocabulary.size)) ∧
          ((m.tell batch).1 = .error e → (m.tell batch).2 = m) := by
  obtain ⟨m, hm, hconfig⟩ := config_of_session config session
  refine ⟨m, hm, fun batch told base hread e => ⟨?_, tell_of_error⟩⟩
  rw [tell_eq_error_iff hread, enumerate_eq_error_iff, hconfig]

/-- With a limit of one symbol, `b` is refused after `a`, and nothing changes. -/
theorem too_many_symbols_iff_second :
    ∃ m, (Solver.new { symbolLimit := 1 } .truthTable).performAll [.tell "a"] = .modelChecker m ∧
      (m.base.tell "b").2.vocabulary.size = 2 ∧ (m.tell "b").1 = .error (.tooManySymbols 2 1) ∧
      (m.tell "b").2 = m := by
  obtain ⟨m, hm, h⟩ := too_many_symbols_iff { symbolLimit := 1 } [.tell "a"]
  let a : Sentence := ⟨"a", .symbol ⟨"a"⟩⟩
  let b : Sentence := ⟨"b", .symbol ⟨"b"⟩⟩
  have hbase : m.base = .ofSentences [a] := by
    have htold : Solver.base (.modelChecker m) = .ofSentences [a] := by
      rw [← hm]
      decide +kernel
    exact htold
  have hread : m.base.tell "b" = (.ok [b], .ofSentences [a, b]) := by
    rw [hbase]
    decide +kernel
  obtain ⟨hiff, hsame⟩ := h "b" [b] (.ofSentences [a, b]) hread (.tooManySymbols 2 1)
  have hrefused : (m.tell "b").1 = .error (.tooManySymbols 2 1) :=
    hiff.2 ⟨rfl, .inl (by decide)⟩
  exact ⟨m, hm, by rw [hread]; rfl, hrefused, hsame hrefused⟩

/-- **A limit can be blamed that is not exceeded**: with a limit of 64, a batch of 64 symbols
is refused. -/
theorem limit_blamed_unreached :
    let solver := Solver.new { symbolLimit := 64 } .truthTable
    let batch := "0;1;2;3;4;5;6;7;8;9;A;B;C;D;E;F;G;H;I;J;K;L;M;N;O;P;Q;R;S;T;U;V;W;X;Y;Z;" ++
      "a;b;c;d;e;f;g;h;i;j;k;l;m;n;o;p;q;r;s;t;u;v;w;x;y;z;+;-"
    (solver.base.tell batch).2.vocabulary.size = 64 ∧
      (solver.tell batch).1 = .error (.tooManySymbols 64 64) ∧
      (SolverError.tooManySymbols 64 64).message =
        "truth table over 64 symbols exceeds the limit of 64" := by
  decide +kernel

end Reasoner.ModelChecker
