/-
What a chaining solver answers without a search. Such answers come from the last search
alone, and for as long as it stands: until another search, a reset or a batch that is
accepted takes its place (`Solver.supersedes`). `Solver.perform_chainer_cases` says once
what an operation does to a chaining solver; what holds after a whole session follows
by going through its operations. A search that succeeded is reflected to the last entry
as long as it stands, and in every other case nothing is proven
(`Solver.reflects_last_search`).
-/
import Reasoner.Proofs.Retelling

namespace Reasoner

/-- The formula an operation searches for; a text that is no formula starts no search. -/
def Operation.target? : Operation → Option Formula
  | .ask s => some (.symbol s)
  | .queryFormula p => some p
  | .queryText text => (Formula.parse text).toOption
  | .tell _ | .reset | .query _ => none

/-- The method that searches in this direction. -/
def Strategy.method : Strategy → Method
  | .forward => .forwardChaining
  | .backward => .backwardChaining

/-- A solver that answers has learned what its search found. -/
theorem Chainer.result_of_entails {c : Chainer} {target : Formula} {v : Bool}
    (h : (c.entails target).1 = .ok v) :
    (c.search target).result = .ok (v, (c.entails target).2.learned) := by
  cases hr : (c.search target).result with
  | error e => simp [entails, hr] at h
  | ok found =>
    obtain ⟨answer, k⟩ := found
    obtain rfl : answer = v := by simpa [entails, hr] using h
    simp only [entails, hr]

namespace Solver

/-- Whether the operation takes the place of the last search: it searches anew, forgets
all, or takes in a batch. -/
def supersedes (s : Solver) : Operation → Bool
  | .tell batch => (s.tell batch).1 = .ok ()
  | .reset => true
  | op => op.target?.isSome

/-- Whether the last search still stands after a session. -/
def stands (s : Solver) : List Operation → Bool
  | [] => true
  | op :: session => !s.supersedes op && (s.perform op).2.stands session

/-- What is asked without a search is answered from `k`. -/
structure Reflects (s : Solver) (k : Knowledge) : Prop where
  query : ∀ x, s.query x = if k.valuation x = .holds then 1 else 0
  proven : s.proven = k.knownAs true

/-- Nothing is proven. -/
structure Silent (s : Solver) : Prop where
  query : ∀ x, s.query x = 0
  proven : s.proven = []

/-! ## Answers -/

theorem reflects_learned (c : Chainer) : (chainer c).Reflects c.learned := by
  refine ⟨fun x => ?_, rfl⟩
  have hholds : (c.learned.valuation x).toBool? = some true ↔ c.learned.valuation x = .holds :=
    Truth.toBool?_eq_some
  simp only [query, Chainer.query, hholds]

theorem silent_of_unlearned {c : Chainer} (h : c.learned = .empty) : (chainer c).Silent := by
  have hreflects := reflects_learned c
  rw [h] at hreflects
  refine ⟨fun x => ?_, hreflects.proven⟩
  rw [hreflects.query, Knowledge.valuation_empty]
  simp

theorem reflects_entails (c : Chainer) {target : Formula} {v : Bool} {k : Knowledge}
    (h : (c.search target).result = .ok (v, k)) : (chainer (c.entails target).2).Reflects k := by
  have hreflects := reflects_learned (c.entails target).2
  simp only [Chainer.entails, h] at hreflects ⊢
  exact hreflects

theorem silent_entails (c : Chainer) {target : Formula} {e : Contradiction}
    (h : (c.search target).result = .error e) : (chainer (c.entails target).2).Silent := by
  apply silent_of_unlearned
  simp only [Chainer.entails, h]

/-! ## One operation -/

theorem tell_chainer_cases (c : Chainer) (batch : String) :
    ((c.tell batch).1 ≠ .ok () ∧ (c.tell batch).2 = c) ∨
    ((c.tell batch).1 = .ok () ∧ (c.tell batch).2.learned = .empty) := by
  obtain ⟨e, he⟩ | ⟨told, base, clauses, -, -, heq⟩ := c.tell_cases batch
  · rw [he]
    exact .inl ⟨by simp, rfl⟩
  · rw [heq]
    exact .inr ⟨rfl, rfl⟩

/-- An operation that searches does nothing else. -/
theorem perform_of_target {op : Operation} {target : Formula} (h : op.target? = some target)
    (c : Chainer) :
    ((chainer c).perform op).2 = chainer (c.entails target).2 ∧
      ∀ e, ((chainer c).perform op).1 = .error e → (c.entails target).1 = .error e := by
  cases op with
  | tell batch => cases h
  | reset => cases h
  | query s => cases h
  | ask s =>
    cases h
    exact ⟨rfl, fun e he => error_of_map he⟩
  | queryFormula p =>
    cases h
    exact ⟨rfl, fun e he => error_of_map (error_of_map he)⟩
  | queryText text =>
    cases hp : Formula.parse text with
    | error e => simp [Operation.target?, hp, Except.toOption] at h
    | ok p =>
      obtain rfl : p = target := by simpa [Operation.target?, hp, Except.toOption] using h
      have hquery : (chainer c).queryText text = (chainer c).queryFormula p := by
        simp only [queryText, hp]
      rw [perform, hquery]
      exact ⟨rfl, fun e he => error_of_map (error_of_map he)⟩

/-- **What an operation does to a chaining solver**: nothing, as long as the last search
stands; otherwise it searches, or leaves nothing learned. -/
theorem perform_chainer_cases (c : Chainer) (op : Operation) :
    ((chainer c).supersedes op = false ∧ op.target? = none ∧
      ((chainer c).perform op).2 = chainer c) ∨
    (∃ target, op.target? = some target ∧ (chainer c).supersedes op = true ∧
      ((chainer c).perform op).2 = chainer (c.entails target).2) ∨
    ((chainer c).supersedes op = true ∧ op.target? = none ∧
      ∃ c', ((chainer c).perform op).2 = chainer c' ∧ c'.learned = .empty) := by
  cases ht : op.target? with
  | some target =>
    refine .inr (.inl ⟨target, rfl, ?_, (perform_of_target ht c).1⟩)
    cases op <;> simp_all [supersedes, Operation.target?]
  | none =>
    cases op with
    | tell batch =>
      rcases tell_chainer_cases c batch with ⟨hrefused, hsame⟩ | ⟨haccepted, hlearned⟩
      · exact .inl ⟨by simp [supersedes, hrefused], rfl, congrArg chainer hsame⟩
      · exact .inr (.inr ⟨by simp [supersedes, haccepted], rfl, _, rfl, hlearned⟩)
    | reset => exact .inr (.inr ⟨rfl, rfl, _, rfl, rfl⟩)
    | query s => exact .inl ⟨rfl, rfl, rfl⟩
    | ask s => cases ht
    | queryFormula p => cases ht
    | queryText text =>
      refine .inl ⟨by simp [supersedes, ht], rfl, ?_⟩
      cases hp : Formula.parse text with
      | error e => simp [perform, queryText, hp]
      | ok p => simp [Operation.target?, hp, Except.toOption] at ht

/-! ## Sessions -/

theorem performAll_append (s : Solver) (xs ys : List Operation) :
    s.performAll (xs ++ ys) = (s.performAll xs).performAll ys :=
  List.foldl_append

theorem exists_chainer (c : Chainer) (session : List Operation) :
    ∃ c', (chainer c).performAll session = chainer c' := by
  refine performAll_of_perform (P := fun s => ∃ c', s = chainer c') ?_ ⟨c, rfl⟩ session
  rintro _ op ⟨c, rfl⟩
  rcases perform_chainer_cases c op with ⟨-, -, h⟩ | ⟨target, -, -, h⟩ | ⟨-, -, c', h, -⟩
  · exact ⟨_, h⟩
  · exact ⟨_, h⟩
  · exact ⟨_, h⟩

theorem new_method (config : Config) (strategy : Strategy) :
    new config strategy.method = chainer { strategy } := by
  cases strategy <;> rfl

/-- **Every reachable chaining solver is over a Horn base**, with something learned. -/
theorem chainer_of_session (config : Config) (strategy : Strategy) (session : List Operation) :
    ∃ (h : HornBase) (learned : Knowledge),
      (new config strategy.method).performAll session =
        chainer { h.chainer strategy with learned := learned } := by
  have hretold := (retold_new config strategy.method).performAll session
  rw [new_method] at hretold ⊢
  obtain ⟨c, hc⟩ := exists_chainer { strategy } session
  rw [hc, Retold, new_method, tell_chainer, ← HornBase.chainer_empty, Prod.mk.injEq] at hretold
  obtain ⟨h, -, hbase⟩ := HornBase.tell_empty hretold.1
  rw [hbase] at hretold
  refine ⟨h, c.learned, hc.trans (congrArg chainer ?_)⟩
  rw [chainer.inj hretold.2]

/-- As long as the last search stands nothing changes. -/
theorem performAll_of_stands {c : Chainer} {session : List Operation}
    (h : (chainer c).stands session = true) : (chainer c).performAll session = chainer c := by
  induction session with
  | nil => rfl
  | cons op session ih =>
    simp only [stands, Bool.and_eq_true, Bool.not_eq_true'] at h
    rcases perform_chainer_cases c op with ⟨-, -, hsame⟩ | ⟨target, -, hs, -⟩ | ⟨hs, -, -⟩
    · rw [hsame] at h
      exact (congrArg (performAll · session) hsame).trans (ih h.2)
    · rw [hs] at h
      cases h.1
    · rw [hs] at h
      cases h.1

theorem stands_concat (s : Solver) (session : List Operation) (op : Operation) :
    s.stands (session ++ [op]) = (s.stands session && !(s.performAll session).supersedes op) := by
  induction session generalizing s with
  | nil => simp [stands, performAll]
  | cons first session ih =>
    rw [List.cons_append, stands, ih, stands, Bool.and_assoc]
    rfl

/-- Where no search stands, nothing is proven. -/
theorem silent_of_no_search (strategy : Strategy) (session : List Operation)
    (h : ∀ before op after target, session = before ++ op :: after → op.target? = some target →
      ((chainer { strategy }).performAll (before ++ [op])).stands after = false) :
    ((chainer { strategy }).performAll session).Silent := by
  induction session using List.reverseRecOn with
  | nil => exact silent_of_unlearned rfl
  | append_singleton session op ih =>
    obtain ⟨c, hc⟩ := exists_chainer { strategy } session
    have hstep : (chainer { strategy }).performAll (session ++ [op]) = ((chainer c).perform op).2 := by
      rw [performAll_append, hc]
      rfl
    rw [hstep]
    rcases perform_chainer_cases c op with ⟨hs, -, hsame⟩ | ⟨target, ht, -, -⟩ | ⟨-, -, c', hc', hl⟩
    · -- The operation is passed over, so a search that stood before it still stands.
      rw [hsame, ← hc]
      refine ih fun before search after target hsession htarget => ?_
      have hafter := h before search (after ++ [op]) target (by simp [hsession]) htarget
      rw [stands_concat, ← performAll_append, List.append_assoc, List.singleton_append, ← hsession,
        hc, hs] at hafter
      simpa using hafter
    · have hlast := h session op [] target rfl ht
      cases hlast
    · rw [hc']
      exact silent_of_unlearned hl

/-- **The last search is reflected as long as it stands**, and otherwise nothing is
proven. Whatever was performed before, a search that is followed by no other search, no
reset and no accepted batch is what questions without a search are answered from: by its
knowledge if it succeeded, and with nothing if it failed. Where there is no such search
nothing is proven. A batch that is refused and a text that is no formula leave the
solver as it is; a search that fails leaves knowledge base and clauses as they are. -/
theorem reflects_last_search (config : Config) (strategy : Strategy) (session : List Operation) :
    let start := new config strategy.method
    let s := start.performAll session
    (∀ before op after target, session = before ++ op :: after → op.target? = some target →
      (start.performAll (before ++ [op])).stands after = true →
      ∃ c, start.performAll before = chainer c ∧
        (∀ v k, (c.search target).result = .ok (v, k) → s.Reflects k) ∧
        ∀ e, (c.search target).result = .error e → s.Silent) ∧
    ((∀ before op after target, session = before ++ op :: after → op.target? = some target →
      (start.performAll (before ++ [op])).stands after = false) → s.Silent) ∧
    (∀ batch e, (s.tell batch).1 = .error e → (s.tell batch).2 = s) ∧
    (∀ text e, Formula.parse text = .error e → s.queryText text = (.error (.invalidQuery e), s)) ∧
    ∀ op target e, op.target? = some target → (s.perform op).1 = .error e →
      (s.perform op).2.unsearched = s.unsearched ∧ (s.perform op).2.Silent := by
  intro start s
  have hstart : start = chainer { strategy } := new_method config strategy
  refine ⟨fun before op after target hsession htarget hstands => ?_, fun hnone => ?_,
    fun batch e he => ?_, fun text e he => ?_, fun op target e htarget he => ?_⟩
  · obtain ⟨c, hc⟩ := exists_chainer { strategy } before
    rw [← hstart] at hc
    have hsearch : start.performAll (before ++ [op]) = chainer (c.entails target).2 := by
      rw [performAll_append, hc]
      exact (perform_of_target htarget c).1
    have hs : s = chainer (c.entails target).2 := by
      rw [hsearch] at hstands
      rw [← performAll_of_stands hstands, ← hsearch, ← performAll_append, List.append_assoc,
        List.singleton_append, ← hsession]
    rw [hs]
    exact ⟨c, hc, fun v k => reflects_entails c, fun e => silent_entails c⟩
  · rw [hstart] at hnone
    have hsilent := silent_of_no_search strategy session hnone
    rwa [← hstart] at hsilent
  · exact tell_of_rejected (by simp [he])
  · simp only [queryText, he]
  · obtain ⟨c, hc⟩ := exists_chainer { strategy } session
    rw [← hstart] at hc
    have hs : s = chainer c := hc
    rw [hs] at he ⊢
    obtain ⟨hperform, herror⟩ := perform_of_target htarget c
    have hfailed := herror e he
    rw [hperform]
    refine ⟨congrArg chainer (entails_unlearned c target).2, ?_⟩
    cases hr : (c.search target).result with
    | ok found => simp [Chainer.entails, hr] at hfailed
    | error e' => exact silent_entails c hr

/-- A refused batch, a question without a search and a text that is no formula leave the
search for `b` standing. -/
theorem reflects_last_search_standing :
    let session := [.tell "a; a => b", .ask ⟨"b"⟩, .tell "c &", .query ⟨"c"⟩, .queryText "b &"]
    let s := (new {} .backwardChaining).performAll session
    ((new {} .backwardChaining).performAll (session.take 2)).stands (session.drop 2) = true ∧
      ∃ k : Knowledge, k.valuation ⟨"b"⟩ = .holds ∧ s.Reflects k ∧ s.query ⟨"b"⟩ = 1 := by
  intro session s
  have hstands : ((new {} .backwardChaining).performAll (session.take 2)).stands
      (session.drop 2) = true := by decide +kernel
  obtain ⟨c, hc, hok, -⟩ := (reflects_last_search {} .backward session).1 (session.take 1)
    (.ask ⟨"b"⟩) (session.drop 2) (.symbol ⟨"b"⟩) rfl rfl hstands
  obtain rfl : (Chainer.tell { strategy := .backward } "a; a => b").2 = c := chainer.inj hc
  obtain ⟨k, hk, hb⟩ : ∃ k, (Chainer.search (Chainer.tell { strategy := .backward } "a; a => b").2
      (.symbol ⟨"b"⟩)).result = .ok (true, k) ∧ k.valuation ⟨"b"⟩ = .holds :=
    HornBase.exists_result_knowing (by decide +kernel)
  have hreflects : s.Reflects k := hok true k hk
  refine ⟨hstands, k, hb, hreflects, ?_⟩
  rw [hreflects.query, if_pos hb]

end Solver

end Reasoner
