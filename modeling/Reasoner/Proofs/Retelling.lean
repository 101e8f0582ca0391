/-
What a solver knows is what it was told. A text joined from two by a `;` has the
sentences of the first and then those of the second (`Sentence.split_intercalate`), so
telling it is telling the two one after the other, as long as both are accepted
(`Solver.tell_of_split`). Nothing else that can happen to a solver leaves a trace in
what it knows, the last search apart. So a solver after any session is a fresh one
that was told all accepted batches at once (`Solver.performAll_eq_retelling`), and its
knowledge base is what those batches make of an empty one (`Solver.tell_accepted`).
-/
import Reasoner.Proofs.Failure
import Reasoner.Proofs.HornBase

namespace Reasoner

/-! ## Batches -/

namespace Text

theorem splitAt_ne_nil (separator : Char) (cs : List Char) : splitAt separator cs ≠ [] := by
  intro h
  have hlength := length_splitAt separator cs
  simp [h] at hlength

theorem splitAt_append (separator : Char) (xs ys : List Char) :
    splitAt separator (xs ++ separator :: ys) = splitAt separator xs ++ splitAt separator ys := by
  induction xs with
  | nil => simp [splitAt]
  | cons c xs ih =>
    by_cases hc : c = separator
    · simp [splitAt, hc, ih]
    · obtain ⟨part, parts, hparts⟩ := List.exists_cons_of_ne_nil (splitAt_ne_nil separator xs)
      simp [splitAt, hc, ih, hparts]

end Text

namespace Sentence

theorem split_append (a b : String) : split (a ++ ";" ++ b) = split a ++ split b := by
  have hchars : (a ++ ";" ++ b).toList = a.toList ++ ';' :: b.toList := by simp
  simp only [split, Text.trimmedParts, hchars, Text.splitAt_append, List.map_append,
    List.filter_append]

/-- The sentences of joined texts are those of the texts. -/
theorem split_intercalate (texts : List String) :
    split (";".intercalate texts) = texts.flatMap split := by
  induction texts with
  | nil => rfl
  | cons text texts ih =>
    cases texts with
    | nil => simp
    | cons next texts => rw [String.intercalate_cons_cons, split_append, ih, ← List.flatMap_cons]

theorem parseAll_append {xs ys : List String} {as bs : List Sentence} (hx : parseAll xs = .ok as)
    (hy : parseAll ys = .ok bs) : parseAll (xs ++ ys) = .ok (as ++ bs) := by
  induction xs generalizing as with
  | nil =>
    cases hx
    exact hy
  | cons text texts ih =>
    simp only [parseAll, bind_eq_ok, pure_eq_ok] at hx
    obtain ⟨s, hs, rest, hrest, rfl⟩ := hx
    simp only [List.cons_append, parseAll, bind_eq_ok, pure_eq_ok]
    exact ⟨s, hs, rest ++ bs, ih hrest, rfl⟩

end Sentence

/-! ## Telling one batch after the other -/

theorem KnowledgeBase.tell_eq_ok {base base' : KnowledgeBase} {batch : String} {told : List Sentence} :
    base.tell batch = (.ok told, base') ↔
      Sentence.parseAll (Sentence.split batch) = .ok told ∧ base' = told.foldl append base := by
  unfold KnowledgeBase.tell
  split
  next all hall =>
    rw [hall]
    constructor
    · rintro ⟨⟩
      exact ⟨rfl, rfl⟩
    · rintro ⟨⟨⟩, rfl⟩
      rfl
  next e he => simp [he]

theorem KnowledgeBase.sentences_of_tell {base base' : KnowledgeBase} {batch : String}
    {told : List Sentence} (h : base.tell batch = (.ok told, base')) :
    base'.sentences = base.sentences ++ told := by
  rw [(tell_eq_ok.1 h).2, foldl_append]

section Joined

variable {a b joined : String} (hsplit : Sentence.split joined = Sentence.split a ++ Sentence.split b)
include hsplit

theorem KnowledgeBase.tell_of_split {base base' base'' : KnowledgeBase} {told told' : List Sentence}
    (ha : base.tell a = (.ok told, base')) (hb : base'.tell b = (.ok told', base'')) :
    base.tell joined = (.ok (told ++ told'), base'') := by
  rw [tell_eq_ok] at ha hb ⊢
  obtain ⟨ha, rfl⟩ := ha
  obtain ⟨hb, rfl⟩ := hb
  exact ⟨by rw [hsplit, Sentence.parseAll_append ha hb], by rw [List.foldl_append]⟩

theorem ModelChecker.tell_of_split {m : ModelChecker} (ha : (m.tell a).1 = .ok ())
    (hb : ((m.tell a).2.tell b).1 = .ok ()) : m.tell joined = (m.tell a).2.tell b := by
  obtain ⟨e, he⟩ | ⟨told, base, worlds, htell, -, heq⟩ := m.tell_cases a
  · rw [he] at ha
    cases ha
  rw [heq] at hb ⊢
  obtain ⟨e, he⟩ | ⟨told', base', worlds', htell', henum', heq'⟩ :=
    ModelChecker.tell_cases { m with base, worlds } b
  · rw [he] at hb
    cases hb
  have hjoined := KnowledgeBase.tell_of_split hsplit htell htell'
  rw [heq', ModelChecker.tell, hjoined]
  simp only at henum' ⊢
  rw [henum']

theorem Chainer.tell_of_split {c : Chainer} (ha : (c.tell a).1 = .ok ())
    (hb : ((c.tell a).2.tell b).1 = .ok ()) : c.tell joined = (c.tell a).2.tell b := by
  obtain ⟨e, he⟩ | ⟨told, base, clauses, htell, hclauses, heq⟩ := c.tell_cases a
  · rw [he] at ha
    cases ha
  rw [heq] at hb ⊢
  obtain ⟨e, he⟩ | ⟨told', base', clauses', htell', hclauses', heq'⟩ :=
    Chainer.tell_cases { c with base, clauses := c.clauses ++ clauses, learned := .empty } b
  · rw [he] at hb
    cases hb
  have hjoined := KnowledgeBase.tell_of_split hsplit htell htell'
  rw [heq', Chainer.tell, hjoined]
  simp only [Chainer.clausesOf_append hclauses hclauses', List.append_assoc]

/-- **Telling two batches is telling their sentences at once**, if both are accepted. -/
theorem Solver.tell_of_split {s : Solver} (ha : (s.tell a).1 = .ok ())
    (hb : ((s.tell a).2.tell b).1 = .ok ()) : s.tell joined = (s.tell a).2.tell b := by
  cases s with
  | modelChecker m =>
    simp only [tell_modelChecker] at ha hb ⊢
    rw [ModelChecker.tell_of_split hsplit ha hb]
  | chainer c =>
    simp only [tell_chainer] at ha hb ⊢
    rw [Chainer.tell_of_split hsplit ha hb]

end Joined

namespace Solver

/-! ## All but the last search -/

/-- The solver with nothing learned: settings, knowledge base, rows of models and
clauses are kept. -/
def unsearched : Solver → Solver
  | modelChecker m => modelChecker m
  | chainer c => chainer { c with learned := .empty }

theorem base_unsearched (s : Solver) : s.unsearched.base = s.base := by
  cases s <;> rfl

/-- Telling does not look at what was learned. -/
theorem tell_unsearched (s : Solver) (batch : String) :
    s.unsearched.tell batch = ((s.tell batch).1, (s.tell batch).2.unsearched) := by
  cases s with
  | modelChecker m => rfl
  | chainer c =>
    simp only [unsearched, tell_chainer, Chainer.tell]
    split
    next => rfl
    next told base htell => cases Chainer.clausesOf told <;> rfl

theorem reset_unsearched (s : Solver) : s.unsearched.reset = s.reset := by
  cases s <;> rfl

theorem entails_unlearned (c : Chainer) (target : Formula) :
    (Chainer.entails { c with learned := .empty } target).1 = (c.entails target).1 ∧
      { (c.entails target).2 with learned := .empty } = { c with learned := .empty } := by
  have hsearch : Chainer.search { c with learned := .empty } target = c.search target := rfl
  unfold Chainer.entails
  rw [hsearch]
  cases (c.search target).result <;> exact ⟨rfl, rfl⟩

/-- A question is answered whatever was learned before, and changes nothing else. -/
theorem queryFormula_unsearched (s : Solver) (p : Formula) :
    (s.unsearched.queryFormula p).1 = (s.queryFormula p).1 ∧
      (s.queryFormula p).2.unsearched = s.unsearched := by
  cases s with
  | modelChecker m => exact ⟨rfl, rfl⟩
  | chainer c =>
    obtain ⟨hanswer, hstate⟩ := entails_unlearned c p
    exact ⟨congrArg (Except.map Bool.toNat) hanswer, congrArg chainer hstate⟩

theorem ask_unsearched (s : Solver) (symbol : Symbol) :
    (s.unsearched.ask symbol).1 = (s.ask symbol).1 ∧
      (s.ask symbol).2.unsearched = s.unsearched := by
  cases s with
  | modelChecker m => exact ⟨rfl, rfl⟩
  | chainer c =>
    obtain ⟨hanswer, hstate⟩ := entails_unlearned c (.symbol symbol)
    exact ⟨hanswer, congrArg chainer hstate⟩

theorem queryText_unsearched (s : Solver) (text : String) :
    (s.unsearched.queryText text).1 = (s.queryText text).1 ∧
      (s.queryText text).2.unsearched = s.unsearched := by
  unfold queryText
  cases Formula.parse text with
  | ok p => exact queryFormula_unsearched s p
  | error e => exact ⟨rfl, rfl⟩

/-! ## Retelling -/

/-- The batches that count after an operation: an accepted one is added to those
before it, and forgetting drops them all. -/
def remember (s : Solver) (texts : List String) : Operation → List String
  | .tell batch => if (s.tell batch).1 = .ok () then texts ++ [batch] else texts
  | .reset => []
  | _ => texts

/-- The batches accepted in a session since it last forgot, after those before it. -/
def accepted (s : Solver) (texts : List String) : List Operation → List String
  | [] => texts
  | op :: session => (s.perform op).2.accepted (s.remember texts op) session

/-- The solver knows what a fresh one does that is told the texts at once. -/
def Retold (config : Config) (method : Method) (texts : List String) (s : Solver) : Prop :=
  (new config method).tell (";".intercalate texts) = (.ok (), s.unsearched)

theorem retold_new (config : Config) (method : Method) : Retold config method [] (new config method) := by
  have hempty : KnowledgeBase.tell {} "" = (.ok [], {}) := rfl
  cases method with
  | truthTable =>
    have hrows : ModelChecker.enumerate config {} = .ok [0] := by
      change Except.ok (TruthTable.trueRows ⟨[], [], 1, 0⟩) = _
      decide +kernel
    simp only [Retold, new, tell_modelChecker, ModelChecker.tell, String.intercalate_nil, hempty, hrows]
    rfl
  | forwardChaining | backwardChaining =>
    simp only [Retold, new, tell_chainer, Chainer.tell, String.intercalate_nil, hempty]
    rfl

theorem base_new (config : Config) (method : Method) : (new config method).base = {} := by
  cases method <;> rfl

theorem reset_new (config : Config) (method : Method) :
    (new config method).reset = new config method := by
  cases method <;> rfl

/-- A batch is refused and leaves the solver as it was, or the knowledge base takes it in
and a reset still comes back to the same solver. -/
theorem tell_cases (s : Solver) (batch : String) :
    (∃ e, s.tell batch = (.error e, s)) ∨
    ∃ told t, s.tell batch = (.ok (), t) ∧ s.base.tell batch = (.ok told, t.base) ∧
      t.reset = s.reset := by
  cases s with
  | modelChecker m =>
    rw [tell_modelChecker]
    obtain ⟨e, he⟩ | ⟨told, base, worlds, htell, -, heq⟩ := m.tell_cases batch
    · rw [he]
      exact .inl ⟨e, rfl⟩
    · rw [heq]
      exact .inr ⟨told, _, rfl, htell, rfl⟩
  | chainer c =>
    rw [tell_chainer]
    obtain ⟨e, he⟩ | ⟨told, base, clauses, htell, -, heq⟩ := c.tell_cases batch
    · rw [he]
      exact .inl ⟨e, rfl⟩
    · rw [heq]
      exact .inr ⟨told, _, rfl, htell, rfl⟩

theorem reset_tell (s : Solver) (batch : String) : (s.tell batch).2.reset = s.reset := by
  obtain ⟨e, he⟩ | ⟨told, t, ht, -, hreset⟩ := s.tell_cases batch
  · rw [he]
  · rw [ht, hreset]

/-- What a solver accepts, its knowledge base takes in. -/
theorem base_of_tell {s t : Solver} {batch : String} (h : s.tell batch = (.ok (), t)) :
    ∃ told, s.base.tell batch = (.ok told, t.base) := by
  obtain ⟨e, he⟩ | ⟨told, t', ht, htold, -⟩ := s.tell_cases batch
  · rw [he] at h
    cases h
  · rw [ht] at h
    cases h
    exact ⟨told, htold⟩

theorem tell_of_rejected {s : Solver} {batch : String} (h : (s.tell batch).1 ≠ .ok ()) :
    (s.tell batch).2 = s := by
  obtain ⟨e, he⟩ | ⟨told, t, ht, -⟩ := s.tell_cases batch
  · rw [he]
  · rw [ht] at h
    exact absurd rfl h

namespace Retold

variable {config : Config} {method : Method} {texts : List String} {s : Solver}
  (h : Retold config method texts s)
include h

theorem reset_eq : s.reset = new config method := by
  have hreset := reset_tell (new config method) (";".intercalate texts)
  rwa [h, reset_unsearched, reset_new] at hreset

theorem tell {batch : String} (hok : (s.tell batch).1 = .ok ()) :
    Retold config method (texts ++ [batch]) (s.tell batch).2 := by
  have hnext := tell_unsearched s batch
  rw [hok] at hnext
  have hsplit : Sentence.split (";".intercalate (texts ++ [batch])) =
      Sentence.split (";".intercalate texts) ++ Sentence.split batch := by
    simp [Sentence.split_intercalate]
  unfold Retold at h ⊢
  rw [tell_of_split hsplit (by rw [h]) (by rw [h, hnext]), h, hnext]

theorem of_unsearched {t : Solver} (ht : t.unsearched = s.unsearched) :
    Retold config method texts t := by
  rw [Retold, ht]
  exact h

/-- One operation keeps the solver in step with the batches that count. -/
theorem perform (op : Operation) : Retold config method (s.remember texts op) (s.perform op).2 := by
  cases op with
  | tell batch =>
    by_cases hok : (s.tell batch).1 = .ok ()
    · rw [remember, if_pos hok]
      exact h.tell hok
    · rw [remember, if_neg hok]
      exact h.of_unsearched (congrArg unsearched (tell_of_rejected hok))
  | reset =>
    change Retold config method [] s.reset
    rw [h.reset_eq]
    exact retold_new config method
  | query symbol => exact h
  | ask symbol => exact h.of_unsearched (ask_unsearched s symbol).2
  | queryFormula p => exact h.of_unsearched (queryFormula_unsearched s p).2
  | queryText text => exact h.of_unsearched (queryText_unsearched s text).2

theorem performAll (session : List Operation) :
    Retold config method (s.accepted texts session) (s.performAll session) := by
  induction session generalizing s texts with
  | nil => exact h
  | cons op session ih => exact ih (h.perform op)

theorem tell_empty :
    KnowledgeBase.tell {} (";".intercalate texts) = (.ok s.base.sentences, s.base) := by
  obtain ⟨told, htold⟩ := base_of_tell h
  rw [base_unsearched, base_new] at htold
  have hsentences : s.base.sentences = told := KnowledgeBase.sentences_of_tell htold
  rw [hsentences, htold]

end Retold

/-- **The knowledge base is what was accepted.** After any session it is the one that the
batches accepted since the solver last forgot make of an empty one. -/
theorem tell_accepted (config : Config) (method : Method) (session : List Operation) :
    let base := ((new config method).performAll session).base
    KnowledgeBase.tell {} (";".intercalate ((new config method).accepted [] session)) =
      (.ok base.sentences, base) :=
  ((retold_new config method).performAll session).tell_empty

/-- **What a solver knows, and so what it answers, is what it was told.** After any
session the batches accepted since it last forgot, joined to one text, are accepted by
a fresh solver of the same method and settings; that solver then has the same
knowledge base, the same rows of models and the same clauses, and it gives the same
answer or error to every question that starts a search. -/
theorem performAll_eq_retelling (config : Config) (method : Method) (session : List Operation) :
    let solver := (new config method).performAll session
    ∃ fresh, (new config method).tell (";".intercalate ((new config method).accepted [] session)) =
        (.ok (), fresh) ∧
      solver.base = fresh.base ∧ solver.unsearched = fresh ∧
      (∀ symbol, (solver.ask symbol).1 = (fresh.ask symbol).1) ∧
      (∀ p, (solver.queryFormula p).1 = (fresh.queryFormula p).1) ∧
      ∀ text, (solver.queryText text).1 = (fresh.queryText text).1 := by
  intro solver
  have h : Retold config method _ solver := (retold_new config method).performAll session
  refine ⟨solver.unsearched, h, (base_unsearched solver).symm, rfl, ?_, ?_, ?_⟩
  · exact fun symbol => (ask_unsearched solver symbol).1.symm
  · exact fun p => (queryFormula_unsearched solver p).1.symm
  · exact fun text => (queryText_unsearched solver text).1.symm

example : (new {} .backwardChaining).accepted []
    [.tell "a", .reset, .tell "c; ~b", .tell "d &", .ask ⟨"c"⟩, .tell "b || c", .tell "c => d"] =
      ["c; ~b", "c => d"] := by
  decide +kernel

end Solver

end Reasoner
