/-
The meaning of clauses. A sentence makes a clause when it is a literal or an implication
whose right side is one, and in no other case (`Clause.ofSentence_eq_ok_iff`); the clause
then says what the sentence says (`Clause.holds_formula`). A search goes on to rewrite the
body by what it has come to know, again and again. In a world that respects all of this
the clause still says what its sentence says, since simplification keeps the meaning of
the body (`Formula.holds_simplifyAll`) and touches nothing else (`Clause.simplifyAll_eq`).
-/
import Reasoner.Proofs.Clause
import Reasoner.Proofs.NormalForm

namespace Reasoner

namespace Literal

/-- A literal as a formula. -/
def formula (l : Literal) : Formula :=
  if l.polarity then .symbol l.symbol else .not (.symbol l.symbol)

theorem ofFormula?_formula (l : Literal) : ofFormula? l.formula = some l := by
  obtain ⟨s, polarity⟩ := l
  cases polarity <;> rfl

theorem ofFormula?_eq_some_iff {p : Formula} {l : Literal} :
    ofFormula? p = some l ↔ p = l.formula := by
  constructor
  · intro h
    unfold ofFormula? at h
    split at h
    · cases h; rfl
    · cases h; rfl
    · cases h
  · rintro rfl
    exact ofFormula?_formula l

end Literal

/-- The formula simplified under one valuation after the other means the same in the
worlds that respect all of them. -/
theorem Formula.holds_simplifyAll {ks : List Valuation} {w : World}
    (hw : ∀ k ∈ ks, w.Respects k) (p : Formula) : (p.simplifyAll ks).holds w = p.holds w := by
  induction ks generalizing p with
  | nil => rfl
  | cons k ks ih =>
    have hfirst : (p.simplify k).holds w = p.holds w := holds_simplify (hw k (.head _)) p
    have hrest := ih (fun j hj => hw j (.tail _ hj)) (p.simplify k)
    rw [simplifyAll, List.foldl_cons, ← simplifyAll, hrest, hfirst]

namespace Clause

/-! ## The sentence of a clause -/

/-- What a clause says: its body implies its consequent. -/
def formula (c : Clause) : Formula :=
  .binary .implies c.body c.consequent.formula

theorem parts_implies (body : Formula) (l : Literal) :
    parts (.binary .implies body l.formula) = (body, some l) := by
  rw [parts, l.ofFormula?_formula]

theorem parts_literal (l : Literal) : parts l.formula = (.verum, some l) := by
  obtain ⟨s, polarity⟩ := l
  cases polarity <;> rfl

/-- **The sentences that make a clause**, and the clause each of them makes: an
implication with a literal on its right, or a literal, whose body is the true constant. -/
theorem ofSentence_eq_ok_iff {s : Sentence} {c : Clause} :
    ofSentence s = .ok c ↔
      c.source = s ∧
        (s.formula = c.formula ∨ c.body = .verum ∧ s.formula = c.consequent.formula) := by
  constructor
  · intro h
    obtain ⟨hsource, ⟨head, hs, hl⟩ | ⟨hbody, hl⟩⟩ := ofSentence_cases h
    · rw [Literal.ofFormula?_eq_some_iff] at hl
      exact ⟨hsource, .inl (by rw [hs, hl, formula])⟩
    · exact ⟨hsource, .inr ⟨hbody, Literal.ofFormula?_eq_some_iff.1 hl⟩⟩
  · obtain ⟨source, body, l⟩ := c
    rintro ⟨rfl, hs | ⟨rfl, hs⟩⟩
    · have hparts : parts source.formula = (body, some l) := hs ▸ parts_implies body l
      simp only [ofSentence, hparts]
    · have hparts : parts source.formula = (.verum, some l) := hs ▸ parts_literal l
      simp only [ofSentence, hparts]

theorem holds_formula {s : Sentence} {c : Clause} (h : ofSentence s = .ok c) (w : World) :
    c.formula.holds w = s.formula.holds w := by
  obtain ⟨-, hs | ⟨hbody, hs⟩⟩ := ofSentence_eq_ok_iff.1 h
  · rw [hs]
  · simp [hs, formula, hbody, Formula.holds, Connective.onBool]

/-! ## Simplification -/

/-- The clause simplified under one valuation after the other. -/
def simplifyAll (c : Clause) (ks : List Valuation) : Clause :=
  ks.foldl (fun c k => c.simplify k) c

/-- Nothing but the body is touched. -/
theorem simplifyAll_eq (c : Clause) (ks : List Valuation) :
    c.simplifyAll ks = { c with body := c.body.simplifyAll ks } := by
  induction ks generalizing c with
  | nil => rfl
  | cons k ks ih => exact ih (c.simplify k)

/-- **A clause keeps the meaning of its sentence.** The sentences that make a clause are the
literals and the implications with a literal on the right. Simplified under any valuations,
one after the other, a clause has the same source and consequent, and that its body implies
its consequent is true in the same worlds as the sentence, among those that respect every
one of the valuations. -/
theorem clause_keeps_meaning (s : Sentence) :
    ((∃ c, ofSentence s = .ok c) ↔
      ∃ l : Literal, s.formula = l.formula ∨
        ∃ body, s.formula = .binary .implies body l.formula) ∧
    ∀ c, ofSentence s = .ok c → ∀ ks : List Valuation,
      (c.simplifyAll ks).source = s ∧ (c.simplifyAll ks).consequent = c.consequent ∧
      ∀ w : World, (∀ k ∈ ks, w.Respects k) →
        (c.simplifyAll ks).formula.holds w = s.formula.holds w := by
  refine ⟨⟨?_, ?_⟩, fun c hc ks => ?_⟩
  · rintro ⟨c, hc⟩
    obtain ⟨-, hs | ⟨-, hs⟩⟩ := ofSentence_eq_ok_iff.1 hc
    · exact ⟨c.consequent, .inr ⟨c.body, hs⟩⟩
    · exact ⟨c.consequent, .inl hs⟩
  · rintro ⟨l, hs | ⟨body, hs⟩⟩
    · exact ⟨⟨s, .verum, l⟩, ofSentence_eq_ok_iff.2 ⟨rfl, .inr ⟨rfl, hs⟩⟩⟩
    · exact ⟨⟨s, body, l⟩, ofSentence_eq_ok_iff.2 ⟨rfl, .inl hs⟩⟩
  · rw [simplifyAll_eq]
    refine ⟨(ofSentence_cases hc).1, rfl, fun w hw => ?_⟩
    have hbody : (c.body.simplifyAll ks).holds w = c.body.holds w :=
      Formula.holds_simplifyAll hw c.body
    rw [← holds_formula hc, formula, formula, Formula.holds, Formula.holds, hbody]

/-- Once `a` is known to hold, and then `b` by a valuation that knows nothing of `a`, the
clause of `a & b => ~c` reads `T => ~c`, which fails where all three hold, as the sentence
does. -/
theorem clause_keeps_meaning_unrelated :
    let body : Formula := .binary .and (.symbol ⟨"a"⟩) (.symbol ⟨"b"⟩)
    let s : Sentence := ⟨"a & b => ~c", .binary .implies body (.not (.symbol ⟨"c"⟩))⟩
    let c : Clause := ⟨s, body, ⟨⟨"c"⟩, false⟩⟩
    let only : Symbol → Valuation := fun x y => if y = x then .holds else .unknown
    let ks := [only ⟨"a"⟩, only ⟨"b"⟩]
    let w : World := fun _ => true
    ofSentence s = .ok c ∧ (∀ k ∈ ks, w.Respects k) ∧
      (c.simplifyAll ks).render = "T => ~c" ∧ (c.simplifyAll ks).source = s ∧
      (c.simplifyAll ks).formula.holds w = s.formula.holds w ∧ s.formula.holds w = false := by
  intro body s c only ks w
  have hc : ofSentence s = .ok c := by decide
  have honly : ∀ x, w.Respects (only x) := by
    intro x y b hy
    by_cases hyx : y = x
    · have hholds : Truth.holds = .ofBool b := by simpa [only, hyx] using hy
      exact Truth.ofBool_inj.1 hholds
    · have hunknown : Truth.unknown = .ofBool b := by simpa [only, hyx] using hy
      exact absurd hunknown.symm (Truth.ofBool_ne_unknown b)
  have hks : ∀ k ∈ ks, w.Respects k := by
    intro k hk
    rcases List.mem_pair.1 hk with rfl | rfl
    · exact honly _
    · exact honly _
  obtain ⟨hsource, -, hmeaning⟩ := (clause_keeps_meaning s).2 c hc ks
  exact ⟨hc, hks, by decide, hsource, hmeaning w hks, by decide⟩

end Clause

end Reasoner
