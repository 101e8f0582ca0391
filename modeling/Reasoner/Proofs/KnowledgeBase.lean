/-
Knowledge bases as they come to be. Every knowledge base that is told batch after
batch is the one its sentences make up in their order (`KnowledgeBase.Built`), so
its vocabulary lists the symbols of the sentences, each once and where it first
appears.
-/
import Mathlib.Data.Fintype.EquivFin
import Mathlib.Data.List.Nodup
import Reasoner.KnowledgeBase
import Reasoner.Proofs.Valuation

namespace Reasoner

/-! ## Lists without repetitions -/

namespace Symbol

theorem nodup_insertNew {known : List Symbol} (h : known.Nodup) (s : Symbol) :
    (insertNew known s).Nodup := by
  unfold insertNew
  split
  next => exact h
  next hs => exact h.append (List.nodup_singleton s) (by simpa using hs)

theorem nodup_appendNew {known : List Symbol} (h : known.Nodup) (added : List Symbol) :
    (appendNew known added).Nodup := by
  induction added generalizing known with
  | nil => exact h
  | cons s added ih => exact ih (nodup_insertNew h s)

theorem nodup_firstAppearances (symbols : List Symbol) : (firstAppearances symbols).Nodup :=
  nodup_appendNew List.nodup_nil symbols

theorem appendNew_of_nodup {known added : List Symbol} (h : (known ++ added).Nodup) :
    appendNew known added = known ++ added := by
  induction added generalizing known with
  | nil => simp
  | cons s added ih =>
    have hs : s ∉ known := fun hmem => (List.disjoint_of_nodup_append h) hmem (.head _)
    rw [List.append_cons] at h
    rw [appendNew_cons, insertNew, if_neg hs, ih h, ← List.append_cons]

theorem firstAppearances_of_nodup {symbols : List Symbol} (h : symbols.Nodup) :
    firstAppearances symbols = symbols :=
  appendNew_of_nodup h

/-! ## A symbol not yet used -/

theorem exists_not_mem (symbols : List Symbol) : ∃ s, s ∉ symbols := by
  obtain ⟨name, hname⟩ := Infinite.exists_notMem_finset (symbols.map Symbol.name).toFinset
  refine ⟨⟨name⟩, fun h => hname (List.mem_toFinset.2 ?_)⟩
  exact List.mem_map_of_mem h

end Symbol

namespace KnowledgeBase

/-- The knowledge base that was told these sentences, in this order. -/
def ofSentences (sentences : List Sentence) : KnowledgeBase :=
  sentences.foldl append {}

theorem foldl_append (base : KnowledgeBase) (told : List Sentence) :
    told.foldl append base =
      { sentences := base.sentences ++ told,
        vocabulary := base.vocabulary.extend (told.flatMap Sentence.symbols) } := by
  induction told generalizing base with
  | nil => simp [Vocabulary.extend]
  | cons s told ih =>
    rw [List.foldl_cons, ih]
    simp [append, Vocabulary.extend, Symbol.appendNew_append]

@[simp] theorem sentences_ofSentences (sentences : List Sentence) :
    (ofSentences sentences).sentences = sentences := by
  rw [ofSentences, foldl_append]
  rfl

theorem symbols_ofSentences (sentences : List Sentence) :
    (ofSentences sentences).vocabulary.symbols =
      Symbol.firstAppearances (sentences.flatMap Sentence.symbols) := by
  rw [ofSentences, foldl_append]
  rfl

theorem mem_symbols_ofSentences {sentences : List Sentence} {x : Symbol} :
    x ∈ (ofSentences sentences).vocabulary.symbols ↔ ∃ s ∈ sentences, x ∈ s.symbols := by
  rw [symbols_ofSentences, Symbol.mem_firstAppearances, List.mem_flatMap]

/-- The vocabulary is the one the sentences call for. -/
def Built (base : KnowledgeBase) : Prop :=
  base = ofSentences base.sentences

theorem built_empty : Built {} := rfl

theorem built_ofSentences (sentences : List Sentence) : (ofSentences sentences).Built := by
  rw [Built, sentences_ofSentences]

namespace Built

variable {base : KnowledgeBase}

theorem tell (h : base.Built) {batch : String} {told : List Sentence} {base' : KnowledgeBase}
    (ht : base.tell batch = (.ok told, base')) : base' = ofSentences (base.sentences ++ told) := by
  unfold KnowledgeBase.tell at ht
  split at ht
  next =>
    simp only [Prod.mk.injEq, Except.ok.injEq] at ht
    obtain ⟨rfl, rfl⟩ := ht
    rw [ofSentences, List.foldl_append, ← ofSentences, ← h]
  next => simp at ht

theorem nodup (h : base.Built) : base.vocabulary.symbols.Nodup := by
  rw [h, symbols_ofSentences]
  exact Symbol.nodup_firstAppearances _

theorem mem_symbols (h : base.Built) {s : Symbol} :
    s ∈ base.vocabulary.symbols ↔ ∃ p ∈ base.formulas, s ∈ p.symbols := by
  rw [h, mem_symbols_ofSentences, formulas, sentences_ofSentences]
  simp [Sentence.symbols]

end Built

/-! ## Satisfaction -/

/-- Every told sentence holds in the world. -/
def SatisfiedBy (base : KnowledgeBase) (w : World) : Prop :=
  ∀ p ∈ base.formulas, p.holds w = true

theorem satisfiedBy_iff {base : KnowledgeBase} {w : World} :
    base.SatisfiedBy w ↔ ∀ s ∈ base.sentences, s.formula.holds w = true := by
  simp [SatisfiedBy, formulas]

/-- Only the values of the vocabulary's symbols matter. -/
theorem satisfiedBy_congr {base : KnowledgeBase} (h : base.Built) {v w : World}
    (hvw : ∀ s ∈ base.vocabulary.symbols, v s = w s) : base.SatisfiedBy v ↔ base.SatisfiedBy w := by
  refine forall₂_congr fun p hp => ?_
  rw [Formula.holds_congr fun s hs => hvw s (h.mem_symbols.2 ⟨p, hp, hs⟩)]

end KnowledgeBase

end Reasoner
