/-
Horn knowledge bases and the two searches over them. A Horn base is a list of
sentences together with their clauses; a chainer that is told a batch has a larger
Horn base or none at all (`HornBase.tell_chainer`), and what every search over it
learns is described by how it ends (`search_forward_ends`, `search_backward_ends`).

The main results: what a search learns is right in every world that satisfies the
sentences and gives up the consequents of failed bodies
(`HornBase.search_sound`); where saturation meets no contradiction both
searches answer as it does, in whatever order the sentences were told
(`HornBase.searches_agree`); and a forward search that finds no answer has
reached the least closed knowledge (`HornBase.forward_isLeast_closed`).
-/
import Mathlib.Order.Bounds.Defs
import Reasoner.Proofs.Chaining.Saturation
import Reasoner.Proofs.Chaining.Simulation
import Reasoner.Proofs.KnowledgeBase
import Reasoner.Proofs.Session

namespace Reasoner

/-- Sentences that are Horn clauses, each of them. -/
structure HornBase where
  sentences : List Sentence
  clauses : List Clause
  clauses_eq : Chainer.clausesOf sentences = .ok clauses

theorem HornBase.eq_of_sentences {h h' : HornBase} (hs : h.sentences = h'.sentences) : h = h' := by
  obtain ⟨sentences, clauses, heq⟩ := h
  obtain ⟨sentences', clauses', heq'⟩ := h'
  cases hs
  rw [heq] at heq'
  cases heq'
  rfl

/-! ## Sentences and clauses -/

theorem Chainer.clausesOf_cons {s : Sentence} {rest : List Sentence} {clauses : List Clause} :
    clausesOf (s :: rest) = .ok clauses ↔
      ∃ c cs, Clause.ofSentence s = .ok c ∧ clausesOf rest = .ok cs ∧ clauses = c :: cs := by
  rw [clausesOf]
  cases Clause.ofSentence s with
  | error e => simp [bind, Except.bind]
  | ok c =>
    cases clausesOf rest with
    | error e => simp [bind, Except.bind]
    | ok cs => simp [bind, Except.bind, pure, Except.pure, eq_comm]

theorem Chainer.mem_clausesOf {sentences : List Sentence} {clauses : List Clause}
    (h : clausesOf sentences = .ok clauses) {c : Clause} :
    c ∈ clauses ↔ ∃ s ∈ sentences, Clause.ofSentence s = .ok c := by
  induction sentences generalizing clauses with
  | nil =>
    cases h
    simp
  | cons s rest ih =>
    obtain ⟨d, cs, hd, hcs, rfl⟩ := clausesOf_cons.1 h
    simp only [List.mem_cons, ih hcs, exists_eq_or_imp, hd, Except.ok.injEq]
    exact or_congr_left eq_comm

theorem Chainer.exists_clausesOf {sentences : List Sentence}
    (h : ∀ s ∈ sentences, ∃ c, Clause.ofSentence s = .ok c) :
    ∃ clauses, clausesOf sentences = .ok clauses := by
  induction sentences with
  | nil => exact ⟨[], rfl⟩
  | cons s rest ih =>
    obtain ⟨c, hc⟩ := h s (.head _)
    obtain ⟨cs, hcs⟩ := ih fun t ht => h t (.tail _ ht)
    exact ⟨c :: cs, clausesOf_cons.2 ⟨c, cs, hc, hcs, rfl⟩⟩

theorem Chainer.clausesOf_append {xs ys : List Sentence} {cs ds : List Clause}
    (hx : clausesOf xs = .ok cs) (hy : clausesOf ys = .ok ds) :
    clausesOf (xs ++ ys) = .ok (cs ++ ds) := by
  induction xs generalizing cs with
  | nil =>
    cases hx
    exact hy
  | cons s rest ih =>
    obtain ⟨c, es, hc, hes, rfl⟩ := clausesOf_cons.1 hx
    exact clausesOf_cons.2 ⟨c, es ++ ds, hc, ih hes, rfl⟩

namespace HornBase

theorem mem_clauses (h : HornBase) {c : Clause} :
    c ∈ h.clauses ↔ ∃ s ∈ h.sentences, Clause.ofSentence s = .ok c :=
  Chainer.mem_clausesOf h.clauses_eq

theorem exists_clause (h : HornBase) {s : Sentence} (hs : s ∈ h.sentences) :
    ∃ c ∈ h.clauses, Clause.ofSentence s = .ok c := by
  obtain ⟨sentences, clauses, heq⟩ := h
  induction sentences generalizing clauses with
  | nil => cases hs
  | cons t rest ih =>
    obtain ⟨d, cs, hd, hcs, rfl⟩ := Chainer.clausesOf_cons.1 heq
    rcases List.mem_cons.1 hs with rfl | hs
    · exact ⟨d, .head _, hd⟩
    · obtain ⟨c, hc, hcs'⟩ := ih cs hcs hs
      exact ⟨c, .tail _ hc, hcs'⟩

/-- The same sentences in another order. -/
theorem exists_of_perm (h : HornBase) {sentences : List Sentence} (hp : sentences.Perm h.sentences) :
    ∃ h' : HornBase, h'.sentences = sentences ∧ ∀ c, c ∈ h.clauses ↔ c ∈ h'.clauses := by
  have hall : ∀ s ∈ sentences, ∃ c, Clause.ofSentence s = .ok c := by
    intro s hs
    obtain ⟨c, -, hc⟩ := h.exists_clause (hp.subset hs)
    exact ⟨c, hc⟩
  obtain ⟨clauses, hcl⟩ := Chainer.exists_clausesOf hall
  refine ⟨⟨sentences, clauses, hcl⟩, rfl, fun c => ?_⟩
  rw [h.mem_clauses, Chainer.mem_clausesOf hcl]
  constructor
  · rintro ⟨s, hs, hc⟩
    exact ⟨s, hp.symm.subset hs, hc⟩
  · rintro ⟨s, hs, hc⟩
    exact ⟨s, hp.subset hs, hc⟩

/-- A world satisfies the sentences when every clause carries over from body to
consequent. -/
theorem holds_sentences_iff (h : HornBase) (w : World) :
    (∀ s ∈ h.sentences, s.formula.holds w = true) ↔
      ∀ c ∈ h.clauses, c.body.holds w = true → c.consequent.holds w = true := by
  constructor
  · intro hw c hc
    obtain ⟨s, hs, hsc⟩ := h.mem_clauses.1 hc
    exact (Clause.holds_iff_of_ofSentence hsc w).1 (hw s hs)
  · intro hw s hs
    obtain ⟨c, hc, hsc⟩ := h.exists_clause hs
    exact (Clause.holds_iff_of_ofSentence hsc w).2 (hw c hc)

/-! ## Searches -/

/-- A chainer that was told the sentences and asked nothing yet. -/
def chainer (h : HornBase) (strategy : Strategy) : Chainer where
  strategy := strategy
  base := .ofSentences h.sentences
  clauses := h.clauses

def search (h : HornBase) (strategy : Strategy) (target : Formula) : Chaining.Run :=
  (h.chainer strategy).search target

def empty : HornBase where
  sentences := []
  clauses := []
  clauses_eq := rfl

/-- Telling a batch that is accepted adds its sentences, and nothing else changes. -/
theorem tell_chainer (h : HornBase) {strategy : Strategy} {batch : String}
    (hok : ((h.chainer strategy).tell batch).1 = .ok ()) :
    ∃ (h' : HornBase) (told : List Sentence),
      (h.chainer strategy).base.tell batch = (.ok told, .ofSentences h'.sentences) ∧
      h'.sentences = h.sentences ++ told ∧
      ((h.chainer strategy).tell batch).2 = h'.chainer strategy := by
  obtain ⟨e, he⟩ | ⟨told, base, clauses, htell, hclauses, heq⟩ := (h.chainer strategy).tell_cases batch
  · rw [he] at hok
    cases hok
  · have hbase := (KnowledgeBase.built_ofSentences h.sentences).tell htell
    rw [KnowledgeBase.sentences_ofSentences] at hbase
    subst hbase
    have hall := Chainer.clausesOf_append h.clauses_eq hclauses
    exact ⟨⟨h.sentences ++ told, h.clauses ++ clauses, hall⟩, told, htell, rfl, by rw [heq]; rfl⟩

theorem chainer_empty (strategy : Strategy) : empty.chainer strategy = { strategy } := rfl

theorem tell_empty {strategy : Strategy} {batch : String}
    (hok : ((empty.chainer strategy).tell batch).1 = .ok ()) :
    ∃ h : HornBase, h.sentences = (KnowledgeBase.tell {} batch).2.sentences ∧
      ((empty.chainer strategy).tell batch).2 = h.chainer strategy := by
  obtain ⟨h, told, htell, -, hc⟩ := empty.tell_chainer hok
  have hbase : KnowledgeBase.tell {} batch = (.ok told, .ofSentences h.sentences) := htell
  exact ⟨h, by rw [hbase, KnowledgeBase.sentences_ofSentences], hc⟩

open Chaining

/-- The search that leaves every clause as it was told and evaluates its body. -/
def directSearch (h : HornBase) (strategy : Strategy) (target : Formula) : Run :=
  let unknown := Knowledge.ofSymbols (h.chainer strategy).base.vocabulary.symbols
  match strategy with
  | .forward => Forward.run direct target unknown h.clauses
  | .backward =>
    Backward.run direct target unknown (Symbol.firstAppearances target.symbols) h.clauses []

theorem search_tracks (h : HornBase) (strategy : Strategy) (target : Formula) :
    (h.directSearch strategy target).Tracks (h.search strategy target) := by
  have hk := Knowledge.indexed_ofSymbols (h.chainer strategy).base.vocabulary.symbols
  cases strategy with
  | forward => exact Forward.run_tracks target hk h.clauses _ (Clause.Tracks.forall₂_refl _ _)
  | backward =>
    exact Backward.run_tracks target hk (Symbol.firstAppearances target.symbols) h.clauses [] _ .nil

theorem search_forward_ends (h : HornBase) (target : Formula) :
    Ends h.clauses target (Closed h.clauses) (h.search .forward target).outcome :=
  (Forward.run_ends target (.start h.clauses _)).tracks (h.search_tracks .forward target).outcome

theorem search_backward_ends (h : HornBase) (target : Formula) :
    Ends h.clauses target
      (fun v => ∃ asked, (∀ s ∈ target.symbols, asked s) ∧ SaturatedOn h.clauses asked v)
      (h.search .backward target).outcome :=
  (Backward.run_ends (.start h.clauses _ target)).tracks (h.search_tracks .backward target).outcome

/-- What a search learns is derived, and its verdict is the value of the target
under it. -/
theorem derivation_of_search (h : HornBase) {strategy : Strategy} {target : Formula} {v : Bool}
    {k : Knowledge} (hr : (h.search strategy target).result = .ok (v, k)) :
    Derivation h.clauses k ∧ (v = true ↔ target.value k.valuation = .holds) := by
  cases strategy with
  | forward => exact (h.search_forward_ends target).derivation_of_result hr
  | backward => exact (h.search_backward_ends target).derivation_of_result hr

theorem conflicting_of_search (h : HornBase) {strategy : Strategy} {target : Formula}
    {e : Contradiction} (hr : (h.search strategy target).result = .error e) :
    Conflicting h.clauses e := by
  cases strategy with
  | forward => exact (h.search_forward_ends target).conflicting_of_result hr
  | backward => exact (h.search_backward_ends target).conflicting_of_result hr

/-- What every commit keeps, a search keeps. -/
theorem search_keeps (h : HornBase) {strategy : Strategy} {P : Knowledge → Prop}
    (step : ∀ {k k' c s b}, P k → c ∈ h.clauses → direct c k = .commits s b k' → P k')
    (start : P (.ofSymbols (h.chainer strategy).base.vocabulary.symbols)) {target : Formula}
    {v : Bool} {k : Knowledge} (hr : (h.search strategy target).result = .ok (v, k)) : P k := by
  rw [(h.search_tracks strategy target).result] at hr
  cases strategy with
  | forward => exact Forward.run_keeps step (.start h.clauses _) start hr
  | backward => exact Backward.run_keeps step (.start h.clauses _ target) start hr

/-! ## Soundness -/

/-- **Chaining is sound**, up to its reading of failed bodies. In a world that
satisfies the sentences, and in which a consequent is false wherever the body
fails under what was learned, all that was learned is right, and so is a positive
verdict. Where no body fails this is plain entailment. -/
theorem search_sound (h : HornBase) (strategy : Strategy) (target : Formula) {v : Bool}
    {k : Knowledge} (hr : (h.search strategy target).result = .ok (v, k)) :
    (∀ w : World, (∀ s ∈ h.sentences, s.formula.holds w = true) →
      (∀ c ∈ h.clauses, c.body.value k.valuation = .fails → c.consequent.holds w = false) →
      w.Respects k.valuation ∧ (v = true → target.holds w = true)) ∧
    ((∀ c ∈ h.clauses, c.body.value k.valuation ≠ .fails) →
      ∀ w : World, (∀ s ∈ h.sentences, s.formula.holds w = true) →
        w.Respects k.valuation ∧ (v = true → target.holds w = true)) := by
  obtain ⟨hd, hv⟩ := h.derivation_of_search hr
  have sound : ∀ w : World, (∀ s ∈ h.sentences, s.formula.holds w = true) →
      (∀ c ∈ h.clauses, c.body.value k.valuation = .fails → c.consequent.holds w = false) →
      w.Respects k.valuation ∧ (v = true → target.holds w = true) := by
    intro w hw hf
    have hresp := hd.respects ((h.holds_sentences_iff w).1 hw) hf
    exact ⟨hresp, fun hvt => Formula.holds_of_value hresp (hv.1 hvt)⟩
  refine ⟨sound, fun hne w hw => sound w hw fun c hc hf => ?_⟩
  exact absurd hf (hne c hc)

theorem exists_result {r : Run} {v : Bool} (h : r.result.toOption.map Prod.fst = some v) :
    ∃ k, r.result = .ok (v, k) := by
  cases hr : r.result with
  | ok answer =>
    rw [hr] at h
    cases h
    exact ⟨answer.2, rfl⟩
  | error e =>
    rw [hr] at h
    cases h

theorem exists_result_knowing {r : Run} {v : Bool} {s : Symbol} {t : Truth}
    (h : r.result.toOption.map (fun found => (found.1, found.2.valuation s)) = some (v, t)) :
    ∃ k, r.result = .ok (v, k) ∧ k.valuation s = t := by
  obtain ⟨k, hk⟩ := exists_result (v := v) (by simpa using congrArg (Option.map Prod.fst) h)
  rw [hk] at h
  cases h
  exact ⟨k, hk, rfl⟩

/-- The sentences `~a` and `a => b`, whose second body fails. -/
def failing : HornBase where
  sentences := [⟨"~a", .not (.symbol ⟨"a"⟩)⟩,
    ⟨"a => b", .binary .implies (.symbol ⟨"a"⟩) (.symbol ⟨"b"⟩)⟩]
  clauses := _
  clauses_eq := rfl

theorem search_sound_failing :
    ∃ k, (failing.search .backward (.not (.symbol ⟨"b"⟩))).result = .ok (true, k) ∧
      World.Respects (fun _ => false) k.valuation ∧
      (Formula.not (.symbol ⟨"b"⟩)).holds (fun _ => false) = true := by
  obtain ⟨k, hk⟩ : ∃ k, (failing.search .backward (.not (.symbol ⟨"b"⟩))).result = .ok (true, k) :=
    exists_result (by decide +kernel)
  have hs := (search_sound failing .backward _ hk).1 (fun _ => false) (by decide)
    (by simp [failing, Formula.value, Literal.holds])
  exact ⟨k, hk, hs.1, hs.2 rfl⟩

/-! ## Agreement -/

/-- A forward search that leaves the question open has saturated its knowledge. -/
theorem saturation_of_unknown (h : HornBase) {target : Formula} {v : Bool} {k : Knowledge}
    (hr : (h.search .forward target).result = .ok (v, k))
    (hu : target.value k.valuation = .unknown) : Saturation h.clauses k := by
  have hends := h.search_forward_ends target
  unfold Run.result at hr
  generalize (h.search .forward target).outcome = o at hends hr
  rcases o with ⟨b, j⟩ | ⟨j, unfired⟩ | e
  · cases hr
    rw [hends.2] at hu
    exact absurd hu (Truth.ofBool_ne_unknown v)
  · cases hr
    obtain ⟨hj, -, hc⟩ := hends
    exact ⟨hj, hc⟩
  · cases hr

theorem saturation_of_untold (h : HornBase) {untold : Symbol}
    (hu : ∀ s ∈ h.sentences, untold ∉ s.symbols) {answer : Bool} {k : Knowledge}
    (hk : (h.search .forward (.symbol untold)).result = .ok (answer, k)) :
    Saturation h.clauses k := by
  refine h.saturation_of_unknown hk ?_
  by_contra hne
  obtain ⟨c, hc, hcs⟩ := (h.derivation_of_search hk).1.exists_consequent hne
  obtain ⟨s, hs, hsc⟩ := h.mem_clauses.1 hc
  exact hu s hs ((Clause.mem_symbols_of_ofSentence hsc untold).2 (.inr hcs.symm))

/-- Where no derived knowledge is contradicted, there is saturated knowledge. -/
theorem exists_saturation (h : HornBase) (hno : ∀ e, ¬ Conflicting h.clauses e) :
    ∃ k, Saturation h.clauses k := by
  obtain ⟨untold, hu⟩ := Symbol.exists_not_mem (h.sentences.flatMap Sentence.symbols)
  have hu' : ∀ s ∈ h.sentences, untold ∉ s.symbols := fun s hs hmem =>
    hu (List.mem_flatMap.2 ⟨s, hs, hmem⟩)
  cases hr : (h.search .forward (.symbol untold)).result with
  | ok r => exact ⟨r.2, h.saturation_of_untold hu' hr⟩
  | error e => exact absurd (h.conflicting_of_search hr) (hno e)

/-- Either search answers as saturation does. -/
theorem result_of_saturation (h : HornBase) {k : Knowledge} (hk : Saturation h.clauses k)
    (strategy : Strategy) (target : Formula) :
    ∃ v j, (h.search strategy target).result = .ok (v, j) ∧
      (v = true ↔ target.value k.valuation = .holds) := by
  cases strategy with
  | forward => exact hk.result_of_forward (h.search_forward_ends target)
  | backward => exact hk.result_of_backward (h.search_backward_ends target)

theorem entails_of_saturation (h : HornBase) {k : Knowledge} (hk : Saturation h.clauses k)
    (strategy : Strategy) (target : Formula) :
    ((h.chainer strategy).entails target).1 = .ok (decide (target.value k.valuation = .holds)) := by
  obtain ⟨v, j, hr, hv⟩ := h.result_of_saturation hk strategy target
  have hsearch : ((h.chainer strategy).search target).result = .ok (v, j) := hr
  have hdec : v = decide (target.value k.valuation = .holds) := by
    rw [Bool.eq_iff_iff, decide_eq_true_eq]
    exact hv
  simp only [Chainer.entails, hsearch, hdec]

/-- **The two searches agree**, in whatever order the sentences were told. Where
saturation, which a question about an untold symbol brings about, meets no
contradiction, both searches end with the verdict that saturation gives. -/
theorem searches_agree (h : HornBase) {untold : Symbol}
    (hu : ∀ s ∈ h.sentences, untold ∉ s.symbols) {answer : Bool} {k : Knowledge}
    (hk : (h.search .forward (.symbol untold)).result = .ok (answer, k)) (target : Formula)
    {sentences : List Sentence} (hp : sentences.Perm h.sentences) :
    ∃ h' : HornBase, h'.sentences = sentences ∧ ∃ v kf kb,
      (h'.search .forward target).result = .ok (v, kf) ∧
      (h'.search .backward target).result = .ok (v, kb) ∧
      (v = true ↔ target.value k.valuation = .holds) := by
  obtain ⟨h', hs, hmem⟩ := h.exists_of_perm hp
  have hsat := (h.saturation_of_untold hu hk).congr hmem
  obtain ⟨v, kf, hf, hvf⟩ := h'.result_of_saturation hsat .forward target
  obtain ⟨u, kb, hb, hvb⟩ := h'.result_of_saturation hsat .backward target
  have hvu : u = v := Bool.eq_iff_iff.2 (hvb.trans hvf.symm)
  exact ⟨h', hs, v, kf, kb, hf, hvu ▸ hb, hvf⟩

theorem searches_agree_failing :
    ∃ k, (failing.search .forward (.symbol ⟨"z"⟩)).result = .ok (false, k) ∧
      ∃ h' : HornBase, h'.sentences = failing.sentences.reverse ∧ ∃ v kf kb,
        (h'.search .forward (.not (.symbol ⟨"b"⟩))).result = .ok (v, kf) ∧
        (h'.search .backward (.not (.symbol ⟨"b"⟩))).result = .ok (v, kb) ∧
        (v = true ↔ (Formula.not (.symbol ⟨"b"⟩)).value k.valuation = .holds) := by
  obtain ⟨k, hk⟩ : ∃ k, (failing.search .forward (.symbol ⟨"z"⟩)).result = .ok (false, k) :=
    exists_result (by decide +kernel)
  exact ⟨k, hk, searches_agree failing (by decide) hk _ (List.reverse_perm _)⟩

/-! ## The least closed knowledge -/

/-- A question that is left open is not affirmed. -/
theorem verdict_of_unknown (h : HornBase) {strategy : Strategy} {target : Formula} {v : Bool}
    {k : Knowledge} (hr : (h.search strategy target).result = .ok (v, k))
    (hu : target.value k.valuation = .unknown) : v = false := by
  have hv := (h.derivation_of_search hr).2
  rw [hu] at hv
  simpa using hv

/-- A forward search over saturated knowledge that leaves the question open ends with it. -/
theorem forward_eq_saturation (h : HornBase) {k : Knowledge} (hk : Saturation h.clauses k)
    {target : Formula} (hu : target.value k.valuation = .unknown) :
    ∃ j, (h.search .forward target).result = .ok (false, j) ∧ j.valuation = k.valuation := by
  obtain ⟨v, j, hr, -⟩ := h.result_of_saturation hk .forward target
  -- what the search knows is below saturation, so it leaves the question open as well
  have hle := (h.derivation_of_search hr).1.le_closed hk.closed
  have hopen : target.value j.valuation = .unknown := by
    have hvalue := Formula.value_mono hle target
    rw [hu] at hvalue
    exact le_antisymm hvalue (Truth.unknown_le _)
  obtain rfl := h.verdict_of_unknown hr hopen
  exact ⟨j, hr, hk.valuation_eq (h.saturation_of_unknown hr hopen)⟩

/-- **Forward chaining computes the least closed knowledge.** Where a search leaves the
question open, what it knows is closed: it has the consequent of every body that holds,
and the opposite of the consequent of every body that fails. It is part of every
valuation that is closed in this sense, and so it is the same in whatever order the
sentences were told. -/
theorem forward_isLeast_closed (h : HornBase) (target : Formula) {v : Bool} {k : Knowledge}
    (hr : (h.search .forward target).result = .ok (v, k))
    (hu : target.value k.valuation = .unknown) :
    IsLeast {u : Valuation | ∀ c ∈ h.clauses,
      (c.body.value u = .holds → u c.consequent.symbol = .ofBool c.consequent.polarity) ∧
      (c.body.value u = .fails → u c.consequent.symbol = .ofBool !c.consequent.polarity)}
      k.valuation ∧
    ∀ sentences : List Sentence, sentences.Perm h.sentences →
      ∃ h' : HornBase, h'.sentences = sentences ∧
        ∃ k', (h'.search .forward target).result = .ok (v, k') ∧ k'.valuation = k.valuation := by
  have hk := h.saturation_of_unknown hr hu
  refine ⟨⟨closed_iff.1 hk.closed, fun u hclosed => ?_⟩, fun sentences hp => ?_⟩
  · exact hk.derivation.le_closed (closed_iff.2 hclosed)
  · obtain ⟨h', hs, hmem⟩ := h.exists_of_perm hp
    obtain ⟨j, hj, hvaluation⟩ := h'.forward_eq_saturation (hk.congr hmem) hu
    obtain rfl := h.verdict_of_unknown hr hu
    exact ⟨h', hs, j, hj, hvaluation⟩

/-- Told `~a` and `a => b` and asked for `z`, forward chaining knows both `a` and `b` to
fail, and as much when the rule is told first. -/
theorem forward_isLeast_closed_failing :
    ∃ k, (failing.search .forward (.symbol ⟨"z"⟩)).result = .ok (false, k) ∧
      (Formula.symbol ⟨"z"⟩).value k.valuation = .unknown ∧ k.valuation ⟨"b"⟩ = .fails ∧
      ∃ h' : HornBase, h'.sentences = failing.sentences.reverse ∧
        ∃ k', (h'.search .forward (.symbol ⟨"z"⟩)).result = .ok (false, k') ∧
          k'.valuation = k.valuation := by
  obtain ⟨k, hk, hz⟩ : ∃ k, (failing.search .forward (.symbol ⟨"z"⟩)).result = .ok (false, k) ∧
      k.valuation ⟨"z"⟩ = .unknown := exists_result_knowing (by decide +kernel)
  obtain ⟨⟨hclosed, -⟩, horder⟩ := forward_isLeast_closed failing (.symbol ⟨"z"⟩) hk hz
  have ha := (hclosed _ (.head _)).1 rfl
  have hb := (hclosed _ (.tail _ (.head _))).2 ha
  exact ⟨k, hk, hz, hb, horder _ (List.reverse_perm _)⟩

end HornBase

end Reasoner
