/-
What a question depends on. A symbol is relevant if the question mentions it, or if the
body of a clause does whose consequent is relevant (`Relevant`). Goals are relevant at the
start, and pulling a clause for a goal makes relevant goals only; so backward chaining
never pulls a clause about anything else, and the search is the same, round for round,
when all such clauses are taken out (`Backward.search_filter`).

Sentences that come in between also bring symbols, and with them entries to the store of
knowledge. That changes the places of entries and nothing that a search looks at
(`Backward.search_alike`). Both together: what the question does not depend on can
be told or left out, contradictory or not (`HornBase.backward_ignores_irrelevant`).
-/
import Reasoner.Proofs.ToldFacts

namespace Reasoner

/-! ## Relevant symbols -/

/-- The symbols of the question, and with the consequent of a clause those of its body. -/
inductive Relevant (clauses : List Clause) (target : Formula) : Symbol → Prop where
  | asked {s : Symbol} (mem : s ∈ target.symbols) : Relevant clauses target s
  | body {c : Clause} {s : Symbol} (mem : c ∈ clauses)
      (consequent : Relevant clauses target c.consequent.symbol) (body : s ∈ c.body.symbols) :
      Relevant clauses target s

/-- With the consequent of a clause the symbols of its body belong as well. -/
def ClosedUnder (clauses : List Clause) (relevant : Symbol → Prop) : Prop :=
  ∀ c ∈ clauses, relevant c.consequent.symbol → ∀ s ∈ c.body.symbols, relevant s

theorem closedUnder_relevant (clauses : List Clause) (target : Formula) :
    ClosedUnder clauses (Relevant clauses target) :=
  fun _ hc hconsequent _ hs => .body hc hconsequent hs

/-- Nothing but what has to belong is relevant. -/
theorem Relevant.least {clauses : List Clause} {target : Formula} {relevant : Symbol → Prop}
    (hclosed : ClosedUnder clauses relevant) (htarget : ∀ s ∈ target.symbols, relevant s)
    {s : Symbol} (h : Relevant clauses target s) : relevant s := by
  induction h with
  | asked mem => exact htarget _ mem
  | body mem _ hbody ih => exact hclosed _ mem ih _ hbody

namespace Chaining.Backward

/-! ## Searching without the irrelevant clauses -/

section Filter

variable {relevant : Symbol → Prop} [DecidablePred relevant]

/-- Pulling for relevant goals passes the other clauses by, and the goals stay relevant. -/
theorem pull_filter {goals : List Symbol} (hgoals : ∀ s ∈ goals, relevant s) {cs : List Clause}
    (hclosed : ClosedUnder cs relevant) :
    pull goals (cs.filter (relevant ·.consequent.symbol)) =
      { pull goals cs with left := (pull goals cs).left.filter (relevant ·.consequent.symbol) } ∧
    ∀ s ∈ (pull goals cs).goals, relevant s := by
  induction cs generalizing goals with
  | nil => exact ⟨rfl, hgoals⟩
  | cons c cs ih =>
    have hrest : ClosedUnder cs relevant := fun d hd => hclosed d (.tail _ hd)
    by_cases hc : c.consequent.symbol ∈ goals
    · have hrel := hgoals _ hc
      have hgrown : ∀ s ∈ Symbol.appendNew goals c.bodySymbols, relevant s := by
        intro s hs
        rcases Symbol.mem_appendNew.1 hs with hg | hb
        · exact hgoals s hg
        · exact hclosed c (.head _) hrel s (mem_bodySymbols.1 hb)
      obtain ⟨hpull, hgoals'⟩ := ih hgrown hrest
      rw [List.filter_cons_of_pos (by simpa using hrel), pull, pull, if_pos hc, if_pos hc, hpull]
      exact ⟨rfl, hgoals'⟩
    · obtain ⟨hpull, hgoals'⟩ := ih hgoals hrest
      rw [pull_cons_of_not_mem hc]
      refine ⟨?_, hgoals'⟩
      by_cases hrel : relevant c.consequent.symbol
      · rw [List.filter_cons_of_pos (by simpa using hrel), pull_cons_of_not_mem hc, hpull,
          List.filter_cons_of_pos (by simpa using hrel)]
      · rw [List.filter_cons_of_neg (by simpa using hrel), hpull,
          List.filter_cons_of_neg (by simpa using hrel)]

theorem run_filter (rule : FiringRule) (target : Formula) (k : Knowledge) {goals : List Symbol}
    (hgoals : ∀ s ∈ goals, relevant s) {unpulled : List Clause}
    (hclosed : ClosedUnder unpulled relevant) (active : List Clause) :
    run rule target k goals (unpulled.filter (relevant ·.consequent.symbol)) active =
      run rule target k goals unpulled active := by
  fun_induction run rule target k goals unpulled active with
  | case1 k goals unpulled active p s round e hr =>
    obtain ⟨hpull, -⟩ := pull_filter hgoals hclosed
    rw [run_of_error (s := s) (by rw [hpull]) hr, hpull]
  | case2 k goals unpulled active p s round learned hr answer hv =>
    obtain ⟨hpull, -⟩ := pull_filter hgoals hclosed
    rw [run_of_decided (s := s) (by rw [hpull]) hr hv, hpull]
  | case3 k goals unpulled active p s round learned hr hv hidle =>
    obtain ⟨hpull, -⟩ := pull_filter hgoals hclosed
    rw [run_of_idle (s := s) (by rw [hpull]) hr hv (by rw [hpull]; exact hidle), hpull]
  | case4 k goals unpulled active p s round learned hr hv hidle unsolved ih =>
    obtain ⟨hpull, hgoals'⟩ := pull_filter hgoals hclosed
    have hunsolved : ∀ t ∈ unsolved, relevant t := fun t ht => hgoals' t (List.mem_filter.1 ht).1
    have hleft : ClosedUnder p.left relevant := fun c hc =>
      hclosed c ((mem_pull goals).2 (.inr hc))
    rw [run_of_progress (s := s) (by rw [hpull]) hr hv (by rw [hpull]; exact hidle), hpull]
    exact congrArg (Run.after round) (ih hunsolved hleft)

/-- **Clauses about what is not relevant take no part in a search.** -/
theorem search_filter (symbols : List Symbol) {clauses : List Clause} {target : Formula}
    (hclosed : ClosedUnder clauses relevant) (htarget : ∀ s ∈ target.symbols, relevant s) :
    search symbols (clauses.filter (relevant ·.consequent.symbol)) target =
      search symbols clauses target :=
  run_filter _ _ _ (fun s hs => htarget s (Symbol.mem_firstAppearances.1 hs)) hclosed []

/-- Only what is relevant becomes known. -/
theorem relevant_of_known {symbols : List Symbol} {clauses : List Clause} {target : Formula}
    (hclosed : ClosedUnder clauses relevant) (htarget : ∀ s ∈ target.symbols, relevant s) {v : Bool}
    {k : Knowledge} (hr : (search symbols clauses target).result = .ok (v, k)) {s : Symbol}
    (hs : k.valuation s ≠ .unknown) : relevant s := by
  rw [← search_filter symbols hclosed htarget] at hr
  -- what a search over the relevant clauses learns is derived from them
  have htracks := run_tracks target (Knowledge.indexed_ofSymbols symbols)
    (Symbol.firstAppearances target.symbols)
    (clauses.filter (relevant ·.consequent.symbol)) [] [] .nil
  have hends := (run_ends (.start _ symbols target)).tracks htracks.outcome
  obtain ⟨c, hc, rfl⟩ := (hends.derivation_of_result hr).1.exists_consequent hs
  exact of_decide_eq_true (List.mem_filter.1 hc).2

end Filter

end Chaining.Backward

/-! ## Searching with other entries -/

/-- Two stores that know the same, whatever entries they have. -/
structure Knowledge.Alike (k k' : Knowledge) : Prop where
  left : k.Indexed
  right : k'.Indexed
  valuation : k'.valuation = k.valuation

theorem Knowledge.alike_ofSymbols (symbols symbols' : List Symbol) :
    (ofSymbols symbols).Alike (ofSymbols symbols') where
  left := indexed_ofSymbols symbols
  right := indexed_ofSymbols symbols'
  valuation := funext fun s => by rw [valuation_ofSymbols, valuation_ofSymbols]

theorem Knowledge.Alike.mem_knownAs {k k' : Knowledge} (h : k.Alike k') {s : Symbol} {b : Bool} :
    s ∈ k'.knownAs b ↔ s ∈ k.knownAs b := by
  rw [h.right.mem_knownAs, h.left.mem_knownAs, h.valuation]

namespace Chaining

inductive Firing.Alike : Firing → Firing → Prop where
  | waits (c : Clause) : Alike (.waits c) (.waits c)
  | commits (s : Symbol) (b : Bool) {k k' : Knowledge} (h : k.Alike k') :
      Alike (.commits s b k) (.commits s b k')
  | contradicts (e : Contradiction) : Alike (.contradicts e) (.contradicts e)

/-- What a search found out, up to the entries of the stores. -/
inductive Outcome.Alike : Outcome → Outcome → Prop where
  | decided (answer : Bool) {k k' : Knowledge} (h : k.Alike k') :
      Alike (.decided answer k) (.decided answer k')
  | undecided {k k' : Knowledge} (h : k.Alike k') (unfired : List Clause) :
      Alike (.undecided k unfired) (.undecided k' unfired)
  | contradictory (e : Contradiction) : Alike (.contradictory e) (.contradictory e)

/-- The same clauses wait and the same symbols were committed. -/
structure Pass.Alike (p p' : Pass) : Prop where
  waiting : p'.waiting = p.waiting
  committed : p'.committed = p.committed
  error : ∀ e, p.result = .error e → p'.result = .error e
  ok : ∀ k, p.result = .ok k → ∃ k', p'.result = .ok k' ∧ k.Alike k'

variable {k k' : Knowledge}

theorem settle_alike (h : k.Alike k') (c : Clause) (proved : Symbol × Truth) :
    (settle c k proved).Alike (settle c k' proved) := by
  obtain ⟨s, t⟩ := proved
  simp only [settle]
  cases t.toBool? with
  | none => exact .waits c
  | some b =>
    rcases (k.valuation s).unknown_or_ofBool with hs | ⟨known, hs⟩
    · have hs' : k'.valuation s = .unknown := by rw [h.valuation, hs]
      obtain ⟨j, hc, hj, hv⟩ := Knowledge.commit_of_unknown h.left hs b
      obtain ⟨j', hc', hj', hv'⟩ := Knowledge.commit_of_unknown h.right hs' b
      simp only [hc, hc']
      exact .commits s b ⟨hj, hj', by rw [hv, hv', h.valuation]⟩
    · have hs' : k'.valuation s = .ofBool known := by rw [h.valuation, hs]
      simp only [Knowledge.commit_of_known hs, Knowledge.commit_of_known hs']
      by_cases hb : known = b
      · simp only [if_pos hb]
        exact .commits s b h
      · simp only [if_neg hb]
        exact .contradicts _

theorem simplifying_alike (h : k.Alike k') (c : Clause) :
    (simplifying c k).Alike (simplifying c k') := by
  simp only [simplifying, h.valuation]
  split
  next => exact settle_alike h _ _
  next => exact .waits _

theorem verdict_alike (h : k.Alike k') (target : Formula) : verdict target k' = verdict target k := by
  rw [verdict, h.valuation, verdict]

namespace Backward

theorem sweep_alike (h : k.Alike k') (cs : List Clause) :
    (sweep simplifying k cs).Alike (sweep simplifying k' cs) := by
  fun_induction sweep simplifying k cs generalizing k' with
  | case1 k =>
    rw [sweep]
    refine ⟨rfl, rfl, fun e he => ?_, fun j hj => ?_⟩
    · cases he
    · cases hj
      exact ⟨k', rfl, h⟩
  | case2 k c cs e hd =>
    have hf := simplifying_alike h c
    rw [hd] at hf
    rw [sweep]
    generalize simplifying c k' = f' at hf
    cases hf
    exact ⟨rfl, rfl, fun _ he => he, fun j hj => by cases hj⟩
  | case3 k c cs c' hd ih =>
    have hf := simplifying_alike h c
    rw [hd] at hf
    rw [sweep]
    generalize simplifying c k' = f' at hf
    cases hf
    have hrest := ih h
    refine ⟨?_, hrest.committed, hrest.error, hrest.ok⟩
    rw [Pass.waiting_after_waits, Pass.waiting_after_waits, hrest.waiting]
  | case4 k c cs s b j hd ih =>
    have hf := simplifying_alike h c
    rw [hd] at hf
    rw [sweep]
    generalize simplifying c k' = f' at hf
    cases hf with
    | commits _ _ hj =>
      have hrest := ih hj
      refine ⟨hrest.waiting, ?_, hrest.error, hrest.ok⟩
      rw [Pass.committed_after_commits, Pass.committed_after_commits, hrest.committed]

theorem run_alike (target : Formula) (k : Knowledge) (goals : List Symbol)
    (unpulled active : List Clause) :
    ∀ k', k.Alike k' → (run simplifying target k goals unpulled active).outcome.Alike
      (run simplifying target k' goals unpulled active).outcome := by
  fun_induction run simplifying target k goals unpulled active with
  | case1 k goals unpulled active p s round e hr =>
    intro k' h
    have hs := sweep_alike h (active ++ p.pulled)
    rw [run_of_error rfl (hs.error e hr)]
    exact .contradictory e
  | case2 k goals unpulled active p s round learned hr answer hv =>
    intro k' h
    have hs := sweep_alike h (active ++ p.pulled)
    obtain ⟨learned', hr', hlearned⟩ := hs.ok learned hr
    rw [run_of_decided rfl hr' ((verdict_alike hlearned target).trans hv)]
    exact .decided answer hlearned
  | case3 k goals unpulled active p s round learned hr hv hidle =>
    intro k' h
    have hs := sweep_alike h (active ++ p.pulled)
    obtain ⟨learned', hr', hlearned⟩ := hs.ok learned hr
    rw [run_of_idle rfl hr' ((verdict_alike hlearned target).trans hv) (hs.waiting.symm ▸ hidle),
      hs.waiting]
    exact .undecided hlearned _
  | case4 k goals unpulled active p s round learned hr hv hidle unsolved ih =>
    intro k' h
    have hs := sweep_alike h (active ++ p.pulled)
    obtain ⟨learned', hr', hlearned⟩ := hs.ok learned hr
    rw [run_of_progress rfl hr' ((verdict_alike hlearned target).trans hv)
      (hs.waiting.symm ▸ hidle), hs.waiting, hs.committed]
    exact ih learned' hlearned

theorem search_alike (symbols symbols' : List Symbol) (clauses : List Clause) (target : Formula) :
    (search symbols clauses target).outcome.Alike (search symbols' clauses target).outcome :=
  run_alike target _ _ clauses [] _ (Knowledge.alike_ofSymbols symbols symbols')

end Backward

end Chaining

open Chaining in
/-- Searches that found out the same give the same answer, and leave the same known. -/
theorem Chainer.entails_alike {c c' : Chainer} {target : Formula}
    (h : (c.search target).outcome.Alike (c'.search target).outcome) :
    (c'.entails target).1 = (c.entails target).1 ∧
      (c.entails target).2.learned.Alike (c'.entails target).2.learned := by
  simp only [Chainer.entails, Run.result]
  generalize (c.search target).outcome = o at h
  generalize (c'.search target).outcome = o' at h
  cases h with
  | decided answer hk => exact ⟨rfl, hk⟩
  | undecided hk unfired => exact ⟨rfl, hk⟩
  | contradictory e => exact ⟨rfl, Knowledge.indexed_empty, Knowledge.indexed_empty, rfl⟩

/-! ## Sentences in between -/

/-- The third list has the sentences of the first two, both in their order. -/
inductive Interleaved : List Sentence → List Sentence → List Sentence → Prop where
  | nil : Interleaved [] [] []
  | left (s : Sentence) {told further all : List Sentence} (h : Interleaved told further all) :
      Interleaved (s :: told) further (s :: all)
  | right (s : Sentence) {told further all : List Sentence} (h : Interleaved told further all) :
      Interleaved told (s :: further) (s :: all)

namespace Interleaved

variable {told further all : List Sentence}

theorem mem_iff (h : Interleaved told further all) {s : Sentence} :
    s ∈ all ↔ s ∈ told ∨ s ∈ further := by
  induction h with
  | nil => simp
  | left t _ ih => simp only [List.mem_cons, ih, or_assoc]
  | right t _ ih =>
    simp only [List.mem_cons, ih]
    exact or_left_comm

/-- The clauses of the sentences in between are all that a filter takes out that lets none
of them pass. -/
theorem filter_clauses (h : Interleaved told further all) {p : Clause → Bool}
    (hp : ∀ s ∈ further, ∀ c, Clause.ofSentence s = .ok c → p c = false) {cs ds : List Clause}
    (hcs : Chainer.clausesOf told = .ok cs) (hds : Chainer.clausesOf all = .ok ds) :
    ds.filter p = cs.filter p := by
  induction h generalizing cs ds with
  | nil =>
    cases hcs
    cases hds
    rfl
  | left s _ ih =>
    obtain ⟨c, cs', hc, hcs', rfl⟩ := Chainer.clausesOf_cons.1 hcs
    obtain ⟨d, ds', hd, hds', rfl⟩ := Chainer.clausesOf_cons.1 hds
    rw [hc] at hd
    cases hd
    rw [List.filter_cons, List.filter_cons, ih hp hcs' hds']
  | right s _ ih =>
    obtain ⟨d, ds', hd, hds', rfl⟩ := Chainer.clausesOf_cons.1 hds
    rw [List.filter_cons, hp s (.head _) d hd]
    exact ih (fun t ht => hp t (.tail _ ht)) hcs hds'

end Interleaved

namespace HornBase

open Chaining

theorem closedUnder_of_interleaved {h h' : HornBase} {target : Formula} {further : List Sentence}
    (hall : Interleaved h.sentences further h'.sentences)
    (hfurther : ∀ s ∈ further, ∀ c, Clause.ofSentence s = .ok c →
      ¬ Relevant h.clauses target c.consequent.symbol) :
    ClosedUnder h'.clauses (Relevant h.clauses target) := by
  intro c hc hrelevant
  obtain ⟨s, hs, hsc⟩ := h'.mem_clauses.1 hc
  rcases hall.mem_iff.1 hs with htold | hnew
  · exact closedUnder_relevant _ _ c (h.mem_clauses.2 ⟨s, htold, hsc⟩) hrelevant
  · exact absurd hrelevant (hfurther s hnew c hsc)

/-- Both searches are the one over the relevant clauses, up to the entries. -/
theorem search_alike_of_interleaved {h h' : HornBase} {target : Formula}
    {further : List Sentence} (hall : Interleaved h.sentences further h'.sentences)
    (hfurther : ∀ s ∈ further, ∀ c, Clause.ofSentence s = .ok c →
      ¬ Relevant h.clauses target c.consequent.symbol) :
    ((h.chainer .backward).search target).outcome.Alike
      ((h'.chainer .backward).search target).outcome := by
  classical
  have htarget : ∀ s ∈ target.symbols, Relevant h.clauses target s := fun s hs => .asked hs
  have hfilter := hall.filter_clauses
    (fun s hs c hc => decide_eq_false (hfurther s hs c hc)) h.clauses_eq h'.clauses_eq
  have hsearch := fun symbols =>
    Backward.search_filter symbols (closedUnder_relevant h.clauses target) htarget
  have hsearch' := fun symbols =>
    Backward.search_filter symbols (closedUnder_of_interleaved hall hfurther) htarget
  simp only [Chainer.search, HornBase.chainer]
  rw [← hsearch, ← hsearch', hfilter]
  exact Backward.search_alike _ _ _ _

/-- **Backward chaining ignores what the question does not depend on.** Whatever a search
knows in the end is relevant to the question. Further sentences about symbols that are not
relevant, told anywhere in between and even if they contradict each other, change neither
the verdict or the contradiction nor which symbols are proven. -/
theorem backward_ignores_irrelevant (h : HornBase) (target : Formula) :
    (∀ v k, (h.search .backward target).result = .ok (v, k) →
      ∀ s, k.valuation s ≠ .unknown → Relevant h.clauses target s) ∧
    ∀ (h' : HornBase) (further : List Sentence),
      Interleaved h.sentences further h'.sentences →
      (∀ s ∈ further, ∀ c, Clause.ofSentence s = .ok c →
        ¬ Relevant h.clauses target c.consequent.symbol) →
      ((h'.chainer .backward).entails target).1 = ((h.chainer .backward).entails target).1 ∧
      ∀ s, s ∈ ((h'.chainer .backward).entails target).2.proven ↔
        s ∈ ((h.chainer .backward).entails target).2.proven := by
  classical
  constructor
  · intro v k hr s hs
    exact Backward.relevant_of_known (closedUnder_relevant _ _) (fun s hs => .asked hs) hr hs
  · intro h' further hall hfurther
    obtain ⟨hanswer, hlearned⟩ :=
      Chainer.entails_alike (search_alike_of_interleaved hall hfurther)
    exact ⟨hanswer, fun s => hlearned.mem_knownAs⟩

/-- The sentences of `late` with `z`, `~z` and `t => z` among them. -/
def cluttered : HornBase where
  sentences := [⟨"z", .symbol ⟨"z"⟩⟩, ⟨"a", .symbol ⟨"a"⟩⟩, ⟨"~z", .not (.symbol ⟨"z"⟩)⟩,
    ⟨"b & a => t", .binary .implies (.binary .and (.symbol ⟨"b"⟩) (.symbol ⟨"a"⟩)) (.symbol ⟨"t"⟩)⟩,
    ⟨"b", .symbol ⟨"b"⟩⟩, ⟨"t => z", .binary .implies (.symbol ⟨"t"⟩) (.symbol ⟨"z"⟩)⟩]
  clauses := _
  clauses_eq := rfl

/-- The contradiction about `z`, on which `t` does not depend, goes unnoticed. -/
theorem backward_ignores_irrelevant_cluttered :
    ¬ Relevant late.clauses (.symbol ⟨"t"⟩) ⟨"z"⟩ ∧
    ((cluttered.chainer .backward).entails (.symbol ⟨"t"⟩)).1 = .ok true ∧
    ∀ s, s ∈ ((cluttered.chainer .backward).entails (.symbol ⟨"t"⟩)).2.proven ↔
      s ∈ ((late.chainer .backward).entails (.symbol ⟨"t"⟩)).2.proven := by
  have hclosed : ClosedUnder late.clauses (· ∈ [⟨"t"⟩, ⟨"b"⟩, ⟨"a"⟩]) := by
    unfold ClosedUnder
    decide +kernel
  have hz : ¬ Relevant late.clauses (.symbol ⟨"t"⟩) ⟨"z"⟩ := fun hrelevant =>
    absurd (hrelevant.least hclosed (by decide)) (by decide)
  have hall : Interleaved late.sentences
      [⟨"z", .symbol ⟨"z"⟩⟩, ⟨"~z", .not (.symbol ⟨"z"⟩)⟩,
        ⟨"t => z", .binary .implies (.symbol ⟨"t"⟩) (.symbol ⟨"z"⟩)⟩]
      cluttered.sentences :=
    .right _ (.left _ (.right _ (.left _ (.left _ (.right _ .nil)))))
  have htold : ((late.chainer .backward).entails (.symbol ⟨"t"⟩)).1 = .ok true := by decide +kernel
  obtain ⟨-, hignored⟩ := backward_ignores_irrelevant late (.symbol ⟨"t"⟩)
  obtain ⟨hanswer, hproven⟩ := hignored cluttered _ hall (by
    intro s hs c hc
    simp only [List.mem_cons, List.not_mem_nil, or_false] at hs
    rcases hs with rfl | rfl | rfl <;> cases hc <;> exact hz)
  exact ⟨hz, hanswer.trans htold, hproven⟩

end HornBase

end Reasoner
