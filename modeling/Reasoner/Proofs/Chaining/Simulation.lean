/-
Simplifying clauses in place changes nothing. A search that keeps simplified
clauses goes step by step like one that evaluates the clauses as they were told:
each clause it keeps tracks an original one, which means that the two bodies have
the same value under all that may still become known (`Clause.Tracks`). So the
two searches try the same clauses in each round, with the same effect, and end the
same way (`Forward.run_tracks`, `Backward.run_tracks`).
-/
import Mathlib.Data.List.Forall2
import Reasoner.Proofs.Chaining.Search
import Reasoner.Proofs.Simplification

namespace Reasoner

/-- `c'` stands for `c` from the knowledge `k` on. -/
structure Clause.Tracks (k : Valuation) (c c' : Clause) : Prop where
  source : c'.source = c.source
  consequent : c'.consequent = c.consequent
  value : ∀ j, k ≤ j → c'.body.value j = c.body.value j

namespace Clause.Tracks

variable {k j : Valuation} {c c' : Clause}

theorem refl (k : Valuation) (c : Clause) : c.Tracks k c :=
  ⟨rfl, rfl, fun _ _ => rfl⟩

theorem mono (h : k ≤ j) (hc : c.Tracks k c') : c.Tracks j c' :=
  ⟨hc.source, hc.consequent, fun i hi => hc.value i (h.trans hi)⟩

theorem simplify (hc : c.Tracks k c') : c.Tracks k (c'.simplify k) := by
  refine ⟨hc.source, hc.consequent, fun j hj => ?_⟩
  rw [Clause.simplify, Formula.value_simplify hj, hc.value j hj]

theorem proves (hc : c.Tracks k c') : c'.proves k = c.proves k := by
  rw [Clause.proves, Clause.proves, hc.consequent, hc.value k le_rfl]

theorem forall₂_refl (k : Valuation) (cs : List Clause) :
    List.Forall₂ (Clause.Tracks k) cs cs :=
  List.forall₂_same.2 fun c _ => .refl k c

end Clause.Tracks

namespace Chaining

/-! ## One clause -/

inductive Firing.Tracks (k : Valuation) : Firing → Firing → Prop where
  | waits {c c' : Clause} (h : c.Tracks k c') : Tracks k (.waits c) (.waits c')
  | commits (s : Symbol) (b : Bool) (k' : Knowledge) : Tracks k (.commits s b k') (.commits s b k')
  | contradicts (e : Contradiction) : Tracks k (.contradicts e) (.contradicts e)

theorem settle_tracks {k : Knowledge} {v : Valuation} {c c' : Clause} (h : c.Tracks v c')
    (proved : Symbol × Truth) : (settle c k proved).Tracks v (settle c' k proved) := by
  obtain ⟨s, t⟩ := proved
  simp only [settle]
  cases t.toBool? with
  | none => exact .waits h
  | some b =>
    simp only
    rcases k.commit s b with ⟨e | _, k'⟩
    · exact .contradicts e
    · exact .commits s b k'

/-- Trying a clause that tracks another does what trying the other would do. -/
theorem simplifying_tracks {k : Knowledge} {c c' : Clause} (h : c.Tracks k.valuation c') :
    (direct c k).Tracks k.valuation (simplifying c' k) := by
  have hs := h.simplify
  have hproves : (c'.simplify k.valuation).proves k.valuation = c.proves k.valuation := hs.proves
  by_cases hd : (c'.simplify k.valuation).isDecided = true
  · rw [simplifying, if_pos hd, hproves]
    exact settle_tracks hs _
  · have hu : c.body.value k.valuation = .unknown := by
      rw [Clause.isDecided, Clause.simplify, Formula.isConstant_simplify, not_not,
        h.value _ le_rfl] at hd
      exact hd
    have hwait : direct c k = .waits c := by
      simp only [direct, Clause.proves_eq, Clause.implied_eq_unknown.2 hu, settle, Truth.toBool?]
    rw [simplifying, if_neg hd, hwait]
    exact .waits hs

/-! ## Passes -/

/-- What cannot tell related things apart is the same on related lists. -/
theorem map_eq_of_forall₂ {α β : Type} {R : α → α → Prop} {f : α → β}
    (hf : ∀ a a', R a a' → f a' = f a) {as as' : List α} (h : List.Forall₂ R as as') :
    as'.map f = as.map f := by
  induction h with
  | nil => rfl
  | cons ha _ ih => rw [List.map_cons, List.map_cons, hf _ _ ha, ih]

/-- The same sentence is tried, with the same effect. -/
structure Attempt.Tracks (a a' : Attempt) : Prop where
  source : a'.clause.source = a.clause.source
  firing : ∃ k, a.firing.Tracks k a'.firing

theorem Attempt.Tracks.of_clause {k : Valuation} {c c' : Clause} {f f' : Firing}
    (hc : c.Tracks k c') (hf : f.Tracks k f') : (Attempt.mk c f).Tracks ⟨c', f'⟩ :=
  ⟨hc.source, k, hf⟩

theorem Attempt.Tracks.committed? {a a' : Attempt} (h : a.Tracks a') :
    a'.committed? = a.committed? := by
  obtain ⟨k, hf⟩ := h.firing
  unfold Attempt.committed?
  generalize a.firing = f at hf
  generalize a'.firing = f' at hf
  cases hf <;> rfl

/-- The same happens in both passes, and what waits after them corresponds. -/
structure Pass.Tracks (p p' : Pass) : Prop where
  result : p'.result = p.result
  attempts : List.Forall₂ Attempt.Tracks p.attempts p'.attempts
  waiting : ∀ learned, p.result = .ok learned →
    List.Forall₂ (Clause.Tracks learned.valuation) p.waiting p'.waiting

namespace Pass.Tracks

theorem committed {p p' : Pass} (h : p.Tracks p') : p'.committed = p.committed := by
  have hmap := map_eq_of_forall₂ (fun _ _ ha => Attempt.Tracks.committed? ha) h.attempts
  simpa [Pass.committed, List.filterMap_map] using congrArg (List.filterMap id) hmap

theorem done (k : Knowledge) : (Pass.done k).Tracks (Pass.done k) :=
  ⟨rfl, .nil, fun _ _ => .nil⟩

section After

variable {k : Valuation} {c c' : Clause} (hc : c.Tracks k c')
include hc

theorem aborted (e : Contradiction) :
    (Pass.aborted ⟨c, .contradicts e⟩ e).Tracks (Pass.aborted ⟨c', .contradicts e⟩ e) :=
  ⟨rfl, .cons (.of_clause hc (.contradicts e)) .nil, fun _ _ => .nil⟩

theorem after_commits {p p' : Pass} (h : p.Tracks p') (s : Symbol) (b : Bool) (j : Knowledge) :
    (p.after ⟨c, .commits s b j⟩).Tracks (p'.after ⟨c', .commits s b j⟩) :=
  ⟨h.result, .cons (.of_clause hc (.commits s b j)) h.attempts, h.waiting⟩

end After

theorem after_waits {k : Knowledge} {cs : List Clause} {p p' : Pass} (h : p.Tracks p')
    (hp : Trial direct k cs p) (hk : k.Indexed) {c d c' d' : Clause} (hc : c.Tracks k.valuation c')
    (hd : d.Tracks k.valuation d') : (p.after ⟨c, .waits d⟩).Tracks (p'.after ⟨c', .waits d'⟩) := by
  refine ⟨h.result, .cons (.of_clause hc (.waits hd)) h.attempts, fun learned hr => ?_⟩
  exact .cons (hd.mono (hp.indexed_and_le hk hr).2) (h.waiting learned hr)

end Pass.Tracks

theorem forall₂_tracks_mono {k j : Valuation} (h : k ≤ j) {cs cs' : List Clause}
    (hcs : List.Forall₂ (Clause.Tracks k) cs cs') : List.Forall₂ (Clause.Tracks j) cs cs' :=
  hcs.imp fun _ _ hc => hc.mono h

theorem forall₂_append_same {k : Valuation} {cs cs' : List Clause}
    (hcs : List.Forall₂ (Clause.Tracks k) cs cs') (ds : List Clause) :
    List.Forall₂ (Clause.Tracks k) (cs ++ ds) (cs' ++ ds) :=
  List.rel_append hcs (Clause.Tracks.forall₂_refl k ds)

theorem Forward.pass_tracks {k : Knowledge} (hk : k.Indexed) {cs cs' : List Clause}
    (h : List.Forall₂ (Clause.Tracks k.valuation) cs cs') :
    (pass direct k cs).Tracks (pass simplifying k cs') := by
  induction cs generalizing k cs' with
  | nil =>
    cases h
    exact .done k
  | cons c cs ih =>
    obtain ⟨c', cs', hc, hcs, rfl⟩ := List.forall₂_cons_left_iff.1 h
    have hf := simplifying_tracks hc
    rw [pass, pass]
    generalize hd : direct c k = f at hf
    generalize simplifying c' k = f' at hf
    cases hf with
    | waits hw => exact (ih hk hcs).after_waits (trial_pass direct k cs) hk hc hw
    | commits s b k' =>
      obtain ⟨-, hcom⟩ := commits_of_direct hk hd
      exact .after_commits hc (ih hcom.indexed (forall₂_tracks_mono hcom.le hcs)) s b k'
    | contradicts e => exact .aborted hc e

theorem Backward.lastFirst_reverse_cons {α : Type} (x : α) (xs : List α) :
    lastFirst (x :: xs).reverse = x :: xs.reverse := by
  rw [List.reverse_cons]
  cases xs.reverse with
  | nil => rfl
  | cons y ys =>
    have hlast : (y :: (ys ++ [x])).getLast (List.cons_ne_nil _ _) = x := by simp
    have hinit : (y :: (ys ++ [x])).dropLast = y :: ys := by
      rw [← List.cons_append, List.dropLast_concat]
    rw [List.cons_append, lastFirst, hlast, hinit]

theorem Backward.forall₂_lastFirst {α β : Type} {R : α → β → Prop} {xs : List α} {ys : List β}
    (h : List.Forall₂ R xs ys) : List.Forall₂ R (lastFirst xs) (lastFirst ys) := by
  rw [← List.forall₂_reverse_iff] at h
  rw [← xs.reverse_reverse, ← ys.reverse_reverse]
  generalize xs.reverse = us at h
  generalize ys.reverse = vs at h
  cases h with
  | nil => exact .nil
  | cons hx hrest =>
    rw [lastFirst_reverse_cons, lastFirst_reverse_cons]
    exact .cons hx (List.forall₂_reverse_iff.2 hrest)

theorem Backward.sweep_tracks {k : Knowledge} (hk : k.Indexed) {cs cs' : List Clause}
    (h : List.Forall₂ (Clause.Tracks k.valuation) cs cs') :
    (sweep direct k cs).Tracks (sweep simplifying k cs') := by
  fun_induction sweep direct k cs generalizing cs' with
  | case1 k =>
    cases h
    rw [sweep]
    exact .done k
  | case2 k c cs e hd =>
    obtain ⟨c', cs', hc, hcs, rfl⟩ := List.forall₂_cons_left_iff.1 h
    have hf := simplifying_tracks hc
    rw [hd] at hf
    rw [sweep]
    generalize simplifying c' k = f' at hf
    cases hf
    exact .aborted hc e
  | case3 k c cs d hd ih =>
    obtain ⟨c', cs', hc, hcs, rfl⟩ := List.forall₂_cons_left_iff.1 h
    have hf := simplifying_tracks hc
    rw [hd] at hf
    rw [sweep]
    generalize simplifying c' k = f' at hf
    cases hf with
    | waits hw => exact (ih hk hcs).after_waits (trial_sweep direct k cs) hk hc hw
  | case4 k c cs s b k' hd ih =>
    obtain ⟨c', cs', hc, hcs, rfl⟩ := List.forall₂_cons_left_iff.1 h
    have hf := simplifying_tracks hc
    rw [hd] at hf
    rw [sweep]
    generalize simplifying c' k = f' at hf
    cases hf
    obtain ⟨-, hcom⟩ := commits_of_direct hk hd
    have hrest := forall₂_lastFirst (forall₂_tracks_mono hcom.le hcs)
    exact .after_commits hc (ih hcom.indexed hrest) s b k'

/-! ## Runs -/

/-- Two outcomes with the same answer, knowledge and contradiction. -/
inductive Outcome.Tracks : Outcome → Outcome → Prop where
  | decided (answer : Bool) (k : Knowledge) : Tracks (.decided answer k) (.decided answer k)
  | undecided {k : Knowledge} {unfired unfired' : List Clause}
      (h : List.Forall₂ (Clause.Tracks k.valuation) unfired unfired') :
      Tracks (.undecided k unfired) (.undecided k unfired')
  | contradictory (e : Contradiction) : Tracks (.contradictory e) (.contradictory e)

/-- The same clauses are pulled, and the same happens when clauses are tried. -/
structure Round.Tracks (r r' : Round) : Prop where
  pulled : r'.pulled = r.pulled
  attempts : List.Forall₂ Attempt.Tracks r.attempts r'.attempts

structure Run.Tracks (r r' : Run) : Prop where
  outcome : r.outcome.Tracks r'.outcome
  rounds : List.Forall₂ Round.Tracks r.rounds r'.rounds

theorem Run.Tracks.result {r r' : Run} (h : r.Tracks r') : r'.result = r.result := by
  have ho := h.outcome
  unfold Run.result
  generalize r.outcome = o at ho
  generalize r'.outcome = o' at ho
  cases ho <;> rfl

theorem Run.Tracks.pulled {r r' : Run} (h : r.Tracks r') :
    r'.rounds.map Round.pulled = r.rounds.map Round.pulled :=
  map_eq_of_forall₂ (fun _ _ hround => hround.pulled) h.rounds

theorem Ends.tracks {clauses : List Clause} {target : Formula} {final : Valuation → Prop}
    {o o' : Outcome} (h : Ends clauses target final o) (ho : o.Tracks o') :
    Ends clauses target final o' := by
  cases ho <;> exact h

section Rounds

variable {p p' : Pass} (hp : p.Tracks p') (pulled : List Clause)
include hp

theorem Run.Tracks.after {r r' : Run} (h : r.Tracks r') :
    (r.after ⟨pulled, p.attempts⟩).Tracks (r'.after ⟨pulled, p'.attempts⟩) :=
  ⟨h.outcome, .cons ⟨rfl, hp.attempts⟩ h.rounds⟩

theorem Run.Tracks.last {o o' : Outcome} (h : o.Tracks o') :
    (Run.last ⟨pulled, p.attempts⟩ o).Tracks (Run.last ⟨pulled, p'.attempts⟩ o') :=
  ⟨h, .cons ⟨rfl, hp.attempts⟩ .nil⟩

end Rounds

namespace Forward

variable {rule : FiringRule} {target : Formula} {k learned : Knowledge} {pending : List Clause}

theorem run_of_error {e : Contradiction} (hr : (pass rule k pending).result = .error e) :
    run rule target k pending =
      .last ⟨[], (pass rule k pending).attempts⟩ (.contradictory e) := by
  rw [run]
  simp only [hr]

theorem run_of_decided {answer : Bool} (hr : (pass rule k pending).result = .ok learned)
    (hv : verdict target learned = some answer) :
    run rule target k pending =
      .last ⟨[], (pass rule k pending).attempts⟩ (.decided answer learned) := by
  rw [run]
  simp only [hr, hv]

theorem run_of_progress (hr : (pass rule k pending).result = .ok learned)
    (hv : verdict target learned = none)
    (hlt : (pass rule k pending).waiting.length < pending.length) :
    run rule target k pending =
      (run rule target learned (pass rule k pending).waiting).after
        ⟨[], (pass rule k pending).attempts⟩ := by
  rw [run]
  simp only [hr, hv, if_pos hlt]

theorem run_of_idle (hr : (pass rule k pending).result = .ok learned)
    (hv : verdict target learned = none)
    (hlt : ¬ (pass rule k pending).waiting.length < pending.length) :
    run rule target k pending =
      .last ⟨[], (pass rule k pending).attempts⟩
        (.undecided learned (pass rule k pending).waiting) := by
  rw [run]
  simp only [hr, hv, if_neg hlt]

theorem run_tracks (target : Formula) {k : Knowledge} (hk : k.Indexed) (pending : List Clause) :
    ∀ pending', List.Forall₂ (Clause.Tracks k.valuation) pending pending' →
      (run direct target k pending).Tracks (run simplifying target k pending') := by
  fun_induction run direct target k pending with
  | case1 k pending p round e hr =>
    intro pending' h
    have hp := pass_tracks hk h
    rw [run_of_error (hp.result.trans hr)]
    exact .last hp [] (.contradictory e)
  | case2 k pending p round learned hr answer hv =>
    intro pending' h
    have hp := pass_tracks hk h
    rw [run_of_decided (hp.result.trans hr) hv]
    exact .last hp [] (.decided answer learned)
  | case3 k pending p round learned hr hv hlt ih =>
    intro pending' h
    have hp := pass_tracks hk h
    have hw := hp.waiting learned hr
    rw [hw.length_eq, h.length_eq] at hlt
    rw [run_of_progress (hp.result.trans hr) hv hlt]
    exact .after hp [] (ih ((trial_pass direct k pending).indexed_and_le hk hr).1 _ hw)
  | case4 k pending p round learned hr hv hlt =>
    intro pending' h
    have hp := pass_tracks hk h
    have hw := hp.waiting learned hr
    rw [hw.length_eq, h.length_eq] at hlt
    rw [run_of_idle (hp.result.trans hr) hv hlt]
    exact .last hp [] (.undecided hw)

end Forward

namespace Backward

variable {rule : FiringRule} {target : Formula} {k learned : Knowledge} {goals : List Symbol}
  {unpulled active : List Clause} {s : Pass}

theorem run_of_error (hs : s = sweep rule k (active ++ (pull goals unpulled).pulled))
    {e : Contradiction} (hr : s.result = .error e) :
    run rule target k goals unpulled active =
      .last ⟨(pull goals unpulled).pulled, s.attempts⟩ (.contradictory e) := by
  subst hs
  rw [run]
  simp only [hr]

theorem run_of_decided (hs : s = sweep rule k (active ++ (pull goals unpulled).pulled))
    {answer : Bool} (hr : s.result = .ok learned) (hv : verdict target learned = some answer) :
    run rule target k goals unpulled active =
      .last ⟨(pull goals unpulled).pulled, s.attempts⟩ (.decided answer learned) := by
  subst hs
  rw [run]
  simp only [hr, hv]

theorem run_of_idle (hs : s = sweep rule k (active ++ (pull goals unpulled).pulled))
    (hr : s.result = .ok learned) (hv : verdict target learned = none)
    (hidle : (pull goals unpulled).pulled = [] ∧ s.waiting.length = active.length) :
    run rule target k goals unpulled active =
      .last ⟨(pull goals unpulled).pulled, s.attempts⟩ (.undecided learned s.waiting) := by
  subst hs
  rw [run]
  simp only [hr, hv, dif_pos hidle]

theorem run_of_progress (hs : s = sweep rule k (active ++ (pull goals unpulled).pulled))
    (hr : s.result = .ok learned) (hv : verdict target learned = none)
    (hidle : ¬ ((pull goals unpulled).pulled = [] ∧ s.waiting.length = active.length)) :
    run rule target k goals unpulled active =
      (run rule target learned ((pull goals unpulled).goals.filter (· ∉ s.committed))
        (pull goals unpulled).left s.waiting).after ⟨(pull goals unpulled).pulled, s.attempts⟩ := by
  subst hs
  rw [run]
  simp only [hr, hv, dif_neg hidle]

theorem run_tracks (target : Formula) {k : Knowledge} (hk : k.Indexed) (goals : List Symbol)
    (unpulled active : List Clause) :
    ∀ active', List.Forall₂ (Clause.Tracks k.valuation) active active' →
      (run direct target k goals unpulled active).Tracks
        (run simplifying target k goals unpulled active') := by
  fun_induction run direct target k goals unpulled active with
  | case1 k goals unpulled active p s round e hr =>
    intro active' h
    have hs := sweep_tracks hk (forall₂_append_same h p.pulled)
    rw [run_of_error rfl (hs.result.trans hr)]
    exact .last hs p.pulled (.contradictory e)
  | case2 k goals unpulled active p s round learned hr answer hv =>
    intro active' h
    have hs := sweep_tracks hk (forall₂_append_same h p.pulled)
    rw [run_of_decided rfl (hs.result.trans hr) hv]
    exact .last hs p.pulled (.decided answer learned)
  | case3 k goals unpulled active p s round learned hr hv hidle =>
    intro active' h
    have hs := sweep_tracks hk (forall₂_append_same h p.pulled)
    have hw := hs.waiting learned hr
    rw [hw.length_eq, h.length_eq] at hidle
    rw [run_of_idle rfl (hs.result.trans hr) hv hidle]
    exact .last hs p.pulled (.undecided hw)
  | case4 k goals unpulled active p s round learned hr hv hidle unsolved ih =>
    intro active' h
    have hs := sweep_tracks hk (forall₂_append_same h p.pulled)
    have hw := hs.waiting learned hr
    have hrest := ih ((trial_sweep direct k _).indexed_and_le hk hr).1 _ hw
    rw [hw.length_eq, h.length_eq] at hidle
    rw [run_of_progress rfl (hs.result.trans hr) hv hidle, hs.committed]
    exact .after hs p.pulled hrest

end Backward

end Chaining

end Reasoner
