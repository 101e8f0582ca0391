/-
Searches under a renaming. A clause that is tried under other names does what it did under
the old ones (`simplifying_rename`); symbols are compared, put in lists and looked up, and
nothing else is done with them. So passes, rounds and whole searches over renamed clauses
are the searches renamed, attempt by attempt (`Forward.search_rename`,
`Backward.search_rename`).
-/
import Reasoner.Proofs.Chaining.Simulation
import Reasoner.Proofs.Renaming

namespace Reasoner.Chaining

variable (ρ : Renaming)

/-! ## One clause -/

noncomputable def Firing.rename : Firing → Firing
  | .waits c => .waits (c.rename ρ)
  | .commits s b k => .commits (ρ.symbol s) b (k.rename ρ)
  | .contradicts e => .contradicts (e.rename ρ)

theorem settle_rename (c : Clause) (k : Knowledge) (proved : Symbol × Truth) :
    settle (c.rename ρ) (k.rename ρ) (Prod.map ρ.symbol id proved) =
      (settle c k proved).rename ρ := by
  obtain ⟨s, t⟩ := proved
  simp only [settle, Prod.map, id]
  cases t.toBool? with
  | none => rfl
  | some b =>
    simp only [Knowledge.commit_rename]
    rcases k.commit s b with ⟨_ | _, k'⟩ <;> rfl

/-- A renamed clause fires as the clause does. -/
theorem simplifying_rename (c : Clause) (k : Knowledge) :
    simplifying (c.rename ρ) (k.rename ρ) = (simplifying c k).rename ρ := by
  simp only [simplifying, Clause.simplify_rename, Knowledge.valuation_rename,
    Clause.isDecided_rename]
  split
  next => rw [Clause.proves_rename, Knowledge.valuation_rename, settle_rename]
  next => rfl

@[simp] theorem verdict_rename (target : Formula) (k : Knowledge) :
    verdict (target.rename ρ) (k.rename ρ) = verdict target k := by
  rw [verdict, Formula.value_rename, Knowledge.valuation_rename, verdict]

/-! ## Passes -/

noncomputable def Attempt.rename (a : Attempt) : Attempt where
  clause := a.clause.rename ρ
  firing := a.firing.rename ρ

theorem Attempt.committed?_rename (a : Attempt) :
    (a.rename ρ).committed? = a.committed?.map ρ.symbol := by
  obtain ⟨c, f⟩ := a
  cases f <;> rfl

namespace Pass

noncomputable def rename (p : Pass) : Pass where
  attempts := p.attempts.map (·.rename ρ)
  waiting := p.waiting.map (·.rename ρ)
  result := (p.result.map (·.rename ρ)).mapError (·.rename ρ)

theorem rename_after (a : Attempt) (p : Pass) :
    (p.after a).rename ρ = (p.rename ρ).after (a.rename ρ) := by
  obtain ⟨c, f⟩ := a
  cases f <;> rfl

@[simp] theorem committed_rename (p : Pass) :
    (p.rename ρ).committed = p.committed.map ρ.symbol := by
  simp only [committed, rename, List.filterMap_map, List.map_filterMap]
  exact List.filterMap_congr fun a _ => a.committed?_rename ρ

@[simp] theorem length_waiting_rename (p : Pass) :
    (p.rename ρ).waiting.length = p.waiting.length :=
  List.length_map _

theorem result_rename_ok {p : Pass} {k : Knowledge} (h : p.result = .ok k) :
    (p.rename ρ).result = .ok (k.rename ρ) := by
  rw [rename, h]
  rfl

theorem result_rename_error {p : Pass} {e : Contradiction} (h : p.result = .error e) :
    (p.rename ρ).result = .error (e.rename ρ) := by
  rw [rename, h]
  rfl

end Pass

/-! ## Runs -/

noncomputable def Round.rename (r : Round) : Round where
  pulled := r.pulled.map (·.rename ρ)
  attempts := r.attempts.map (·.rename ρ)

noncomputable def Outcome.rename : Outcome → Outcome
  | .decided answer k => .decided answer (k.rename ρ)
  | .undecided k unfired => .undecided (k.rename ρ) (unfired.map (·.rename ρ))
  | .contradictory e => .contradictory (e.rename ρ)

noncomputable def Run.rename (r : Run) : Run where
  rounds := r.rounds.map (·.rename ρ)
  outcome := r.outcome.rename ρ

theorem Run.result_rename (r : Run) :
    (r.rename ρ).result =
      (r.result.map (Prod.map id (·.rename ρ))).mapError (·.rename ρ) := by
  obtain ⟨rounds, o⟩ := r
  cases o <;> rfl

/-! ## Forward -/

namespace Forward

theorem pass_rename (k : Knowledge) (cs : List Clause) :
    pass simplifying (k.rename ρ) (cs.map (·.rename ρ)) = (pass simplifying k cs).rename ρ := by
  induction cs generalizing k with
  | nil => rfl
  | cons c cs ih =>
    rw [List.map_cons, pass, pass, simplifying_rename]
    cases simplifying c k with
    | contradicts e => rfl
    | waits c' =>
      rw [Pass.rename_after, ← ih k]
      rfl
    | commits s b k' =>
      rw [Pass.rename_after, ← ih k']
      rfl

/-- A pass over renamed clauses fires some exactly when the pass does. -/
theorem progress_rename (k : Knowledge) (cs : List Clause) :
    (pass simplifying (k.rename ρ) (cs.map (·.rename ρ))).waiting.length <
        (cs.map (·.rename ρ)).length ↔ (pass simplifying k cs).waiting.length < cs.length := by
  rw [pass_rename, Pass.length_waiting_rename, List.length_map]

theorem run_rename (target : Formula) (k : Knowledge) (pending : List Clause) :
    run simplifying (target.rename ρ) (k.rename ρ) (pending.map (·.rename ρ)) =
      (run simplifying target k pending).rename ρ := by
  have hpass := pass_rename ρ
  fun_induction run simplifying target k pending with
  | case1 k pending p round e hr =>
    have hr' := Pass.result_rename_error ρ hr
    rw [run_of_error (hpass k pending ▸ hr'), hpass]
    rfl
  | case2 k pending p round learned hr answer hv =>
    have hr' := Pass.result_rename_ok ρ hr
    have hv' := (verdict_rename ρ target learned).trans hv
    rw [run_of_decided (hpass k pending ▸ hr') hv', hpass]
    rfl
  | case3 k pending p round learned hr hv hlt ih =>
    have hr' := Pass.result_rename_ok ρ hr
    have hv' := (verdict_rename ρ target learned).trans hv
    rw [run_of_progress (hpass k pending ▸ hr') hv' ((progress_rename ρ k pending).2 hlt), hpass]
    exact congrArg (Run.after (round.rename ρ)) ih
  | case4 k pending p round learned hr hv hlt =>
    have hr' := Pass.result_rename_ok ρ hr
    have hv' := (verdict_rename ρ target learned).trans hv
    rw [run_of_idle (hpass k pending ▸ hr') hv' (mt (progress_rename ρ k pending).1 hlt), hpass]
    rfl

/-- **A forward search over renamed clauses is the search renamed.** -/
theorem search_rename (symbols : List Symbol) (clauses : List Clause) (target : Formula) :
    search (symbols.map ρ.symbol) (clauses.map (·.rename ρ)) (target.rename ρ) =
      (search symbols clauses target).rename ρ := by
  rw [search, Knowledge.ofSymbols_rename, run_rename, search]

end Forward

/-! ## Backward -/

namespace Backward

def Pull.rename (p : Pull) : Pull where
  goals := p.goals.map ρ.symbol
  pulled := p.pulled.map (·.rename ρ)
  left := p.left.map (·.rename ρ)

theorem pull_rename (goals : List Symbol) (cs : List Clause) :
    pull (goals.map ρ.symbol) (cs.map (·.rename ρ)) = (pull goals cs).rename ρ := by
  induction cs generalizing goals with
  | nil => rfl
  | cons c cs ih =>
    have hgoal : (c.rename ρ).consequent.symbol ∈ goals.map ρ.symbol ↔ c.consequent.symbol ∈ goals :=
      ρ.symbol_mem
    rw [List.map_cons, pull, pull, if_congr hgoal rfl rfl]
    split
    next =>
      rw [Clause.bodySymbols_rename, Symbol.appendNew_rename, ih]
      rfl
    next =>
      rw [ih]
      rfl

theorem lastFirst_map {α β : Type} (f : α → β) (xs : List α) :
    lastFirst (xs.map f) = (lastFirst xs).map f := by
  cases xs with
  | nil => rfl
  | cons x xs =>
    have hlast : ((x :: xs).map f).getLast (List.cons_ne_nil _ _) =
        f ((x :: xs).getLast (List.cons_ne_nil x xs)) := List.getLast_map (by simp)
    have hinit : ((x :: xs).map f).dropLast = (x :: xs).dropLast.map f := List.map_dropLast.symm
    exact congrArg₂ List.cons hlast hinit

theorem sweep_rename (k : Knowledge) (cs : List Clause) :
    sweep simplifying (k.rename ρ) (cs.map (·.rename ρ)) = (sweep simplifying k cs).rename ρ := by
  fun_induction sweep simplifying k cs with
  | case1 k =>
    rw [List.map_nil, sweep]
    rfl
  | case2 k c cs e hf =>
    rw [List.map_cons, sweep, simplifying_rename, hf]
    rfl
  | case3 k c cs c' hf ih =>
    rw [List.map_cons, sweep, simplifying_rename, hf, Pass.rename_after, ← ih]
    rfl
  | case4 k c cs s b k' hf ih =>
    rw [List.map_cons, sweep, simplifying_rename, hf, Pass.rename_after, ← ih, ← lastFirst_map]
    rfl

/-- The goals left after a pass, under the new names. -/
theorem filter_rename (goals committed : List Symbol) :
    (goals.map ρ.symbol).filter (· ∉ committed.map ρ.symbol) =
      (goals.filter (· ∉ committed)).map ρ.symbol := by
  rw [List.filter_map]
  congr 2
  funext s
  simp only [Function.comp_apply, ρ.symbol_mem]

theorem run_rename (target : Formula) (k : Knowledge) (goals : List Symbol)
    (unpulled active : List Clause) :
    run simplifying (target.rename ρ) (k.rename ρ) (goals.map ρ.symbol)
        (unpulled.map (·.rename ρ)) (active.map (·.rename ρ)) =
      (run simplifying target k goals unpulled active).rename ρ := by
  have hsweep : ∀ k goals unpulled active,
      (sweep simplifying k (active ++ (pull goals unpulled).pulled)).rename ρ =
        sweep simplifying (k.rename ρ) (active.map (·.rename ρ) ++
          (pull (goals.map ρ.symbol) (unpulled.map (·.rename ρ))).pulled) := by
    intro k goals unpulled active
    rw [pull_rename, ← sweep_rename, List.map_append]
    rfl
  have hidle : ∀ (s : Pass) goals unpulled (active : List Clause),
      (pull (goals.map ρ.symbol) (unpulled.map (·.rename ρ))).pulled = [] ∧
          (s.rename ρ).waiting.length = (active.map (·.rename ρ)).length ↔
        (pull goals unpulled).pulled = [] ∧ s.waiting.length = active.length := by
    intro s goals unpulled active
    rw [pull_rename, Pass.length_waiting_rename, List.length_map]
    exact and_congr_left fun _ => List.map_eq_nil_iff
  fun_induction run simplifying target k goals unpulled active with
  | case1 k goals unpulled active p s round e hr =>
    rw [run_of_error (hsweep ..) (Pass.result_rename_error ρ hr), pull_rename]
    rfl
  | case2 k goals unpulled active p s round learned hr answer hv =>
    have hv' := (verdict_rename ρ target learned).trans hv
    rw [run_of_decided (hsweep ..) (Pass.result_rename_ok ρ hr) hv', pull_rename]
    rfl
  | case3 k goals unpulled active p s round learned hr hv hdone =>
    have hv' := (verdict_rename ρ target learned).trans hv
    rw [run_of_idle (hsweep ..) (Pass.result_rename_ok ρ hr) hv' ((hidle ..).2 hdone), pull_rename]
    rfl
  | case4 k goals unpulled active p s round learned hr hv hdone unsolved ih =>
    have hv' := (verdict_rename ρ target learned).trans hv
    have hgoals := filter_rename ρ p.goals s.committed
    rw [run_of_progress (hsweep ..) (Pass.result_rename_ok ρ hr) hv' (mt (hidle ..).1 hdone),
      pull_rename, Pass.committed_rename]
    exact congrArg (Run.after (round.rename ρ)) (hgoals ▸ ih)

/-- **A backward search over renamed clauses is the search renamed.** -/
theorem search_rename (symbols : List Symbol) (clauses : List Clause) (target : Formula) :
    search (symbols.map ρ.symbol) (clauses.map (·.rename ρ)) (target.rename ρ) =
      (search symbols clauses target).rename ρ := by
  have hrun := run_rename ρ target (.ofSymbols symbols)
    (Symbol.firstAppearances target.symbols) clauses []
  rw [search, Knowledge.ofSymbols_rename, Formula.symbols_rename, Symbol.firstAppearances_rename]
  exact hrun

end Backward

end Reasoner.Chaining
