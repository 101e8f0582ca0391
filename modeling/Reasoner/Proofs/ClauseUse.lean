/-
How often a search uses a clause. Every pass that is not the last lets a clause fire, and a
clause that fires is gone, so forward chaining is over after one pass more than there are
clauses; a round of backward chaining pulls a clause or lets one fire, and each clause can
be pulled once and fire once (`Forward.length_rounds_run`, `Backward.length_rounds_run`).

The rounds of a search are a ledger over the clauses: what is at hand in a round are
the clauses that waited before and those just pulled, all of them are tried, and the ones
that do not fire are what waits for the next round (`Ledger`). What is read off the ledger
is that no clause fires twice or before it was pulled, and that a round tries exactly the
clauses pulled so far that have not fired (`HornBase.clauses_used_once`). Clauses are
simplified on the way, but they keep the sentence they were made from, so the ledger is kept
in sentences.
-/
import Mathlib.Data.List.Perm.Subperm
import Reasoner.Proofs.HornBase

namespace Reasoner

namespace Chaining

/-! ## What a round did -/

/-- The sentence whose clause was tried. -/
def Attempt.source (a : Attempt) : Sentence :=
  a.clause.source

def Attempt.fires (a : Attempt) : Bool :=
  a.committed?.isSome

def Attempt.conflicts (a : Attempt) : Bool :=
  match a.firing with
  | .contradicts _ => true
  | _ => false

namespace Round

/-- The sentences whose clauses were pulled in, in order. -/
def drawn (r : Round) : List Sentence :=
  r.pulled.map Clause.source

/-- The sentences whose clauses were tried, in order. -/
def tried (r : Round) : List Sentence :=
  r.attempts.map Attempt.source

/-- The sentences whose clauses fired, in order. -/
def fired (r : Round) : List Sentence :=
  (r.attempts.filter Attempt.fires).map Attempt.source

/-- A contradiction ended the round before its time. -/
def Aborted (r : Round) : Prop :=
  ∃ a ∈ r.attempts, a.conflicts = true

instance (r : Round) : Decidable r.Aborted :=
  inferInstanceAs (Decidable (∃ a ∈ r.attempts, a.conflicts = true))

end Round

/-! ## Trying the clauses at hand -/

theorem source_of_waits {k : Knowledge} {c c' : Clause} (h : simplifying c k = .waits c') :
    c'.source = c.source := by
  simp only [simplifying, Clause.proves_eq, settle] at h
  split at h
  next =>
    split at h
    next =>
      cases h
      rfl
    next => split at h <;> cases h
  next =>
    cases h
    rfl

namespace Trial

variable {k learned : Knowledge} {cs : List Clause} {p : Pass}

/-- Each clause at hand is tried exactly once. -/
theorem tried_perm {rule : FiringRule} (h : Trial rule k cs p) (hr : p.result = .ok learned) :
    (p.attempts.map Attempt.source).Perm (cs.map Clause.source) := by
  induction h with
  | done k => exact .nil
  | aborted tried => cases hr
  | waits tried _ ih => exact (ih hr).cons _
  | commits tried order _ ih => exact ((ih hr).trans (order.map _)).cons _

/-- Each clause at hand fires or waits. -/
theorem fired_append_waiting_perm (h : Trial simplifying k cs p) (hr : p.result = .ok learned) :
    ((p.attempts.filter Attempt.fires).map Attempt.source ++ p.waiting.map Clause.source).Perm
      (cs.map Clause.source) := by
  induction h with
  | done k => exact .nil
  | aborted tried => cases hr
  | waits tried _ ih =>
    rw [Pass.waiting_after_waits, List.map_cons, source_of_waits tried]
    exact List.perm_middle.trans ((ih hr).cons _)
  | commits tried order _ ih => exact ((ih hr).trans (order.map _)).cons _

theorem fired_subperm {rule : FiringRule} (h : Trial rule k cs p) :
    ((p.attempts.filter Attempt.fires).map Attempt.source).Subperm (cs.map Clause.source) := by
  induction h with
  | done k => exact .refl _
  | aborted tried => exact List.nil_subperm
  | waits tried _ ih => exact ih.trans (List.sublist_cons_self _ _).subperm
  | commits tried order _ ih =>
    exact (List.subperm_cons _).2 (ih.trans (order.map _).subperm)

theorem exists_conflicts {rule : FiringRule} (h : Trial rule k cs p) {e : Contradiction}
    (hr : p.result = .error e) : ∃ a ∈ p.attempts, a.conflicts = true := by
  induction h with
  | done k => cases hr
  | aborted tried =>
    cases hr
    exact ⟨_, .head _, rfl⟩
  | waits _ _ ih =>
    obtain ⟨a, ha, he⟩ := ih hr
    exact ⟨a, .tail _ ha, he⟩
  | commits _ _ _ ih =>
    obtain ⟨a, ha, he⟩ := ih hr
    exact ⟨a, .tail _ ha, he⟩

end Trial

/-! ## The ledger of a search -/

/-- The rounds account for the clauses: those of `active` and those pulled are at hand, a
round that is not aborted tries them all, and those that did not fire are at hand in the
next round. -/
inductive Ledger : List Sentence → List Round → Prop where
  | last {active : List Sentence} {r : Round} (fired : r.fired.Subperm (active ++ r.drawn))
      (tried : ¬ r.Aborted → r.tried.Perm (active ++ r.drawn)) : Ledger active [r]
  | next {active waiting : List Sentence} {r : Round} {rest : List Round}
      (tried : r.tried.Perm (active ++ r.drawn))
      (fired : (r.fired ++ waiting).Perm (active ++ r.drawn)) (ledger : Ledger waiting rest) :
      Ledger active (r :: rest)

namespace Ledger

section Trials

variable {k : Knowledge} {active pulled : List Clause} {p : Pass}
  (ht : Trial simplifying k (active ++ pulled) p)
include ht

theorem of_trial : Ledger (active.map Clause.source) [⟨pulled, p.attempts⟩] := by
  refine .last ?_ fun hnot => ?_
  · have hfired := ht.fired_subperm
    rwa [List.map_append] at hfired
  · cases hr : p.result with
    | error e => exact absurd (ht.exists_conflicts hr) hnot
    | ok learned =>
      have htried := ht.tried_perm hr
      rwa [List.map_append] at htried

theorem after_trial {learned : Knowledge} (hr : p.result = .ok learned) {rest : List Round}
    (hrest : Ledger (p.waiting.map Clause.source) rest) :
    Ledger (active.map Clause.source) (⟨pulled, p.attempts⟩ :: rest) := by
  have htried := ht.tried_perm hr
  have hfired := ht.fired_append_waiting_perm hr
  rw [List.map_append] at htried hfired
  exact .next htried hfired hrest

end Trials

variable {active : List Sentence} {rounds : List Round}

/-- Up to any round, the clauses that fired are among those at hand at the start and those
pulled since. -/
theorem fired_subperm (h : Ledger active rounds) (i : Nat) :
    ((rounds.take i).flatMap Round.fired).Subperm
      (active ++ (rounds.take i).flatMap Round.drawn) := by
  induction h generalizing i with
  | last fired _ =>
    cases i with
    | zero => exact List.nil_subperm
    | succ i => simpa using fired
  | @next active waiting r rest _ fired _ ih =>
    cases i with
    | zero => exact List.nil_subperm
    | succ i =>
      refine List.subperm_ext_iff.2 fun s _ => ?_
      have hlater := (ih i).count_le s
      have hnow := fired.count_eq s
      simp only [List.take_succ_cons, List.flatMap_cons, List.count_append] at hlater hnow ⊢
      omega

/-- A round that is not aborted tries what was pulled up to then and has not fired before. -/
theorem tried_perm (h : Ledger active rounds) {before after : List Round} {r : Round}
    (hrounds : rounds = before ++ r :: after) (hnot : ¬ r.Aborted) :
    (r.tried ++ before.flatMap Round.fired).Perm
      (active ++ (before ++ [r]).flatMap Round.drawn) := by
  induction h generalizing before with
  | last _ tried =>
    cases before with
    | nil =>
      cases hrounds
      simpa using tried hnot
    | cons b before => simp at hrounds
  | @next active waiting first rest tried fired _ ih =>
    cases before with
    | nil =>
      cases hrounds
      simpa using tried
    | cons b before =>
      cases hrounds
      -- what the first round leaves waiting is at hand at the start of the others
      refine List.perm_iff_count.2 fun s => ?_
      have hlater := (ih rfl).count_eq s
      have hnow := fired.count_eq s
      simp only [List.cons_append, List.flatMap_cons, List.count_append] at hlater hnow ⊢
      omega

end Ledger

/-! ## Forward -/

namespace Forward

variable (target : Formula) (k : Knowledge) (pending : List Clause)

theorem length_rounds_run (rule : FiringRule) :
    (run rule target k pending).rounds.length ≤ pending.length + 1 := by
  fun_induction run rule target k pending with
  | case1 | case2 | case4 => exact Nat.le_add_left 1 _
  | case3 k pending p round learned hr hv hlt ih =>
    simp only [Run.after, List.length_cons]
    omega

theorem drawn_of_mem_rounds (rule : FiringRule) :
    ∀ r ∈ (run rule target k pending).rounds, r.drawn = [] := by
  fun_induction run rule target k pending with
  | case1 | case2 | case4 =>
    intro r hr
    obtain rfl := List.mem_singleton.1 hr
    rfl
  | case3 k pending p round learned _ hv hlt ih =>
    intro r hr
    rcases List.mem_cons.1 hr with rfl | hr
    · rfl
    · exact ih r hr

theorem run_ledger :
    Ledger (pending.map Clause.source) (run simplifying target k pending).rounds := by
  have ht : ∀ k pending, Trial simplifying k (pending ++ []) (pass simplifying k pending) := by
    intro k pending
    rw [List.append_nil]
    exact trial_pass simplifying k pending
  fun_induction run simplifying target k pending with
  | case1 | case2 | case4 => exact .of_trial (ht _ _)
  | case3 k pending p round learned hr hv hlt ih => exact .after_trial (ht k pending) hr ih

end Forward

/-! ## Backward -/

namespace Backward

theorem perm_pull (goals : List Symbol) (cs : List Clause) :
    ((pull goals cs).pulled ++ (pull goals cs).left).Perm cs := by
  induction cs generalizing goals with
  | nil => exact .nil
  | cons c cs ih =>
    unfold pull
    split
    · exact (ih _).cons c
    · exact List.perm_middle.trans ((ih goals).cons c)

variable (target : Formula) (k : Knowledge) (goals : List Symbol) (unpulled active : List Clause)

theorem length_rounds_run (rule : FiringRule) :
    (run rule target k goals unpulled active).rounds.length ≤
      2 * unpulled.length + active.length + 1 := by
  fun_induction run rule target k goals unpulled active with
  | case1 | case2 | case3 => exact Nat.le_add_left 1 _
  | case4 k goals unpulled active p s round learned hr hv hidle unsolved ih =>
    have hlt : 2 * p.left.length + s.waiting.length < 2 * unpulled.length + active.length :=
      measure_lt_of_progress hidle
    simp only [Run.after, List.length_cons]
    omega

/-- A clause that is pulled is gone from those that can be. -/
theorem pulled_subperm (rule : FiringRule) :
    ((run rule target k goals unpulled active).rounds.flatMap Round.pulled).Subperm unpulled := by
  fun_induction run rule target k goals unpulled active with
  | case1 k goals unpulled active p | case2 k goals unpulled active p
  | case3 k goals unpulled active p =>
    have hpulled := (List.sublist_append_left p.pulled p.left).subperm
    simpa [Run.last] using hpulled.trans (perm_pull goals unpulled).subperm
  | case4 k goals unpulled active p s round learned hr hv hidle unsolved ih =>
    simp only [Run.after, List.flatMap_cons]
    exact ((List.subperm_append_left _).2 ih).trans (perm_pull goals unpulled).subperm

theorem run_ledger :
    Ledger (active.map Clause.source) (run simplifying target k goals unpulled active).rounds := by
  fun_induction run simplifying target k goals unpulled active with
  | case1 | case2 | case3 => exact .of_trial (trial_sweep simplifying _ _)
  | case4 k goals unpulled active p s round learned hr hv hidle unsolved ih =>
    exact .after_trial (trial_sweep simplifying k _) hr ih

end Backward

end Chaining

/-! ## Searches -/

theorem Chainer.source_clausesOf {sentences : List Sentence} {clauses : List Clause}
    (h : clausesOf sentences = .ok clauses) : clauses.map Clause.source = sentences := by
  induction sentences generalizing clauses with
  | nil =>
    cases h
    rfl
  | cons s rest ih =>
    obtain ⟨c, cs, hc, hcs, rfl⟩ := clausesOf_cons.1 h
    rw [List.map_cons, (Clause.ofSentence_cases hc).1, ih hcs]

namespace HornBase

open Chaining

/-- **A search ends and uses no clause twice.** Forward chaining takes at most one pass more
than there are clauses, and no clause fires twice. Backward chaining takes at most one
round more than twice as many; no clause is pulled twice, and up to any round those that
fired are among those pulled, none of them twice. A round that no contradiction aborts
tries exactly once each clause that was pulled by then and has not fired in an earlier
round. What fires and what is tried is named by its sentence, and a sentence that was told
more than once counts as often. -/
theorem clauses_used_once (h : HornBase) (target : Formula) :
    ((h.search .forward target).rounds.length ≤ h.clauses.length + 1 ∧
      ((h.search .forward target).rounds.flatMap Round.fired).Subperm h.sentences) ∧
    (h.search .backward target).rounds.length ≤ 2 * h.clauses.length + 1 ∧
    ((h.search .backward target).rounds.flatMap Round.pulled).Subperm h.clauses ∧
    (∀ i, (((h.search .backward target).rounds.take i).flatMap Round.fired).Subperm
      (((h.search .backward target).rounds.take i).flatMap Round.drawn)) ∧
    ∀ before round after, (h.search .backward target).rounds = before ++ round :: after →
      ¬ round.Aborted →
      (round.tried ++ before.flatMap Round.fired).Perm ((before ++ [round]).flatMap Round.drawn) := by
  have hforward : Ledger h.sentences (h.search .forward target).rounds :=
    Chainer.source_clausesOf h.clauses_eq ▸ Forward.run_ledger target _ h.clauses
  have hbackward : Ledger [] (h.search .backward target).rounds :=
    Backward.run_ledger target _ _ h.clauses []
  refine ⟨⟨Forward.length_rounds_run target _ h.clauses simplifying, ?_⟩,
    Backward.length_rounds_run target _ _ h.clauses [] simplifying,
    Backward.pulled_subperm target _ _ h.clauses [] simplifying,
    hbackward.fired_subperm, fun before round after => hbackward.tried_perm⟩
  have hdrawn : (h.search .forward target).rounds.flatMap Round.drawn = [] :=
    List.flatMap_eq_nil_iff.2 (Forward.drawn_of_mem_rounds target _ h.clauses simplifying)
  have hfired := hforward.fired_subperm (h.search .forward target).rounds.length
  rwa [List.take_length, hdrawn, List.append_nil] at hfired

/-- Told `~a` and `a => b` and asked for `~b`, backward chaining takes three rounds. The
second pulls the fact, and tries it and the rule that waits. -/
theorem clauses_used_once_failing :
    ∃ before round after,
      (failing.search .backward (.not (.symbol ⟨"b"⟩))).rounds = before ++ round :: after ∧
      before.length = 1 ∧ after.length = 1 ∧ ¬ round.Aborted ∧ round.tried.length = 2 ∧
      (round.tried ++ before.flatMap Round.fired).Perm ((before ++ [round]).flatMap Round.drawn) := by
  obtain ⟨-, -, -, -, htried⟩ := clauses_used_once failing (.not (.symbol ⟨"b"⟩))
  have hlength : (failing.search .backward (.not (.symbol ⟨"b"⟩))).rounds.length = 3 := by
    decide +kernel
  have hround : ∀ r ∈ (failing.search .backward (.not (.symbol ⟨"b"⟩))).rounds[1]?,
      ¬ r.Aborted ∧ r.tried.length = 2 := by
    decide +kernel
  obtain ⟨first, second, third, hrounds⟩ := List.length_eq_three.1 hlength
  rw [hrounds] at hround
  obtain ⟨hnot, hlen⟩ := hround second rfl
  exact ⟨[first], second, [third], hrounds, rfl, rfl, hnot, hlen, htried _ _ _ hrounds hnot⟩

end HornBase

end Reasoner
