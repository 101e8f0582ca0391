/-
Searching with clauses that are simplified as knowledge grows, and searching with the
clauses as they were told. Both searches try the same clauses in the same order, commit
the same values and stop in the same round (`HornBase.search_tracks`). A report names
clauses by their sentences and values by their symbols, and both stay what they are
under simplification, so the reports agree line by line (`Log.ofRun_of_tracks`).
-/
import Reasoner.Log
import Reasoner.Proofs.HornBase

namespace Reasoner

open Chaining

/-! ## Reports -/

namespace Log

/-- What is reported of a search. -/
def ofRun (strategy : Strategy) (target : Formula) (run : Run) : List Event :=
  run.rounds.flatMap (round (topicOf strategy)) ++ ending strategy target run.rounds.length run.outcome

theorem searched_eq (c : Chainer) (target : Formula) :
    searched c target = ofRun c.strategy target (c.search target) := rfl

theorem attempt_of_tracks (topic : Topic) {a a' : Attempt} (h : a.Tracks a') :
    attempt topic a' = attempt topic a := by
  obtain ⟨k, hf⟩ := h.firing
  unfold attempt
  rw [h.source]
  generalize a.firing = f at hf
  generalize a'.firing = f' at hf
  cases hf <;> rfl

theorem round_of_tracks (topic : Topic) {r r' : Round} (h : r.Tracks r') :
    round topic r' = round topic r := by
  have hattempts := map_eq_of_forall₂ (fun _ _ ha => attempt_of_tracks topic ha) h.attempts
  rw [round, round, h.pulled, List.flatMap_def, hattempts, ← List.flatMap_def]

theorem ending_of_tracks (strategy : Strategy) (target : Formula) (rounds : Nat) {o o' : Outcome}
    (h : o.Tracks o') : ending strategy target rounds o' = ending strategy target rounds o := by
  cases h with
  | decided answer k => rfl
  | undecided hunfired => simp only [ending, hunfired.length_eq]
  | contradictory e => rfl

theorem ofRun_of_tracks (strategy : Strategy) (target : Formula) {r r' : Run} (h : r.Tracks r') :
    ofRun strategy target r' = ofRun strategy target r := by
  have hrounds := map_eq_of_forall₂ (fun _ _ hr => round_of_tracks (topicOf strategy) hr) h.rounds
  rw [ofRun, ofRun, List.flatMap_def, hrounds, ← List.flatMap_def, ← h.rounds.length_eq,
    ending_of_tracks _ _ _ h.outcome]

end Log

/-! ## Searches -/

/-- **Simplifying clauses in place changes nothing.** A search that evaluates the told
clauses as they are has the same verdict, the same knowledge to the last entry or the
same contradiction, takes as many rounds, and has the same to report of each of them. -/
theorem HornBase.search_eq_directSearch (h : HornBase) (strategy : Strategy) (target : Formula) :
    (h.search strategy target).result = (h.directSearch strategy target).result ∧
    (h.search strategy target).rounds.length = (h.directSearch strategy target).rounds.length ∧
    Log.searched (h.chainer strategy) target =
      Log.ofRun strategy target (h.directSearch strategy target) := by
  have htracks := h.search_tracks strategy target
  refine ⟨htracks.result, htracks.rounds.length_eq.symm, ?_⟩
  rw [Log.searched_eq]
  exact Log.ofRun_of_tracks strategy target htracks

end Reasoner
