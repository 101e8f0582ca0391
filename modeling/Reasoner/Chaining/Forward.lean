/-
Forward chaining: every clause whose body is decided fires, until the question
is decided or nothing new can be derived. Every pass goes through all clauses
that wait before the question is looked at, so a contradiction in that pass
is reported and not hidden by an early answer. A clause fires at most once.
-/
import Reasoner.Chaining.Run

namespace Reasoner.Chaining.Forward

/-- Tries each clause in turn, with what the earlier ones made known. -/
def pass (rule : FiringRule) : Knowledge → List Clause → Pass
  | k, [] => .done k
  | k, c :: cs =>
    match rule c k with
    | .contradicts e => .aborted ⟨c, .contradicts e⟩ e
    | .waits c' => (pass rule k cs).after ⟨c, .waits c'⟩
    | .commits s b k' => (pass rule k' cs).after ⟨c, .commits s b k'⟩

/-- Passes over the clauses that wait, until one decides `target` or nothing fires. -/
def run (rule : FiringRule) (target : Formula) (k : Knowledge) (pending : List Clause) : Run :=
  let p := pass rule k pending
  let round : Round := ⟨[], p.attempts⟩
  match p.result with
  | .error e => .last round (.contradictory e)
  | .ok learned =>
    match verdict target learned with
    | some answer => .last round (.decided answer learned)
    | none =>
      if p.waiting.length < pending.length then (run rule target learned p.waiting).after round
      else .last round (.undecided learned p.waiting)
termination_by pending.length

/-- Looks for an answer to `target`, knowing nothing of `symbols` at first. -/
def search (symbols : List Symbol) (clauses : List Clause) (target : Formula) : Run :=
  run simplifying target (.ofSymbols symbols) clauses

end Reasoner.Chaining.Forward
