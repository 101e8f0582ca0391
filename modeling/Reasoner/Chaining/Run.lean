/-
The record of a search by chaining. A search goes in rounds; in each round
clauses may be pulled in, and then the clauses at hand are tried one after the
other (`Pass`). A run holds its rounds and how it ended, so that what was tried
and what was committed, and in which order, can be read off it.
-/
import Reasoner.Chaining.Firing

namespace Reasoner.Chaining

/-- A clause as it was tried, and what came of it. -/
structure Attempt where
  clause : Clause
  firing : Firing

/-- Trying the clauses at hand, each once. -/
structure Pass where
  /-- In the order of trying; a contradiction is the last. -/
  attempts : List Attempt
  /-- The clauses that wait, in order. -/
  waiting : List Clause
  result : Except Contradiction Knowledge

structure Round where
  pulled : List Clause
  attempts : List Attempt

inductive Outcome where
  /-- What became known decides the question. -/
  | decided (answer : Bool) (knowledge : Knowledge)
  /-- Nothing more can be derived; these clauses never fired. -/
  | undecided (knowledge : Knowledge) (unfired : List Clause)
  | contradictory (conflict : Contradiction)

structure Run where
  rounds : List Round
  outcome : Outcome

/-! ## Passes -/

/-- The symbol an attempt committed. -/
def Attempt.committed? (a : Attempt) : Option Symbol :=
  match a.firing with
  | .commits s _ _ => some s
  | _ => none

def Pass.done (k : Knowledge) : Pass where
  attempts := []
  waiting := []
  result := .ok k

/-- The attempt that ends a pass. -/
def Pass.aborted (a : Attempt) (conflict : Contradiction) : Pass where
  attempts := [a]
  waiting := []
  result := .error conflict

/-- A pass in which `a` came first. -/
def Pass.after (a : Attempt) (p : Pass) : Pass where
  attempts := a :: p.attempts
  waiting :=
    match a.firing with
    | .waits clause => clause :: p.waiting
    | _ => p.waiting
  result := p.result

/-- The symbols committed in a pass. -/
def Pass.committed (p : Pass) : List Symbol :=
  p.attempts.filterMap Attempt.committed?

/-! ## Runs -/

/-- A run of one round. -/
def Run.last (round : Round) (outcome : Outcome) : Run :=
  ⟨[round], outcome⟩

/-- A run in which `round` came first. -/
def Run.after (round : Round) (run : Run) : Run :=
  { run with rounds := round :: run.rounds }

/-- The verdict and what was learned; an undecided question is answered with no. -/
def Run.result (run : Run) : Except Contradiction (Bool × Knowledge) :=
  match run.outcome with
  | .decided answer k => .ok (answer, k)
  | .undecided k _ => .ok (false, k)
  | .contradictory e => .error e

end Reasoner.Chaining
