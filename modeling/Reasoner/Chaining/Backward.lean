/-
Backward chaining: only clauses that can contribute to the question take part.
A round first pulls in every clause whose consequent is a goal, and the symbols
of its body become goals as well; then the clauses at hand are tried. A clause
that fires leaves its place to the last one at hand, and its symbol is a goal
no more. The question is looked at after each round.
-/
import Reasoner.Chaining.Run

namespace Reasoner.Chaining.Backward

/-! ## Pulling clauses in -/

structure Pull where
  goals : List Symbol
  pulled : List Clause
  /-- The clauses that no goal asks for yet. -/
  left : List Clause

/-- Goes through the clauses once; the goals grow on the way. -/
def pull : List Symbol → List Clause → Pull
  | goals, [] => ⟨goals, [], []⟩
  | goals, c :: cs =>
    if c.consequent.symbol ∈ goals then
      let p := pull (Symbol.appendNew goals c.bodySymbols) cs
      { p with pulled := c :: p.pulled }
    else
      let p := pull goals cs
      { p with left := c :: p.left }

theorem length_pull (goals : List Symbol) (cs : List Clause) :
    (pull goals cs).pulled.length + (pull goals cs).left.length = cs.length := by
  induction cs generalizing goals with
  | nil => rfl
  | cons c cs ih =>
    unfold pull
    split
    · have := ih (Symbol.appendNew goals c.bodySymbols)
      simp only [List.length_cons]
      omega
    · have := ih goals
      simp only [List.length_cons]
      omega

/-! ## Trying the clauses at hand -/

/-- The last of a list put first. -/
def lastFirst {α : Type} : List α → List α
  | [] => []
  | x :: xs => (x :: xs).getLast (List.cons_ne_nil x xs) :: (x :: xs).dropLast

@[simp] theorem length_lastFirst {α : Type} (xs : List α) :
    (lastFirst xs).length = xs.length := by
  cases xs <;> simp [lastFirst]

/-- Tries each clause; where one fires the last one at hand is tried next. -/
def sweep (rule : FiringRule) : Knowledge → List Clause → Pass
  | k, [] => .done k
  | k, c :: cs =>
    match rule c k with
    | .contradicts e => .aborted ⟨c, .contradicts e⟩ e
    | .waits c' => (sweep rule k cs).after ⟨c, .waits c'⟩
    | .commits s b k' => (sweep rule k' (lastFirst cs)).after ⟨c, .commits s b k'⟩
termination_by _ cs => cs.length

theorem length_waiting_sweep (rule : FiringRule) (k : Knowledge) (cs : List Clause) :
    (sweep rule k cs).waiting.length ≤ cs.length := by
  fun_induction sweep rule k cs with
  | case1 => simp [Pass.done]
  | case2 => simp [Pass.aborted]
  | case3 => simpa [Pass.after]
  | case4 _ _ cs _ _ _ _ ih =>
    rw [length_lastFirst] at ih
    simp only [Pass.after, List.length_cons]
    omega

/-! ## The search -/

/-- A round that pulls or fires brings the search nearer to its end. -/
theorem measure_lt_of_progress {rule : FiringRule} {k : Knowledge} {goals : List Symbol}
    {unpulled active : List Clause}
    (h : ¬((pull goals unpulled).pulled = [] ∧
      (sweep rule k (active ++ (pull goals unpulled).pulled)).waiting.length = active.length)) :
    2 * (pull goals unpulled).left.length +
        (sweep rule k (active ++ (pull goals unpulled).pulled)).waiting.length <
      2 * unpulled.length + active.length := by
  have h1 := length_pull goals unpulled
  have h2 := length_waiting_sweep rule k (active ++ (pull goals unpulled).pulled)
  rw [List.length_append] at h2
  rw [← List.length_eq_zero_iff] at h
  omega

/-- Rounds of pulling and trying, until one decides `target` or changes nothing. -/
def run (rule : FiringRule) (target : Formula) (k : Knowledge)
    (goals : List Symbol) (unpulled active : List Clause) : Run :=
  let p := pull goals unpulled
  let s := sweep rule k (active ++ p.pulled)
  let round : Round := ⟨p.pulled, s.attempts⟩
  match s.result with
  | .error e => .last round (.contradictory e)
  | .ok learned =>
    match verdict target learned with
    | some answer => .last round (.decided answer learned)
    | none =>
      if _idle : p.pulled = [] ∧ s.waiting.length = active.length then
        .last round (.undecided learned s.waiting)
      else
        let unsolved := p.goals.filter (· ∉ s.committed)
        (run rule target learned unsolved p.left s.waiting).after round
termination_by 2 * unpulled.length + active.length
decreasing_by exact measure_lt_of_progress _idle

/-- Looks for an answer to `target`, knowing nothing of `symbols` at first. -/
def search (symbols : List Symbol) (clauses : List Clause) (target : Formula) : Run :=
  run simplifying target (.ofSymbols symbols) (Symbol.firstAppearances target.symbols) clauses []

end Reasoner.Chaining.Backward
