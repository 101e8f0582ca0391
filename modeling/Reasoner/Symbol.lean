/-
Propositional symbols. A symbol is its name, and two symbols are the same
exactly when their names are; nothing else about a symbol can be observed.
Lists of symbols that grow without repetitions keep the order of first
appearance (`insertNew`, `appendNew`).
-/

namespace Reasoner

/-- A propositional variable, identified by its name. -/
structure Symbol where
  name : String
deriving DecidableEq

namespace Symbol

/-- The form that shows a symbol for what it is, also where its name is empty. -/
def inspect (s : Symbol) : String :=
  "Symbol(" ++ s.name ++ ")"

/-! ## Lists without repetitions -/

/-- Adds `s` at the end unless it is listed already. -/
def insertNew (known : List Symbol) (s : Symbol) : List Symbol :=
  if s ∈ known then known else known ++ [s]

/-- Adds each of `added` in turn, skipping those listed already. -/
def appendNew (known added : List Symbol) : List Symbol :=
  added.foldl insertNew known

/-- The symbols of a list, each where it first appears. -/
def firstAppearances (symbols : List Symbol) : List Symbol :=
  appendNew [] symbols

@[simp] theorem appendNew_nil (known : List Symbol) : appendNew known [] = known := rfl

@[simp] theorem appendNew_cons (known : List Symbol) (s : Symbol) (added : List Symbol) :
    appendNew known (s :: added) = appendNew (insertNew known s) added := rfl

theorem appendNew_append (known xs ys : List Symbol) :
    appendNew known (xs ++ ys) = appendNew (appendNew known xs) ys :=
  List.foldl_append

theorem mem_insertNew {known : List Symbol} {s t : Symbol} :
    t ∈ insertNew known s ↔ t ∈ known ∨ t = s := by
  unfold insertNew
  split
  next h => exact ⟨.inl, fun ht => ht.elim id (fun e => e ▸ h)⟩
  next => simp

theorem mem_appendNew {known added : List Symbol} {t : Symbol} :
    t ∈ appendNew known added ↔ t ∈ known ∨ t ∈ added := by
  induction added generalizing known with
  | nil => simp
  | cons s added ih => simp [ih, mem_insertNew, or_assoc]

theorem mem_firstAppearances {symbols : List Symbol} {s : Symbol} :
    s ∈ firstAppearances symbols ↔ s ∈ symbols := by
  rw [firstAppearances, mem_appendNew]
  simp

end Symbol

end Reasoner
