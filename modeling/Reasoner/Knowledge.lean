/-
What is known so far about the symbols of a vocabulary. Every symbol starts out
unknown; the first value committed for it stays, and a later commit of the
other value is a contradiction. Entries keep the order of first appearance,
and an index says where the entry of each symbol stands.
-/
import Reasoner.Formula

namespace Reasoner

/-- Two derivations disagree on a symbol. -/
structure Contradiction where
  symbol : Symbol
  /-- The value held before. -/
  known : Bool
  derived : Bool
deriving DecidableEq

/-- Three-valued knowledge, entry by entry. -/
structure Knowledge where
  entries : List (Symbol × Truth)
  /-- The place of each symbol's entry. -/
  index : Symbol → Option Nat

def Contradiction.message (e : Contradiction) : String :=
  "knowledge base is contradictory: `" ++ e.symbol.name ++ "` is known to be "
    ++ toString e.known ++ " but was derived " ++ toString e.derived

namespace Knowledge

def empty : Knowledge where
  entries := []
  index := fun _ => none

/-! ## Reading -/

/-- The value of the entry at a place. -/
def valueAt (k : Knowledge) (i : Nat) : Truth :=
  (k.entries[i]?.map Prod.snd).getD .unknown

/-- What is known of each symbol. -/
def valuation (k : Knowledge) : Valuation := fun s =>
  match k.index s with
  | some i => k.valueAt i
  | none => .unknown

/-- The symbols known to have value `b`, in order. -/
def knownAs (k : Knowledge) (b : Bool) : List Symbol :=
  (k.entries.filter fun (_, t) => t = .ofBool b).map Prod.fst

/-! ## Writing -/

/-- The place of `s`, in a store that has an entry for it. -/
def locate (k : Knowledge) (s : Symbol) : Nat × Knowledge :=
  match k.index s with
  | some i => (i, k)
  | none =>
    let i := k.entries.length
    (i, { entries := k.entries ++ [(s, .unknown)],
          index := fun t => if t = s then some i else k.index t })

/-- Every symbol of a list, all of them unknown. -/
def ofSymbols (symbols : List Symbol) : Knowledge :=
  symbols.foldl (fun k s => (k.locate s).2) empty

/-- Records a value; the answer is whether the symbol was unknown until now. -/
def commit (k : Knowledge) (s : Symbol) (b : Bool) : Except Contradiction Bool × Knowledge :=
  let (i, k) := k.locate s
  match (k.valueAt i).toBool? with
  | none => (.ok true, { k with entries := k.entries.modify i fun (t, _) => (t, .ofBool b) })
  | some known =>
    if known = b then (.ok false, k) else (.error ⟨s, known, b⟩, k)

end Knowledge

end Reasoner
