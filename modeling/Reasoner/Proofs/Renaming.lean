/-
Renaming. A renaming gives every symbol another name, no two symbols the same one, and
leaves all else as it is. What is made of symbols can be renamed, and what is computed
from it comes out renamed: values of formulas stay the same and simplified formulas are
renamed (`Formula.value_rename`, `Formula.simplify_rename`), lists without repetitions keep
their order (`Symbol.appendNew_rename`), and a store of knowledge keeps its entries where they
are (`Knowledge.commit_rename`).
-/
import Mathlib.Data.List.Basic
import Mathlib.Logic.Function.Basic
import Reasoner.Clause
import Reasoner.Knowledge

namespace Reasoner

/-- New names for the symbols, no two of them the same. -/
structure Renaming where
  symbol : Symbol → Symbol
  injective : Function.Injective symbol
  /-- How a text reads under the new names; any wording will do. -/
  wording : String → String

variable (ρ : Renaming)

namespace Renaming

@[simp] theorem symbol_inj {s t : Symbol} : ρ.symbol s = ρ.symbol t ↔ s = t :=
  ρ.injective.eq_iff

@[simp] theorem symbol_mem {s : Symbol} {symbols : List Symbol} :
    ρ.symbol s ∈ symbols.map ρ.symbol ↔ s ∈ symbols :=
  List.mem_map_of_injective ρ.injective

end Renaming

/-! ## Lists without repetitions -/

namespace Symbol

theorem insertNew_rename (known : List Symbol) (s : Symbol) :
    insertNew (known.map ρ.symbol) (ρ.symbol s) = (insertNew known s).map ρ.symbol := by
  by_cases hs : s ∈ known
  · simp [insertNew, hs]
  · simp [insertNew, hs]

theorem appendNew_rename (known added : List Symbol) :
    appendNew (known.map ρ.symbol) (added.map ρ.symbol) = (appendNew known added).map ρ.symbol := by
  induction added generalizing known with
  | nil => rfl
  | cons s added ih => rw [List.map_cons, appendNew_cons, insertNew_rename, ih, appendNew_cons]

theorem firstAppearances_rename (symbols : List Symbol) :
    firstAppearances (symbols.map ρ.symbol) = (firstAppearances symbols).map ρ.symbol :=
  appendNew_rename ρ [] symbols

end Symbol

/-! ## Formulas -/

namespace Formula

def rename : Formula → Formula
  | verum => verum
  | symbol s => symbol (ρ.symbol s)
  | not p => not p.rename
  | binary c l r => binary c l.rename r.rename

@[simp] theorem symbols_rename (p : Formula) : (p.rename ρ).symbols = p.symbols.map ρ.symbol := by
  induction p with
  | verum => rfl
  | symbol s => rfl
  | not p ih => exact ih
  | binary c l r ihl ihr => simp only [rename, symbols, ihl, ihr, List.map_append]

/-- A renamed formula is true where the formula is true of the symbols behind the names. -/
@[simp] theorem holds_rename (w : World) (p : Formula) :
    (p.rename ρ).holds w = p.holds (w ∘ ρ.symbol) := by
  induction p with
  | verum => rfl
  | symbol s => rfl
  | not p ih => simp only [rename, holds, ih]
  | binary c l r ihl ihr => simp only [rename, holds, ihl, ihr]

@[simp] theorem value_rename (k : Valuation) (p : Formula) :
    (p.rename ρ).value k = p.value (k ∘ ρ.symbol) := by
  induction p with
  | verum => rfl
  | symbol s => rfl
  | not p ih => simp only [rename, value, ih]
  | binary c l r ihl ihr => simp only [rename, value, ihl, ihr]

/-! ### Simplification -/

@[simp] theorem constant?_rename (p : Formula) : (p.rename ρ).constant? = p.constant? := by
  cases p with
  | verum => rfl
  | symbol s => rfl
  | not p => cases p <;> rfl
  | binary c l r => rfl

@[simp] theorem rename_ofBool (b : Bool) : (ofBool b).rename ρ = ofBool b := by
  cases b <;> rfl

theorem negate_rename (p : Formula) : (p.rename ρ).negate = p.negate.rename ρ := by
  simp only [negate, constant?_rename]
  cases p.constant? with
  | none => rfl
  | some b => exact (rename_ofBool ρ _).symm

theorem combine_rename (c : Connective) (l r : Formula) :
    combine c (l.rename ρ) (r.rename ρ) = (combine c l r).rename ρ := by
  cases c <;>
    simp only [combine, conjoin, disjoin, conditional, equate, constant?_rename, negate_rename] <;>
    rcases l.constant? with _ | _ | _ <;> rcases r.constant? with _ | _ | _ <;> rfl

theorem simplify_rename (k : Valuation) (p : Formula) :
    (p.rename ρ).simplify k = (p.simplify (k ∘ ρ.symbol)).rename ρ := by
  induction p with
  | verum => rfl
  | symbol s =>
    simp only [rename, simplify, Function.comp_apply]
    cases (k (ρ.symbol s)).toBool? with
    | none => rfl
    | some b => exact (rename_ofBool ρ b).symm
  | not p ih => simp only [rename, simplify, ih, negate_rename]
  | binary c l r ihl ihr => simp only [rename, simplify, ihl, ihr, combine_rename]

end Formula

/-! ## Knowledge -/

def Contradiction.rename (e : Contradiction) : Contradiction :=
  { e with symbol := ρ.symbol e.symbol }

namespace Knowledge

/-- The same entries under the new names; a name that no symbol has is not indexed. -/
noncomputable def rename (k : Knowledge) : Knowledge where
  entries := k.entries.map (Prod.map ρ.symbol id)
  index := Function.extend ρ.symbol k.index fun _ => none

@[simp] theorem index_rename (k : Knowledge) (s : Symbol) :
    (k.rename ρ).index (ρ.symbol s) = k.index s :=
  ρ.injective.extend_apply k.index (fun _ => none) s

@[simp] theorem valueAt_rename (k : Knowledge) (i : Nat) : (k.rename ρ).valueAt i = k.valueAt i := by
  simp only [valueAt, rename, List.getElem?_map, Option.map_map]
  rfl

/-- What is known of a symbol is known of it under its new name. -/
@[simp] theorem valuation_rename (k : Knowledge) :
    (k.rename ρ).valuation ∘ ρ.symbol = k.valuation := by
  funext s
  simp only [Function.comp_apply, valuation, index_rename, valueAt_rename]

@[simp] theorem knownAs_rename (k : Knowledge) (b : Bool) :
    (k.rename ρ).knownAs b = (k.knownAs b).map ρ.symbol := by
  simp only [knownAs, rename, List.filter_map, List.map_map]
  rfl

/-- Renaming an index and then adding a name is adding the symbol first. -/
theorem extend_update (index : Symbol → Option Nat) (s : Symbol) (i : Nat) :
    (fun t => if t = ρ.symbol s then some i else Function.extend ρ.symbol index (fun _ => none) t) =
      Function.extend ρ.symbol (fun t => if t = s then some i else index t) fun _ => none := by
  funext t
  by_cases ht : ∃ u, ρ.symbol u = t
  · obtain ⟨u, rfl⟩ := ht
    simp only [ρ.injective.extend_apply, ρ.symbol_inj]
  · have hne : t ≠ ρ.symbol s := fun h => ht ⟨s, h.symm⟩
    rw [if_neg hne, Function.extend_apply' _ _ _ ht, Function.extend_apply' _ _ _ ht]

theorem locate_rename (k : Knowledge) (s : Symbol) :
    (k.rename ρ).locate (ρ.symbol s) = ((k.locate s).1, (k.locate s).2.rename ρ) := by
  unfold locate
  rw [index_rename]
  cases k.index s with
  | some i => rfl
  | none => simp only [rename, List.length_map, extend_update, List.map_append]; rfl

@[simp] theorem rename_empty : empty.rename ρ = empty := by
  have hindex : Function.extend ρ.symbol (fun _ => (none : Option Nat)) (fun _ => none) =
      fun _ => none := by
    funext t
    by_cases ht : ∃ u, ρ.symbol u = t
    · obtain ⟨u, rfl⟩ := ht
      rw [ρ.injective.extend_apply]
    · rw [Function.extend_apply' _ _ _ ht]
  simp only [rename, empty, hindex, List.map_nil]

theorem ofSymbols_rename (symbols : List Symbol) :
    ofSymbols (symbols.map ρ.symbol) = (ofSymbols symbols).rename ρ := by
  suffices h : ∀ k : Knowledge,
      (symbols.map ρ.symbol).foldl (fun k s => (k.locate s).2) (k.rename ρ) =
        (symbols.foldl (fun k s => (k.locate s).2) k).rename ρ by
    have hempty := h empty
    rwa [rename_empty] at hempty
  induction symbols with
  | nil => exact fun k => rfl
  | cons s symbols ih =>
    intro k
    rw [List.map_cons, List.foldl_cons, locate_rename, ih, List.foldl_cons]

/-- Writing a value does not look at names. -/
theorem modify_rename (entries : List (Symbol × Truth)) (i : Nat) (t : Truth) :
    (entries.map (Prod.map ρ.symbol id)).modify i (fun (s, _) => (s, t)) =
      (entries.modify i fun (s, _) => (s, t)).map (Prod.map ρ.symbol id) := by
  refine List.ext_getElem? fun j => ?_
  rw [List.getElem?_modify, List.getElem?_map, List.getElem?_map, List.getElem?_modify]
  cases entries[j]? with
  | none => rfl
  | some e => by_cases hij : i = j <;> simp [hij]

theorem commit_rename (k : Knowledge) (s : Symbol) (b : Bool) :
    (k.rename ρ).commit (ρ.symbol s) b =
      ((k.commit s b).1.mapError (·.rename ρ), (k.commit s b).2.rename ρ) := by
  simp only [commit, locate_rename, valueAt_rename]
  generalize (k.locate s).1 = i
  generalize (k.locate s).2 = j
  cases (j.valueAt i).toBool? with
  | none =>
    simp only [rename, modify_rename]
    rfl
  | some known => by_cases hb : known = b <;> simp only [hb, if_true, if_false] <;> rfl

end Knowledge

/-! ## Sentences and clauses -/

def Sentence.rename (s : Sentence) : Sentence where
  text := ρ.wording s.text
  formula := s.formula.rename ρ

@[simp] theorem Sentence.symbols_rename (s : Sentence) :
    (s.rename ρ).symbols = s.symbols.map ρ.symbol :=
  Formula.symbols_rename ρ s.formula

def Literal.rename (l : Literal) : Literal :=
  { l with symbol := ρ.symbol l.symbol }

theorem Literal.ofFormula?_rename (p : Formula) :
    ofFormula? (p.rename ρ) = (ofFormula? p).map (·.rename ρ) := by
  cases p with
  | verum => rfl
  | symbol s => rfl
  | not p => cases p <;> rfl
  | binary c l r => rfl

def MalformedClause.rename (e : MalformedClause) : MalformedClause where
  text := ρ.wording e.text

namespace Clause

def rename (c : Clause) : Clause where
  source := c.source.rename ρ
  body := c.body.rename ρ
  consequent := c.consequent.rename ρ

theorem parts_rename (p : Formula) :
    parts (p.rename ρ) = ((parts p).1.rename ρ, (parts p).2.map (·.rename ρ)) := by
  cases p with
  | verum => rfl
  | symbol s => rfl
  | not p => cases p <;> rfl
  | binary c l r => cases c <;> simp only [Formula.rename, parts, Literal.ofFormula?_rename] <;> rfl

theorem ofSentence_rename (s : Sentence) :
    ofSentence (s.rename ρ) = ((ofSentence s).map (·.rename ρ)).mapError (·.rename ρ) := by
  simp only [ofSentence, Sentence.rename, parts_rename]
  generalize parts s.formula = p
  obtain ⟨body, _ | consequent⟩ := p <;> rfl

@[simp] theorem bodySymbols_rename (c : Clause) :
    (c.rename ρ).bodySymbols = c.bodySymbols.map ρ.symbol := by
  simp only [bodySymbols, rename, Formula.symbols_rename, Symbol.firstAppearances_rename]

theorem simplify_rename (k : Valuation) (c : Clause) :
    (c.rename ρ).simplify k = (c.simplify (k ∘ ρ.symbol)).rename ρ := by
  simp only [simplify, rename, Formula.simplify_rename]

@[simp] theorem isDecided_rename (c : Clause) : (c.rename ρ).isDecided = c.isDecided := by
  simp only [isDecided, rename, Formula.isConstant, Formula.constant?_rename]

theorem proves_rename (k : Valuation) (c : Clause) :
    (c.rename ρ).proves k = Prod.map ρ.symbol id (c.proves (k ∘ ρ.symbol)) := by
  simp only [proves, rename, Literal.rename, Formula.value_rename, Prod.map, id]

end Clause

end Reasoner
