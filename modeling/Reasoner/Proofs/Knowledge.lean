/-
The store of knowledge, read through its valuation. As long as the index agrees
with the entries (`Knowledge.Indexed`), which every operation keeps, a commit
changes the valuation at its own symbol only and only from unknown
(`commit_of_unknown`); a commit of a known symbol leaves the store as it is
(`commit_of_known`). The entries stand in order of first appearance
(`symbols_ofSymbols`, `Indexed.symbols_commit`).
-/
import Mathlib.Logic.Function.Basic
import Reasoner.Knowledge
import Reasoner.Proofs.Valuation

namespace Reasoner.Knowledge

/-- The symbol whose entry stands at a place. -/
def symbolAt (k : Knowledge) (i : Nat) : Option Symbol :=
  k.entries[i]?.map Prod.fst

/-- The index leads to the entry of each symbol, and to no other. -/
def Indexed (k : Knowledge) : Prop :=
  ∀ s i, k.index s = some i ↔ k.symbolAt i = some s

theorem indexed_empty : empty.Indexed := by
  intro s i
  simp [empty, symbolAt]

theorem valuation_empty (s : Symbol) : empty.valuation s = .unknown := rfl

theorem valuation_of_index {k : Knowledge} {s : Symbol} {i : Nat} (h : k.index s = some i) :
    k.valuation s = k.valueAt i := by
  simp only [valuation, h]

/-! ## Finding the entry -/

theorem locate_of_index {k : Knowledge} {s : Symbol} {i : Nat} (h : k.index s = some i) :
    k.locate s = (i, k) := by
  simp only [locate, h]

theorem index_locate (k : Knowledge) (s : Symbol) :
    (k.locate s).2.index s = some (k.locate s).1 := by
  unfold locate
  split
  next i hi => exact hi
  next => simp

/-- An index leads to an entry. -/
theorem Indexed.lt_length {k : Knowledge} (hk : k.Indexed) {s : Symbol} {i : Nat}
    (h : k.index s = some i) : i < k.entries.length := by
  obtain ⟨e, he, -⟩ := Option.map_eq_some_iff.1 ((hk s i).1 h)
  exact (List.getElem?_eq_some_iff.1 he).1

theorem map_getElem?_concat (entries : List (Symbol × Truth)) (e : Symbol × Truth) (i : Nat) :
    (entries ++ [e])[i]?.map Prod.fst =
      if i = entries.length then some e.1 else entries[i]?.map Prod.fst := by
  rcases Nat.lt_trichotomy i entries.length with hi | rfl | hi
  · rw [List.getElem?_append_left hi, if_neg (by omega)]
  · simp
  · have hnew : (entries ++ [e])[i]? = none := List.getElem?_eq_none (by simp; omega)
    have hold : entries[i]? = none := List.getElem?_eq_none (by omega)
    rw [hnew, hold, if_neg (by omega)]

theorem Indexed.locate {k : Knowledge} (hk : k.Indexed) (s : Symbol) :
    (k.locate s).2.Indexed := by
  unfold Knowledge.locate
  split
  next => exact hk
  next hs =>
    intro t i
    rw [symbolAt, map_getElem?_concat]
    by_cases hi : i = k.entries.length
    · -- the new place is that of `s`, and the old index leads nowhere past the entries
      have hold : k.index t ≠ some i := fun h => absurd (hk.lt_length h) (by omega)
      by_cases ht : t = s
      · simp [hi, ht]
      · simp only [hi, ht, if_true, if_false, Option.some.injEq, Ne.symm ht, iff_false]
        rwa [hi] at hold
    · by_cases ht : t = s
      · -- `s` had no place before
        have hnone : k.symbolAt i ≠ some s := by
          rw [Ne, ← hk s i, hs]
          simp
        simp only [hi, ht, if_true, if_false, Option.some.injEq]
        exact iff_of_false (Ne.symm hi) hnone
      · simp only [hi, ht, if_false]
        exact hk t i

theorem valuation_locate {k : Knowledge} (hk : k.Indexed) (s : Symbol) :
    (k.locate s).2.valuation = k.valuation := by
  unfold Knowledge.locate
  split
  next => rfl
  next hs =>
    funext t
    by_cases ht : t = s
    · subst ht
      simp [valuation, valueAt, hs]
    · simp only [valuation, ht, if_false]
      split
      next i hi => simp only [valueAt, List.getElem?_append_left (hk.lt_length hi)]
      next => rfl

theorem indexed_ofSymbols (symbols : List Symbol) : (ofSymbols symbols).Indexed := by
  suffices h : ∀ k : Knowledge, k.Indexed →
      (symbols.foldl (fun k s => (k.locate s).2) k).Indexed from h empty indexed_empty
  induction symbols with
  | nil => exact fun k hk => hk
  | cons s symbols ih => exact fun k hk => ih _ (hk.locate s)

/-- Nothing is known at first. -/
theorem valuation_ofSymbols (symbols : List Symbol) (s : Symbol) :
    (ofSymbols symbols).valuation s = .unknown := by
  suffices h : ∀ k : Knowledge, k.Indexed →
      (symbols.foldl (fun k s => (k.locate s).2) k).valuation = k.valuation by
    rw [ofSymbols, h empty indexed_empty, valuation_empty]
  induction symbols with
  | nil => exact fun k _ => rfl
  | cons t symbols ih =>
    intro k hk
    rw [List.foldl_cons, ih _ (hk.locate t), valuation_locate hk]

/-! ## Committing -/

/-- Writing a value moves no entry. -/
theorem map_getElem?_modify (entries : List (Symbol × Truth)) (i : Nat) (t : Truth) (j : Nat) :
    (entries.modify i fun (u, _) => (u, t))[j]?.map Prod.fst = entries[j]?.map Prod.fst := by
  rw [List.getElem?_modify]
  cases entries[j]? with
  | none => rfl
  | some e => by_cases hij : i = j <;> simp [hij]

/-- Writing the entry of a symbol changes the valuation there and nowhere else. -/
theorem Indexed.write {k : Knowledge} (hk : k.Indexed) {s : Symbol} {i : Nat}
    (hi : k.index s = some i) (t : Truth) :
    ({ k with entries := k.entries.modify i fun (u, _) => (u, t) } : Knowledge).Indexed ∧
      ({ k with entries := k.entries.modify i fun (u, _) => (u, t) } : Knowledge).valuation =
        Function.update k.valuation s t := by
  refine ⟨fun u j => ?_, funext fun u => ?_⟩
  · rw [symbolAt, map_getElem?_modify]
    exact hk u j
  · by_cases hu : u = s
    · subst hu
      obtain ⟨e, he, -⟩ := Option.map_eq_some_iff.1 ((hk u i).1 hi)
      simp [valuation, valueAt, hi, he]
    · rw [Function.update_of_ne hu]
      simp only [valuation]
      split
      next j hj =>
        have hij : i ≠ j := by
          rintro rfl
          exact hu (Option.some.inj (((hk u i).1 hj).symm.trans ((hk s i).1 hi)))
        simp only [valueAt, List.getElem?_modify_ne _ _ hij]
      next => rfl

theorem commit_of_unknown {k : Knowledge} (hk : k.Indexed) {s : Symbol}
    (hs : k.valuation s = .unknown) (b : Bool) :
    ∃ k' : Knowledge, k.commit s b = (.ok true, k') ∧ k'.Indexed ∧
      k'.valuation = Function.update k.valuation s (.ofBool b) := by
  have hi := index_locate k s
  have hval : (k.locate s).2.valueAt (k.locate s).1 = .unknown := by
    rw [← valuation_of_index hi, valuation_locate hk, hs]
  refine ⟨_, ?_, ((hk.locate s).write hi (.ofBool b)).1, ?_⟩
  · simp only [commit, hval, Truth.toBool?]
  · rw [((hk.locate s).write hi (.ofBool b)).2, valuation_locate hk]

/-- A symbol that is known keeps its value, and the other value is refused. -/
theorem commit_of_known {k : Knowledge} {s : Symbol} {known : Bool}
    (hs : k.valuation s = .ofBool known) (b : Bool) :
    k.commit s b = (if known = b then .ok false else .error ⟨s, known, b⟩, k) := by
  rcases hi : k.index s with _ | i
  · simp only [valuation, hi] at hs
    exact absurd hs.symm (Truth.ofBool_ne_unknown known)
  · have hval : k.valueAt i = .ofBool known := by rw [← valuation_of_index hi, hs]
    simp only [commit, locate_of_index hi, hval, Truth.toBool?_ofBool]
    split <;> rfl

/-! ## The entries in order -/

/-- The symbols that have an entry, in order. -/
def symbols (k : Knowledge) : List Symbol :=
  k.entries.map Prod.fst

theorem symbolAt_eq (k : Knowledge) (i : Nat) : k.symbolAt i = k.symbols[i]? :=
  List.getElem?_map.symm

theorem knownAs_sublist (k : Knowledge) (b : Bool) : (k.knownAs b).Sublist k.symbols :=
  List.filter_sublist.map Prod.fst

namespace Indexed

variable {k : Knowledge} (hk : k.Indexed)
include hk

theorem mem_symbols {s : Symbol} : s ∈ k.symbols ↔ ∃ i, k.index s = some i := by
  rw [List.mem_iff_getElem?]
  exact exists_congr fun i => by rw [← symbolAt_eq, hk s i]

/-- A symbol without an entry gets one after all others. -/
theorem symbols_locate (s : Symbol) : (k.locate s).2.symbols = Symbol.insertNew k.symbols s := by
  unfold Symbol.insertNew
  split
  next hs =>
    obtain ⟨i, hi⟩ := hk.mem_symbols.1 hs
    rw [locate_of_index hi]
  next hs =>
    have hnone : k.index s = none := by
      rw [Option.eq_none_iff_forall_ne_some]
      exact fun i hi => hs (hk.mem_symbols.2 ⟨i, hi⟩)
    simp [Knowledge.locate, hnone, symbols]

theorem symbols_commit (s : Symbol) (b : Bool) :
    (k.commit s b).2.symbols = Symbol.insertNew k.symbols s := by
  rw [← hk.symbols_locate s]
  simp only [commit]
  split
  next =>
    -- writing a value moves no entry
    refine List.ext_getElem? fun i => ?_
    rw [symbols, symbols, List.getElem?_map, List.getElem?_map, map_getElem?_modify]
  next => split <;> rfl

theorem valuation_of_mem {s : Symbol} {t : Truth} (h : (s, t) ∈ k.entries) : k.valuation s = t := by
  obtain ⟨i, hi⟩ := List.mem_iff_getElem?.1 h
  have hindex : k.index s = some i := (hk s i).2 (by simp [symbolAt, hi])
  rw [valuation_of_index hindex, valueAt, hi]
  rfl

theorem mem_symbols_of_known {s : Symbol} (h : k.valuation s ≠ .unknown) : s ∈ k.symbols := by
  rcases hi : k.index s with _ | i
  · simp [valuation, hi] at h
  · exact hk.mem_symbols.2 ⟨i, hi⟩

/-- The symbols listed with a value stand in the order of the entries. -/
theorem knownAs_eq_filter (b : Bool) :
    k.knownAs b = k.symbols.filter fun s => k.valuation s = .ofBool b := by
  rw [symbols, List.filter_map, knownAs]
  refine congrArg (List.map Prod.fst) (List.filter_congr fun e he => ?_)
  rw [Function.comp_apply, hk.valuation_of_mem he]

/-- The symbols listed with a value are those that have it. -/
theorem mem_knownAs {s : Symbol} {b : Bool} : s ∈ k.knownAs b ↔ k.valuation s = .ofBool b := by
  rw [hk.knownAs_eq_filter, List.mem_filter, decide_eq_true_eq, and_iff_right_iff_imp]
  intro hs
  exact hk.mem_symbols_of_known (hs ▸ Truth.ofBool_ne_unknown b)

end Indexed

theorem symbols_ofSymbols (symbols : List Symbol) :
    (ofSymbols symbols).symbols = Symbol.firstAppearances symbols := by
  suffices h : ∀ k : Knowledge, k.Indexed →
      (symbols.foldl (fun k s => (k.locate s).2) k).symbols = Symbol.appendNew k.symbols symbols from
    h empty indexed_empty
  induction symbols with
  | nil => exact fun k _ => rfl
  | cons s symbols ih =>
    intro k hk
    rw [List.foldl_cons, ih _ (hk.locate s), hk.symbols_locate, Symbol.appendNew_cons]

end Reasoner.Knowledge
