/-
The store of knowledge and the history of its commits. A commit writes only where
nothing was written before, and one that is refused changes nothing, so the store shows
for each symbol the value it was first committed with, and its entries stand in the order
in which symbols were first mentioned, be it in the vocabulary or by a commit
(`Knowledge.Records`).
-/
import Reasoner.Proofs.Knowledge
import Reasoner.Proofs.KnowledgeBase

namespace Reasoner.Knowledge

/-- The store after commits made one after the other, whatever came of each. -/
def commitAll (k : Knowledge) (commits : List (Symbol × Bool)) : Knowledge :=
  commits.foldl (fun k c => (k.commit c.1 c.2).2) k

theorem commitAll_append (k : Knowledge) (earlier later : List (Symbol × Bool)) :
    k.commitAll (earlier ++ later) = (k.commitAll earlier).commitAll later :=
  List.foldl_append

/-- The store is what a vocabulary and a history of commits make of it. -/
structure Records (vocabulary : List Symbol) (commits : List (Symbol × Bool)) (k : Knowledge) :
    Prop where
  indexed : k.Indexed
  symbols : k.symbols = Symbol.firstAppearances (vocabulary ++ commits.map Prod.fst)
  /-- The first commit of a symbol counts. -/
  values : ∀ s, (k.valuation s).toBool? = commits.lookup s

namespace Records

variable {vocabulary : List Symbol} {commits : List (Symbol × Bool)} {k : Knowledge}

theorem start (vocabulary : List Symbol) : Records vocabulary [] (ofSymbols vocabulary) where
  indexed := indexed_ofSymbols vocabulary
  symbols := by rw [symbols_ofSymbols, List.map_nil, List.append_nil]
  values s := by rw [valuation_ofSymbols, List.lookup_nil, Truth.toBool?]

theorem valuation_of_lookup (h : Records vocabulary commits k) {s : Symbol} {b : Bool}
    (hs : commits.lookup s = some b) : k.valuation s = .ofBool b :=
  Truth.toBool?_eq_some.1 ((h.values s).trans hs)

theorem valuation_of_lookup_none (h : Records vocabulary commits k) {s : Symbol}
    (hs : commits.lookup s = none) : k.valuation s = .unknown :=
  Truth.toBool?_eq_none.1 ((h.values s).trans hs)

theorem lookup_concat (commits : List (Symbol × Bool)) (s t : Symbol) (b : Bool) :
    (commits ++ [(s, b)]).lookup t = (commits.lookup t).or (if t = s then some b else none) := by
  rw [List.lookup_append, List.lookup_cons, List.lookup_nil]
  by_cases ht : t = s
  · rw [if_pos ht, beq_iff_eq.2 ht]
  · rw [if_neg ht, beq_eq_false_iff_ne.2 ht]

/-- What a commit does to the store, and what it answers. -/
theorem commit_eq (h : Records vocabulary commits k) (s : Symbol) (b : Bool) :
    k.commit s b =
      match commits.lookup s with
      | none => (.ok true, k.commitAll [(s, b)])
      | some first => (if first = b then .ok false else .error ⟨s, first, b⟩, k) := by
  cases hs : commits.lookup s with
  | none =>
    obtain ⟨k', hcommit, -, -⟩ := commit_of_unknown h.indexed (h.valuation_of_lookup_none hs) b
    rw [commitAll, List.foldl_cons, List.foldl_nil, hcommit]
  | some first => exact commit_of_known (h.valuation_of_lookup hs) b

/-- One commit more. -/
theorem commit (h : Records vocabulary commits k) (s : Symbol) (b : Bool) :
    Records vocabulary (commits ++ [(s, b)]) (k.commit s b).2 := by
  have hsymbols : (k.commit s b).2.symbols =
      Symbol.firstAppearances (vocabulary ++ (commits ++ [(s, b)]).map Prod.fst) := by
    rw [h.indexed.symbols_commit, h.symbols, List.map_append, ← List.append_assoc]
    exact (Symbol.appendNew_append [] _ [s]).symm
  cases hs : commits.lookup s with
  | none =>
    have hopen := h.valuation_of_lookup_none hs
    obtain ⟨k', hcommit, hindexed, hvaluation⟩ := commit_of_unknown h.indexed hopen b
    rw [hcommit] at hsymbols ⊢
    refine ⟨hindexed, hsymbols, fun t => ?_⟩
    rw [hvaluation, lookup_concat]
    by_cases ht : t = s
    · rw [ht, Function.update_self, Truth.toBool?_ofBool, hs, if_pos rfl, Option.none_or]
    · rw [Function.update_of_ne ht, h.values, if_neg ht, Option.or_none]
  | some first =>
    -- the store stays as it was, and so does the first commit of every symbol
    have hsame : (k.commit s b).2 = k := by rw [commit_of_known (h.valuation_of_lookup hs) b]
    rw [hsame] at hsymbols ⊢
    refine ⟨h.indexed, hsymbols, fun t => ?_⟩
    rw [h.values, lookup_concat]
    by_cases ht : t = s
    · rw [ht, hs, Option.some_or]
    · rw [if_neg ht, Option.or_none]

theorem commitAll (vocabulary : List Symbol) (commits : List (Symbol × Bool)) :
    Records vocabulary commits ((ofSymbols vocabulary).commitAll commits) := by
  induction commits using List.reverseRecOn with
  | nil => exact start vocabulary
  | append_singleton commits c ih =>
    rw [commitAll_append]
    exact ih.commit c.1 c.2

theorem nodup (h : Records vocabulary commits k) : k.symbols.Nodup := by
  rw [h.symbols]
  exact Symbol.nodup_firstAppearances _

end Records

/-- **The first write wins.** Whatever was committed, and whether it was accepted or not: no
symbol has two entries, the index leads to the entry of each, and the entries follow the
vocabulary and then the commits; a symbol has the value of its first commit, and is listed
among those with that value, in the order of the entries. A further commit is news where the
symbol was never committed; otherwise it is compared with the first one, and leaves the
store as it was. -/
theorem first_write_wins (vocabulary : List Symbol) (commits : List (Symbol × Bool)) :
    let k := (ofSymbols vocabulary).commitAll commits
    k.symbols.Nodup ∧ k.Indexed ∧
    k.symbols = Symbol.firstAppearances (vocabulary ++ commits.map Prod.fst) ∧
    (∀ s, (k.valuation s).toBool? = commits.lookup s) ∧
    (∀ b, k.knownAs b = k.symbols.filter fun s => k.valuation s = .ofBool b) ∧
    ∀ s b, k.commit s b =
      match commits.lookup s with
      | none => (.ok true, k.commitAll [(s, b)])
      | some first => (if first = b then .ok false else .error ⟨s, first, b⟩, k) := by
  intro k
  have h : Records vocabulary commits k := Records.commitAll vocabulary commits
  exact ⟨h.nodup, h.indexed, h.symbols, h.values, h.indexed.knownAs_eq_filter, h.commit_eq⟩

end Reasoner.Knowledge
