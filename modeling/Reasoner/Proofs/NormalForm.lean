/-
What simplification leaves of a formula. Whatever a connective with a constant operand
does to the other operand commutes with further simplification, so one simplification
after the other is one under what both valuations know together (`simplify_simplify`).
The formulas that come out hold no constant, except as a whole, and no known symbol
(`Simplified`): all results are of this kind (`simplified_simplify`), and these are the
formulas that simplification leaves as they are (`simplify_eq_self_iff`).
-/
import Mathlib.Data.List.Chain
import Reasoner.Proofs.Simplification

namespace Reasoner

namespace Formula

/-! ## One simplification after the other -/

@[simp] theorem simplify_ofBool (k : Valuation) (b : Bool) : (ofBool b).simplify k = ofBool b := by
  cases b <;> rfl

theorem simplify_of_known {k : Valuation} {s : Symbol} {b : Bool} (h : k s = .ofBool b) :
    (symbol s).simplify k = ofBool b := by
  simp only [simplify, h, Truth.toBool?_ofBool]

theorem simplify_of_unknown {k : Valuation} {s : Symbol} (h : k s = .unknown) :
    (symbol s).simplify k = symbol s := by
  simp only [simplify, h, Truth.toBool?]

theorem simplify_negate (k : Valuation) (p : Formula) :
    p.negate.simplify k = (p.simplify k).negate := by
  rcases p.ofBool_or_open with ⟨b, rfl⟩ | hp
  · rw [negate_ofBool, simplify_ofBool, simplify_ofBool, negate_ofBool]
  · rw [negate_of_open hp, simplify]

theorem simplify_apply (k : Valuation) (e : Effect) (p : Formula) :
    (e.apply p).simplify k = e.apply (p.simplify k) := by
  cases e with
  | settle b => exact simplify_ofBool k b
  | keep => rfl
  | negate => exact simplify_negate k p

/-- Whether operands are simplified before or after a connective joins them is all the
same. -/
theorem simplify_combine (k : Valuation) (c : Connective) (l r : Formula) :
    (combine c l r).simplify k = combine c (l.simplify k) (r.simplify k) := by
  rcases combine_cases c l r with ⟨b, rfl, h⟩ | ⟨b, rfl, h⟩ | ⟨hl, hr⟩
  · rw [simplify_ofBool, h, h, simplify_apply]
  · rw [simplify_ofBool, h, h, simplify_apply]
  · rw [combine_of_open c hl hr, simplify]

end Formula

/-- The first value, or the second where the first is unknown. -/
def Truth.orElse : Truth → Truth → Truth
  | .unknown, u => u
  | t, _ => t

/-- What `k` knows, and what `j` knows of the rest. -/
def Valuation.orElse (k j : Valuation) : Valuation := fun s => (k s).orElse (j s)

theorem Valuation.orElse_of_le {k j : Valuation} (h : k ≤ j) : k.orElse j = j := by
  funext s
  rcases h s with hs | hs
  · rw [Valuation.orElse, hs, Truth.orElse]
  · rw [Valuation.orElse, hs]
    cases j s <;> rfl

namespace Formula

/-- **Simplifications compose.** -/
theorem simplify_simplify (k j : Valuation) (p : Formula) :
    (p.simplify k).simplify j = p.simplify (k.orElse j) := by
  induction p with
  | verum => rfl
  | symbol s =>
    rcases (k s).unknown_or_ofBool with hs | ⟨b, hs⟩
    · have hj : k.orElse j s = j s := by rw [Valuation.orElse, hs, Truth.orElse]
      rw [simplify_of_unknown hs, simplify, simplify, hj]
    · have hk : k.orElse j s = .ofBool b := by
        rw [Valuation.orElse, hs]
        cases b <;> rfl
      rw [simplify_of_known hs, simplify_ofBool, simplify_of_known hk]
  | not p ih => rw [simplify, simplify_negate, ih, simplify]
  | binary c l r ihl ihr => rw [simplify, simplify_combine, ihl, ihr, simplify]

/-- The formula simplified under one valuation after the other. -/
def simplifyAll (p : Formula) (ks : List Valuation) : Formula :=
  ks.foldl (fun q k => q.simplify k) p

theorem simplifyAll_cons (p : Formula) (k : Valuation) (later : List Valuation) :
    p.simplifyAll (k :: later) = p.simplify (later.foldl Valuation.orElse k) := by
  induction later generalizing k with
  | nil => rfl
  | cons j later ih =>
    have hstep : p.simplifyAll (k :: j :: later) = p.simplifyAll (k.orElse j :: later) := by
      simp only [simplifyAll, List.foldl_cons, simplify_simplify]
    rw [hstep, ih, List.foldl_cons]

/-- Where each valuation knows what the one before it knew, the last knows it all. -/
theorem foldl_orElse_of_isChain {k : Valuation} {later : List Valuation}
    (h : (k :: later).IsChain (· ≤ ·)) :
    later.foldl Valuation.orElse k = (k :: later).getLast (List.cons_ne_nil k later) := by
  induction later generalizing k with
  | nil => rfl
  | cons j later ih =>
    obtain ⟨hle, hchain⟩ := List.isChain_cons_cons.1 h
    rw [List.foldl_cons, Valuation.orElse_of_le hle, ih hchain]
    rfl

/-! ## The form of the result -/

/-- No constant occurs. -/
def isConstantFree : Formula → Bool
  | verum => false
  | symbol _ => true
  | not p => p.isConstantFree
  | binary _ l r => l.isConstantFree && r.isConstantFree

theorem constant?_of_isConstantFree {p : Formula} (h : p.isConstantFree = true) :
    p.constant? = none := by
  rcases p.ofBool_or_open with ⟨b, rfl⟩ | hp
  · cases b <;> cases h
  · exact hp

@[simp] theorem symbols_ofBool (b : Bool) : (ofBool b).symbols = [] := by
  cases b <;> rfl

theorem symbols_negate (p : Formula) : p.negate.symbols = p.symbols := by
  rcases p.ofBool_or_open with ⟨b, rfl⟩ | hp
  · rw [negate_ofBool, symbols_ofBool, symbols_ofBool]
  · rw [negate_of_open hp, symbols]

theorem symbols_apply_sublist (e : Effect) (p : Formula) : (e.apply p).symbols.Sublist p.symbols := by
  cases e with
  | settle b => simp [Effect.apply]
  | keep => exact List.Sublist.refl _
  | negate => rw [Effect.apply, symbols_negate]

/-- Operands are dropped, and what stays keeps its place. -/
theorem symbols_combine_sublist (c : Connective) (l r : Formula) :
    (combine c l r).symbols.Sublist (l.symbols ++ r.symbols) := by
  rcases combine_cases c l r with ⟨b, rfl, h⟩ | ⟨b, rfl, h⟩ | ⟨hl, hr⟩
  · rw [h, symbols_ofBool, List.nil_append]
    exact symbols_apply_sublist _ r
  · rw [h, symbols_ofBool, List.append_nil]
    exact symbols_apply_sublist _ l
  · rw [combine_of_open c hl hr, symbols]

theorem symbols_simplify_sublist (k : Valuation) (p : Formula) :
    (p.simplify k).symbols.Sublist p.symbols := by
  induction p with
  | verum => exact List.Sublist.refl _
  | symbol s =>
    rcases (k s).unknown_or_ofBool with hs | ⟨b, hs⟩
    · rw [simplify_of_unknown hs]
    · rw [simplify_of_known hs, symbols_ofBool]
      exact List.nil_sublist _
  | not p ih =>
    rw [simplify, symbols_negate]
    exact ih
  | binary c l r ihl ihr => exact (symbols_combine_sublist c _ _).trans (ihl.append ihr)

/-- There is nothing left to simplify under `k`. -/
structure Simplified (k : Valuation) (p : Formula) : Prop where
  /-- A constant stands alone. -/
  constants : p.isConstant = true ∨ p.isConstantFree = true
  unknown : ∀ s ∈ p.symbols, k s = .unknown

namespace Simplified

variable {k : Valuation} {p l r : Formula}

theorem isConstantFree_of_open (h : p.Simplified k) (hp : p.constant? = none) :
    p.isConstantFree = true := by
  rcases h.constants with hc | hc
  · rw [isConstant, hp] at hc
    cases hc
  · exact hc

theorem ofBool (b : Bool) : (Formula.ofBool b).Simplified k where
  constants := .inl (by rw [isConstant, constant?_ofBool, Option.isSome_some])
  unknown := by simp

theorem negate (h : p.Simplified k) : p.negate.Simplified k := by
  rcases p.ofBool_or_open with ⟨b, rfl⟩ | hp
  · rw [negate_ofBool]
    exact ofBool _
  · rw [negate_of_open hp]
    exact ⟨.inr (h.isConstantFree_of_open hp), h.unknown⟩

theorem apply (h : p.Simplified k) (e : Effect) : (e.apply p).Simplified k := by
  cases e with
  | settle b => exact ofBool b
  | keep => exact h
  | negate => exact h.negate

theorem combine (c : Connective) (hl : l.Simplified k) (hr : r.Simplified k) :
    (Formula.combine c l r).Simplified k := by
  rcases combine_cases c l r with ⟨b, rfl, h⟩ | ⟨b, rfl, h⟩ | ⟨hlo, hro⟩
  · rw [h]
    exact hr.apply _
  · rw [h]
    exact hl.apply _
  · rw [combine_of_open c hlo hro]
    refine ⟨.inr ?_, fun s hs => ?_⟩
    · rw [isConstantFree, hl.isConstantFree_of_open hlo, hr.isConstantFree_of_open hro, Bool.and_self]
    · exact (List.mem_append.1 hs).elim (hl.unknown s) (hr.unknown s)

end Simplified

/-- **Whatever comes out of a simplification is simplified.** -/
theorem simplified_simplify (k : Valuation) (p : Formula) : (p.simplify k).Simplified k := by
  induction p with
  | verum => exact Simplified.ofBool true
  | symbol s =>
    rcases (k s).unknown_or_ofBool with hs | ⟨b, hs⟩
    · rw [simplify_of_unknown hs]
      refine ⟨.inr rfl, fun t ht => ?_⟩
      rwa [List.mem_singleton.1 ht]
    · rw [simplify_of_known hs]
      exact Simplified.ofBool b
  | not p ih => exact ih.negate
  | binary c l r ihl ihr => exact ihl.combine c ihr

theorem simplify_of_isConstantFree {k : Valuation} {p : Formula} (hfree : p.isConstantFree = true)
    (hunknown : ∀ s ∈ p.symbols, k s = .unknown) : p.simplify k = p := by
  induction p with
  | verum => cases hfree
  | symbol s => exact simplify_of_unknown (hunknown s (.head _))
  | not p ih =>
    have hp : p.constant? = none := constant?_of_isConstantFree hfree
    rw [simplify, ih hfree hunknown, negate_of_open hp]
  | binary c l r ihl ihr =>
    rw [isConstantFree, Bool.and_eq_true] at hfree
    simp only [symbols, List.mem_append] at hunknown
    rw [simplify, ihl hfree.1 fun s hs => hunknown s (.inl hs),
      ihr hfree.2 fun s hs => hunknown s (.inr hs)]
    exact combine_of_open c (constant?_of_isConstantFree hfree.1) (constant?_of_isConstantFree hfree.2)

/-- **What is simplified is left as it is**, and nothing else is. -/
theorem simplify_eq_self_iff {k : Valuation} {p : Formula} : p.simplify k = p ↔ p.Simplified k := by
  constructor
  · intro h
    rw [← h]
    exact simplified_simplify k p
  · rintro ⟨hc | hfree, hunknown⟩
    · obtain ⟨b, hb⟩ := Option.isSome_iff_exists.1 hc
      rw [constant?_eq_some.1 hb, simplify_ofBool]
    · exact simplify_of_isConstantFree hfree hunknown

/-! ## The laws of simplification -/

/-- **Successive simplifications compose** into one under the knowledge of both, where
the earlier valuation has the first word. Nothing changes the second time, since a formula
is left as it is exactly when it is simplified; and under valuations that know more and
more, only the last one counts. -/
theorem simplifications_compose (p : Formula) :
    (∀ k j : Valuation, (p.simplify k).simplify j = p.simplify (k.orElse j)) ∧
    (∀ k : Valuation, (p.simplify k).simplify k = p.simplify k) ∧
    (∀ k : Valuation, p.simplify k = p ↔ p.Simplified k) ∧
    ∀ (k : Valuation) (later : List Valuation), (k :: later).IsChain (· ≤ ·) →
      p.simplifyAll (k :: later) =
        p.simplify ((k :: later).getLast (List.cons_ne_nil k later)) := by
  refine ⟨fun k j => simplify_simplify k j p, fun k => ?_, fun k => simplify_eq_self_iff,
    fun k later h => ?_⟩
  · exact simplify_eq_self_iff.2 (simplified_simplify k p)
  · rw [simplifyAll_cons, foldl_orElse_of_isChain h]

/-- Once `b` is known to fail, `(a => b) <=> (c & T)` comes down to `~a <=> c`, and once `a`
is known to hold as well, to `~c`, as it does at once under all of this. -/
theorem simplifications_compose_growing :
    let p : Formula := .binary .iff (.binary .implies (.symbol ⟨"a"⟩) (.symbol ⟨"b"⟩))
      (.binary .and (.symbol ⟨"c"⟩) .verum)
    let k : Valuation := fun s => if s = ⟨"b"⟩ then .fails else .unknown
    let j : Valuation := fun s => if s = ⟨"a"⟩ then .holds else k s
    [k, j].IsChain (· ≤ ·) ∧
      p.simplify k = .binary .iff (.not (.symbol ⟨"a"⟩)) (.symbol ⟨"c"⟩) ∧
      p.simplifyAll [k, j] = p.simplify j ∧ p.simplify j = .not (.symbol ⟨"c"⟩) := by
  intro p k j
  have hle : k ≤ j := by
    intro s
    by_cases hs : s = ⟨"a"⟩
    · simp [k, j, hs]
    · simp [j, hs]
  have hchain : [k, j].IsChain (· ≤ ·) := List.isChain_pair.2 hle
  exact ⟨hchain, by decide, (simplifications_compose p).2.2.2 k [j] hchain, by decide⟩

/-- **Simplification settles exactly what evaluation settles.** The result is the true
constant where the value is true, the false one where it is false, and otherwise free of
constants; and its symbols are some of the occurrences of those that are unknown, in
their order. -/
theorem simplify_settles_value (k : Valuation) (p : Formula) :
    (p.simplify k = .verum ↔ p.value k = .holds) ∧
    (p.simplify k = .not .verum ↔ p.value k = .fails) ∧
    ((p.simplify k).isConstantFree = true ↔ p.value k = .unknown) ∧
    (p.simplify k).symbols.Sublist (p.symbols.filter fun s => k s = .unknown) := by
  have settled : ∀ b, p.simplify k = ofBool b ↔ p.value k = .ofBool b := by
    intro b
    rw [← constant?_eq_some, constant?_simplify, Truth.toBool?_eq_some]
  have hs := simplified_simplify k p
  have hopen : (p.simplify k).constant? = none ↔ p.value k = .unknown := by
    rw [constant?_simplify, Truth.toBool?_eq_none]
  refine ⟨settled true, settled false, ?_, ?_⟩
  · rw [← hopen]
    exact ⟨constant?_of_isConstantFree, hs.isConstantFree_of_open⟩
  · have hall : (p.simplify k).symbols.filter (fun s => k s = .unknown) = (p.simplify k).symbols := by
      rw [List.filter_eq_self]
      exact fun s hs' => decide_eq_true (hs.unknown s hs')
    rw [← hall]
    exact (symbols_simplify_sublist k p).filter _

/-- A simplified formula means the same in every world that respects what was known. -/
theorem holds_simplify {k : Valuation} {w : World} (hw : w.Respects k) (p : Formula) :
    (p.simplify k).holds w = p.holds w := by
  have h := value_simplify (World.respects_iff.1 hw) p
  rwa [value_world, value_world, Truth.ofBool_inj] at h

/-- **Simplification preserves meaning** in the worlds that respect what was known, and in
no others: a known symbol whose value a world does not share is itself a counterexample. -/
theorem simplify_preserves_meaning (k : Valuation) (w : World) :
    (∀ p : Formula, (p.simplify k).holds w = p.holds w) ↔ w.Respects k := by
  refine ⟨fun h s b hs => ?_, fun hw p => holds_simplify hw p⟩
  have hsymbol := h (.symbol s)
  rw [simplify_of_known hs, holds] at hsymbol
  cases b <;> exact hsymbol.symm

end Formula

end Reasoner
