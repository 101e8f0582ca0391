/-
Trying clauses one after the other. Forward chaining goes through the clauses in
order, backward chaining lets the last clause take the place of one that fired;
for what a pass makes known the order does not matter. A trial is a pass in which
the clauses left over may be rearranged after each commit, and both kinds of pass
are trials (`Forward.trial_pass`, `Backward.trial_sweep`), so what is said about
trials is said once for both.
-/
import Mathlib.Data.List.Basic
import Reasoner.Chaining.Backward
import Reasoner.Chaining.Forward
import Reasoner.Proofs.Chaining.Derivation

namespace Reasoner

/-- The body is decided, and the consequent has the value it implies. -/
def Clause.Settled (v : Valuation) (c : Clause) : Prop :=
  ∃ b, c.implied v = .ofBool b ∧ v c.consequent.symbol = .ofBool b

theorem Clause.Settled.mono {v u : Valuation} (h : v ≤ u) {c : Clause} (hc : c.Settled v) :
    c.Settled u := by
  obtain ⟨b, hi, hs⟩ := hc
  refine ⟨b, Clause.implied_eq_of_le h hi, ?_⟩
  have := h c.consequent.symbol
  rwa [hs, Truth.ofBool_le] at this

namespace Chaining

/-! ## Passes, attempt by attempt -/

@[simp] theorem Pass.result_after (a : Attempt) (p : Pass) : (p.after a).result = p.result := rfl

@[simp] theorem Pass.waiting_after_waits (c c' : Clause) (p : Pass) :
    (p.after ⟨c, .waits c'⟩).waiting = c' :: p.waiting := rfl

@[simp] theorem Pass.waiting_after_commits (c : Clause) (s : Symbol) (b : Bool) (k : Knowledge)
    (p : Pass) : (p.after ⟨c, .commits s b k⟩).waiting = p.waiting := rfl

@[simp] theorem Pass.committed_after_waits (c c' : Clause) (p : Pass) :
    (p.after ⟨c, .waits c'⟩).committed = p.committed := rfl

@[simp] theorem Pass.committed_after_commits (c : Clause) (s : Symbol) (b : Bool) (k : Knowledge)
    (p : Pass) : (p.after ⟨c, .commits s b k⟩).committed = s :: p.committed := rfl

/-- Each clause is tried once; those after a commit may come in any order. -/
inductive Trial (rule : FiringRule) : Knowledge → List Clause → Pass → Prop where
  | done (k : Knowledge) : Trial rule k [] (.done k)
  | aborted {k : Knowledge} {c : Clause} {cs : List Clause} {e : Contradiction}
      (tried : rule c k = .contradicts e) : Trial rule k (c :: cs) (.aborted ⟨c, .contradicts e⟩ e)
  | waits {k : Knowledge} {c c' : Clause} {cs : List Clause} {p : Pass}
      (tried : rule c k = .waits c') (rest : Trial rule k cs p) :
      Trial rule k (c :: cs) (p.after ⟨c, .waits c'⟩)
  | commits {k k' : Knowledge} {c : Clause} {cs ds : List Clause} {s : Symbol} {b : Bool} {p : Pass}
      (tried : rule c k = .commits s b k') (order : ds.Perm cs) (rest : Trial rule k' ds p) :
      Trial rule k (c :: cs) (p.after ⟨c, .commits s b k'⟩)

theorem Forward.trial_pass (rule : FiringRule) (k : Knowledge) (cs : List Clause) :
    Trial rule k cs (pass rule k cs) := by
  induction cs generalizing k with
  | nil => exact .done k
  | cons c cs ih =>
    rw [pass]
    split
    next e h => exact .aborted h
    next c' h => exact .waits h (ih k)
    next s b k' h => exact .commits h (.refl cs) (ih k')

theorem Backward.perm_lastFirst {α : Type} (xs : List α) : (lastFirst xs).Perm xs := by
  cases xs with
  | nil => exact .refl []
  | cons x xs =>
    have h := List.perm_append_singleton ((x :: xs).getLast (List.cons_ne_nil x xs))
      (x :: xs).dropLast
    rw [List.dropLast_append_getLast] at h
    exact h.symm

theorem Backward.trial_sweep (rule : FiringRule) (k : Knowledge) (cs : List Clause) :
    Trial rule k cs (sweep rule k cs) := by
  fun_induction sweep rule k cs with
  | case1 k => exact .done k
  | case2 k c cs e h => exact .aborted h
  | case3 k c cs c' h ih => exact .waits h ih
  | case4 k c cs s b k' h ih => exact .commits h (perm_lastFirst cs) ih

/-! ## What a trial makes known -/

/-- Some clause contradicts what was derived from the clauses. -/
def Conflicting (clauses : List Clause) (e : Contradiction) : Prop :=
  ∃ k c, Derivation clauses k ∧ c ∈ clauses ∧ direct c k = .contradicts e

namespace Trial

variable {clauses cs : List Clause} {k learned : Knowledge} {p : Pass}

/-- What every commit keeps, a trial keeps. -/
theorem keeps {P : Knowledge → Prop}
    (step : ∀ {k k' c s b}, P k → c ∈ clauses → direct c k = .commits s b k' → P k')
    (h : Trial direct k cs p) (hk : P k) (hcs : ∀ c ∈ cs, c ∈ clauses)
    (hr : p.result = .ok learned) : P learned := by
  induction h with
  | done k => cases hr; exact hk
  | aborted tried => cases hr
  | waits _ _ ih => exact ih hk (fun d hd => hcs d (.tail _ hd)) hr
  | commits tried order _ ih =>
    exact ih (step hk (hcs _ (.head _)) tried) (fun d hd => hcs d (.tail _ (order.subset hd))) hr

theorem derivation (h : Trial direct k cs p) (hk : Derivation clauses k)
    (hcs : ∀ c ∈ cs, c ∈ clauses) (hr : p.result = .ok learned) : Derivation clauses learned :=
  h.keeps Derivation.commit hk hcs hr

theorem conflicting (h : Trial direct k cs p) (hk : Derivation clauses k)
    (hcs : ∀ c ∈ cs, c ∈ clauses) {e : Contradiction} (hr : p.result = .error e) :
    Conflicting clauses e := by
  induction h with
  | done k => cases hr
  | @aborted k c _ _ tried =>
    cases hr
    exact ⟨k, c, hk, hcs c (.head _), tried⟩
  | waits _ _ ih => exact ih hk (fun d hd => hcs d (.tail _ hd)) hr
  | commits tried order _ ih =>
    exact ih (hk.commit (hcs _ (.head _)) tried) (fun d hd => hcs d (.tail _ (order.subset hd))) hr

theorem indexed_and_le (h : Trial direct k cs p) (hk : k.Indexed) (hr : p.result = .ok learned) :
    learned.Indexed ∧ k.valuation ≤ learned.valuation := by
  induction h with
  | done k => cases hr; exact ⟨hk, le_rfl⟩
  | aborted tried => cases hr
  | waits _ _ ih => exact ih hk hr
  | commits tried _ _ ih =>
    obtain ⟨-, hc⟩ := commits_of_direct hk tried
    obtain ⟨hi, hle⟩ := ih hc.indexed hr
    exact ⟨hi, hc.le.trans hle⟩

theorem known_of_committed (h : Trial direct k cs p) (hk : k.Indexed) (hr : p.result = .ok learned)
    {s : Symbol} (hs : s ∈ p.committed) : learned.valuation s ≠ .unknown := by
  induction h with
  | done k => cases hs
  | aborted tried => cases hr
  | waits _ _ ih => exact ih hk hr hs
  | commits tried _ rest ih =>
    obtain ⟨rfl, hc⟩ := commits_of_direct hk tried
    rw [Pass.committed_after_commits] at hs
    rcases List.mem_cons.1 hs with he | hs
    · have hle := (rest.indexed_and_le hc.indexed hr).2 s
      rw [he, hc.valuation_consequent, Truth.ofBool_le] at hle
      rw [he, hle]
      exact Truth.ofBool_ne_unknown _
    · exact ih hc.indexed hr hs

/-- Where the knowledge has changed, a clause about that symbol was tried. -/
theorem exists_consequent (h : Trial direct k cs p) (hk : k.Indexed) (hr : p.result = .ok learned)
    {s : Symbol} (hs : learned.valuation s ≠ k.valuation s) :
    ∃ c ∈ cs, c.consequent.symbol = s := by
  induction h with
  | done k =>
    cases hr
    exact absurd rfl hs
  | aborted tried => cases hr
  | waits _ _ ih =>
    obtain ⟨c, hc, hcs⟩ := ih hk hr hs
    exact ⟨c, .tail _ hc, hcs⟩
  | @commits k k' c cs ds _ b p tried order _ ih =>
    obtain ⟨-, hcom⟩ := commits_of_direct hk tried
    by_cases hcs : s = c.consequent.symbol
    · exact ⟨c, .head _, hcs.symm⟩
    · have hsame : k'.valuation s = k.valuation s := by
        rw [hcom.valuation_eq, Function.update_of_ne hcs]
      obtain ⟨d, hd, hds⟩ := ih hcom.indexed hr (hsame ▸ hs)
      exact ⟨d, .tail _ (order.subset hd), hds⟩

/-! ## What a trial leaves waiting -/

theorem mem_of_mem_waiting (h : Trial direct k cs p) (hk : k.Indexed) {c : Clause}
    (hc : c ∈ p.waiting) : c ∈ cs := by
  induction h with
  | done k => exact hc
  | aborted tried => cases hc
  | waits tried _ ih =>
    obtain ⟨rfl, -⟩ := implied_of_waits hk tried
    rcases List.mem_cons.1 hc with rfl | hc
    · exact .head _
    · exact .tail _ (ih hk hc)
  | commits tried order _ ih =>
    exact .tail _ (order.subset (ih (commits_of_direct hk tried).2.indexed hc))

/-- A clause that was tried waits or has done its work. -/
theorem mem_waiting_or_settled (h : Trial direct k cs p) (hk : k.Indexed)
    (hr : p.result = .ok learned) {c : Clause} (hc : c ∈ cs) :
    c ∈ p.waiting ∨ c.Settled learned.valuation := by
  induction h with
  | done k => cases hc
  | aborted tried => cases hr
  | waits tried _ ih =>
    obtain ⟨rfl, -⟩ := implied_of_waits hk tried
    rcases List.mem_cons.1 hc with rfl | hc
    · exact .inl (.head _)
    · exact (ih hk hr hc).imp (.tail _) id
  | @commits _ _ d _ _ _ b _ tried order rest ih =>
    obtain ⟨-, hd⟩ := commits_of_direct hk tried
    rcases List.mem_cons.1 hc with rfl | hc
    · have hset : c.Settled _ := ⟨b, Clause.implied_eq_of_le hd.le hd.implied, hd.valuation_consequent⟩
      exact .inr (hset.mono (rest.indexed_and_le hd.indexed hr).2)
    · exact ih hd.indexed hr (order.symm.subset hc)

/-- A clause that waits was undecided from the start. -/
theorem implied_of_mem_waiting (h : Trial direct k cs p) (hk : k.Indexed) {c : Clause}
    (hc : c ∈ p.waiting) : c.implied k.valuation = .unknown := by
  induction h with
  | done k => cases hc
  | aborted tried => cases hc
  | waits tried _ ih =>
    obtain ⟨rfl, hi⟩ := implied_of_waits hk tried
    rcases List.mem_cons.1 hc with rfl | hc
    · exact hi
    · exact ih hk hc
  | commits tried _ _ ih =>
    obtain ⟨-, hcom⟩ := commits_of_direct hk tried
    have hle := Clause.implied_mono hcom.le c
    rw [ih hcom.indexed hc] at hle
    exact le_antisymm hle (Truth.unknown_le _)

theorem settled_of_decided (h : Trial direct k cs p) (hk : k.Indexed) (hr : p.result = .ok learned)
    {c : Clause} (hc : c ∈ cs) (hi : c.implied k.valuation ≠ .unknown) :
    c.Settled learned.valuation := by
  rcases h.mem_waiting_or_settled hk hr hc with hw | hs
  · exact absurd (h.implied_of_mem_waiting hk hw) hi
  · exact hs

theorem length_waiting_le (h : Trial direct k cs p) : p.waiting.length ≤ cs.length := by
  induction h with
  | done k => exact Nat.le_refl _
  | aborted tried => exact Nat.zero_le _
  | waits _ _ ih => exact Nat.succ_le_succ ih
  | commits _ order _ ih =>
    rw [order.length_eq] at ih
    exact Nat.le_succ_of_le ih

/-- Where nothing fires nothing changes, and every clause is undecided. -/
theorem idle (h : Trial direct k cs p) (hk : k.Indexed) (hr : p.result = .ok learned)
    (hidle : p.waiting.length = cs.length) :
    learned = k ∧ ∀ c ∈ cs, c.implied k.valuation = .unknown := by
  induction h with
  | done k => cases hr; exact ⟨rfl, fun c hc => by cases hc⟩
  | aborted tried => cases hr
  | waits tried _ ih =>
    obtain ⟨rfl, hi⟩ := implied_of_waits hk tried
    obtain ⟨hl, hcs⟩ := ih hk hr (Nat.succ.inj hidle)
    refine ⟨hl, fun d hd => ?_⟩
    rcases List.mem_cons.1 hd with rfl | hd
    · exact hi
    · exact hcs d hd
  | commits _ order rest _ =>
    have hlen := rest.length_waiting_le
    rw [order.length_eq] at hlen
    simp only [Pass.waiting_after_commits, List.length_cons] at hidle
    omega

end Trial

end Chaining

end Reasoner
