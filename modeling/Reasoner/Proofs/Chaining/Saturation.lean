/-
Knowledge that is derived and closed. There is at most one valuation of this
kind, the least closed one, so it does not depend on how a search arrives at it.
Where it exists no search meets a contradiction, and every search answers as the
saturated knowledge does (`Saturation.result_of_ends`). For backward chaining
this rests on `Saturation.valuation_eq_of_saturatedOn`: about the symbols it
asked for, it knows as much as saturation does.
-/
import Mathlib.Data.Set.Piecewise
import Reasoner.Proofs.Chaining.Search

namespace Reasoner.Chaining

structure Saturation (clauses : List Clause) (k : Knowledge) : Prop where
  derivation : Derivation clauses k
  closed : Closed clauses k.valuation

theorem Derivation.mono {clauses clauses' : List Clause} (h : ∀ c ∈ clauses, c ∈ clauses')
    {k : Knowledge} (hk : Derivation clauses k) : Derivation clauses' k := by
  induction hk with
  | start symbols => exact .start symbols
  | commit _ mem fired ih => exact ih.commit (h _ mem) fired

/-- What a clause implies of derived knowledge is what a closed valuation has for the
consequent, so nothing derived can contradict it. -/
theorem Closed.not_conflicting {clauses : List Clause} {v : Valuation} (hv : Closed clauses v)
    (e : Contradiction) : ¬ Conflicting clauses e := by
  rintro ⟨j, c, hj, hc, hd⟩
  obtain ⟨hs, hne, hknown, himp⟩ := conflict_of_contradicts hj.indexed hd
  have hle := hj.le_closed hv
  have hclosed := hv c hc
  rw [Clause.implied_eq_of_le hle himp, Truth.ofBool_le, ← hs] at hclosed
  have hkn := hle e.symbol
  rw [hknown, hclosed, Truth.ofBool_le, Truth.ofBool_inj, hne] at hkn
  cases hd : e.derived <;> simp [hd] at hkn

namespace Saturation

variable {clauses : List Clause} {k j : Knowledge} {target : Formula}

/-- The order of the clauses and repetitions among them do not matter. -/
theorem congr {clauses' : List Clause} (h : ∀ c, c ∈ clauses ↔ c ∈ clauses')
    (hk : Saturation clauses k) : Saturation clauses' k :=
  ⟨hk.derivation.mono fun c hc => (h c).1 hc, fun c hc => hk.closed c ((h c).2 hc)⟩

theorem valuation_eq (hk : Saturation clauses k) (hj : Saturation clauses j) :
    j.valuation = k.valuation :=
  le_antisymm (hj.derivation.le_closed hk.closed) (hk.derivation.le_closed hj.closed)

theorem not_conflicting (hk : Saturation clauses k) (e : Contradiction) :
    ¬ Conflicting clauses e :=
  hk.closed.not_conflicting e

open Classical in
/-- Saturation cut down to `j` on what was asked for is closed too: a clause about
something asked for that `j` leaves open looks at what was asked for only. -/
theorem closed_piecewise (hk : Saturation clauses k) (hj : Derivation clauses j) {asked : Set Symbol}
    (hsat : SaturatedOn clauses asked j.valuation) :
    Closed clauses (asked.piecewise j.valuation k.valuation) := by
  have hjk := hj.le_closed hk.closed
  have hcut : asked.piecewise j.valuation k.valuation ≤ k.valuation :=
    Set.piecewise_le (fun s _ => hjk s) fun _ _ => le_rfl
  intro c hc
  have hle := (c.implied_mono hcut).trans (hk.closed c hc)
  by_cases hask : c.consequent.symbol ∈ asked
  · rw [Set.piecewise_eq_of_mem _ _ _ hask]
    rcases (j.valuation c.consequent.symbol).unknown_or_ofBool with hu | ⟨b, hb⟩
    · obtain ⟨hi, hbody⟩ := hsat c hc hask hu
      have hcongr : c.implied (asked.piecewise j.valuation k.valuation) = c.implied j.valuation :=
        Clause.implied_congr fun t ht => Set.piecewise_eq_of_mem _ _ _ (hbody t ht)
      rw [hcongr, hi]
      exact Truth.unknown_le _
    · have hkb := hjk c.consequent.symbol
      rw [hb, Truth.ofBool_le] at hkb
      rwa [hkb, ← hb] at hle
  · rwa [Set.piecewise_eq_of_notMem _ _ _ hask]

/-- Where nothing more can be derived of what was asked for, saturation knows no
more of it. -/
theorem valuation_eq_of_saturatedOn (hk : Saturation clauses k) (hj : Derivation clauses j)
    {asked : Set Symbol} (hsat : SaturatedOn clauses asked j.valuation) {s : Symbol}
    (hs : s ∈ asked) : j.valuation s = k.valuation s := by
  classical
  have hkv := hk.derivation.le_closed (hk.closed_piecewise hj hsat) s
  rw [Set.piecewise_eq_of_mem _ _ _ hs] at hkv
  exact le_antisymm (hj.le_closed hk.closed s) hkv

/-- **A search answers as saturation does**, if what it knows when it gives up
leaves the question as open as saturation leaves it. -/
theorem result_of_ends (hk : Saturation clauses k) {final : Valuation → Prop} {r : Run}
    (hr : Ends clauses target final r.outcome)
    (hfinal : ∀ j : Knowledge, Derivation clauses j → final j.valuation →
      target.value j.valuation = target.value k.valuation) :
    ∃ v j, r.result = .ok (v, j) ∧ (v = true ↔ target.value k.valuation = .holds) := by
  unfold Run.result
  generalize r.outcome = o at hr
  rcases o with ⟨answer, j⟩ | ⟨j, unfired⟩ | e
  · obtain ⟨hj, hv⟩ := hr
    refine ⟨answer, j, rfl, ?_⟩
    rw [Formula.value_eq_of_le (hj.le_closed hk.closed) hv]
    cases answer <;> simp [Truth.ofBool]
  · obtain ⟨hj, hv, hf⟩ := hr
    refine ⟨false, j, rfl, ?_⟩
    rw [← hfinal j hj hf, hv]
    simp
  · exact absurd hr (hk.not_conflicting e)

theorem result_of_forward (hk : Saturation clauses k) {r : Run}
    (hr : Ends clauses target (Closed clauses) r.outcome) :
    ∃ v j, r.result = .ok (v, j) ∧ (v = true ↔ target.value k.valuation = .holds) :=
  hk.result_of_ends hr fun j hj hc => by rw [hk.valuation_eq ⟨hj, hc⟩]

theorem result_of_backward (hk : Saturation clauses k) {r : Run}
    (hr : Ends clauses target
      (fun v => ∃ asked, (∀ s ∈ target.symbols, asked s) ∧ SaturatedOn clauses asked v) r.outcome) :
    ∃ v j, r.result = .ok (v, j) ∧ (v = true ↔ target.value k.valuation = .holds) := by
  refine hk.result_of_ends hr fun j hj hf => ?_
  obtain ⟨asked, htarget, hsat⟩ := hf
  exact Formula.value_congr fun s hs => hk.valuation_eq_of_saturatedOn hj hsat (htarget s hs)

end Saturation

end Reasoner.Chaining
