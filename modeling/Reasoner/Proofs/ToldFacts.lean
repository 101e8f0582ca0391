/-
What backward chaining makes of told facts. A fact is decided from the start, so the
round that pulls it in either commits it or ends in a contradiction, and whatever a
search learns agrees with every fact it has pulled (`Backward.settled_of_mem_rounds`).

Not every fact about a known symbol is pulled, though. A symbol is a goal until a
clause about it fires and no longer, and clauses are pulled in one go through the list.
So a fact is left behind when its symbol becomes a goal only after the going through
has passed the fact, and another clause about the symbol, further on, fires in the same
round (`Bypassed`). This is the only way (`HornBase.backward_respects_facts`), and it
does happen (`HornBase.backward_bypasses_fact`).
-/
import Reasoner.Proofs.HornBase

namespace Reasoner

/-! ## Facts -/

namespace Clause

theorem implied_of_isFact {c : Clause} (h : c.isFact = true) (k : Valuation) :
    c.implied k = .ofBool c.consequent.polarity := by
  have hbody : c.body = .verum := by simpa [isFact] using h
  have hvalue : c.body.value k = .ofBool true := by rw [hbody]; rfl
  rw [implied_of_value hvalue, Bool.true_beq]

theorem Settled.value_of_isFact {c : Clause} (h : c.isFact = true) {k : Valuation}
    (hc : c.Settled k) : k c.consequent.symbol = .ofBool c.consequent.polarity := by
  obtain ⟨b, hi, hs⟩ := hc
  rw [implied_of_isFact h] at hi
  rw [hs, hi]

end Clause

/-- A clause of the list mentions the symbol in its body, and a later one is about it. -/
def Bypassed (s : Symbol) (clauses : List Clause) : Prop :=
  ∃ rule other, [rule, other].Sublist clauses ∧ s ∈ rule.body.symbols ∧ other.consequent.symbol = s

/-- A fact that is tried does its work at once. -/
theorem Chaining.Trial.settled_of_isFact {k learned : Knowledge} {cs : List Clause} {p : Pass}
    (h : Trial direct k cs p) (hk : k.Indexed) (hr : p.result = .ok learned) {c : Clause}
    (hc : c ∈ cs) (hfact : c.isFact = true) : c.Settled learned.valuation := by
  refine h.settled_of_decided hk hr hc ?_
  rw [Clause.implied_of_isFact hfact]
  exact Truth.ofBool_ne_unknown _

namespace Chaining.Backward

/-! ## The order of pulling -/

theorem pull_append (goals : List Symbol) (xs ys : List Clause) :
    pull goals (xs ++ ys) =
      { goals := (pull (pull goals xs).goals ys).goals
        pulled := (pull goals xs).pulled ++ (pull (pull goals xs).goals ys).pulled
        left := (pull goals xs).left ++ (pull (pull goals xs).goals ys).left } := by
  induction xs generalizing goals with
  | nil => rfl
  | cons c xs ih =>
    rw [List.cons_append, pull, pull, ih, ih]
    by_cases hc : c.consequent.symbol ∈ goals
    · simp [hc]
    · simp [hc]

theorem pull_cons_of_not_mem {goals : List Symbol} {c : Clause} (h : c.consequent.symbol ∉ goals)
    (cs : List Clause) :
    pull goals (c :: cs) = { pull goals cs with left := c :: (pull goals cs).left } := by
  rw [pull, if_neg h]

/-- A clause is pulled for a goal. -/
theorem consequent_mem_goals_pull {goals : List Symbol} {cs : List Clause} {c : Clause}
    (h : c ∈ (pull goals cs).pulled) : c.consequent.symbol ∈ (pull goals cs).goals := by
  induction cs generalizing goals with
  | nil => cases h
  | cons d cs ih =>
    unfold pull at h ⊢
    by_cases hd : d.consequent.symbol ∈ goals
    · rw [if_pos hd] at h ⊢
      rcases List.mem_cons.1 h with rfl | h
      · exact subset_goals_pull _ cs _ (Symbol.mem_appendNew.2 (.inl hd))
      · exact ih h
    · rw [if_neg hd] at h ⊢
      exact ih h

/-- A clause about a symbol that was no goal before is pulled on account of an earlier
clause, whose body mentions the symbol. -/
theorem exists_rule_before {goals : List Symbol} {cs : List Clause} {c : Clause}
    (h : c ∈ (pull goals cs).pulled) (hgoal : c.consequent.symbol ∉ goals) :
    ∃ rule, [rule, c].Sublist cs ∧ c.consequent.symbol ∈ rule.body.symbols := by
  induction cs generalizing goals with
  | nil => cases h
  | cons d cs ih =>
    unfold pull at h
    by_cases hd : d.consequent.symbol ∈ goals
    · rw [if_pos hd] at h
      rcases List.mem_cons.1 h with rfl | h
      · exact absurd hd hgoal
      by_cases hbody : c.consequent.symbol ∈ d.body.symbols
      · have hc : c ∈ cs := (mem_pull _).2 (.inl h)
        exact ⟨d, (List.singleton_sublist.2 hc).cons_cons d, hbody⟩
      · have hgoal' : c.consequent.symbol ∉ Symbol.appendNew goals d.bodySymbols := by
          simp [Symbol.mem_appendNew, mem_bodySymbols, hgoal, hbody]
        obtain ⟨rule, hrule, hs⟩ := ih h hgoal'
        exact ⟨rule, hrule.cons d, hs⟩
    · rw [if_neg hd] at h
      obtain ⟨rule, hrule, hs⟩ := ih h hgoal
      exact ⟨rule, hrule.cons d, hs⟩

/-- Where a clause is left behind, so is what stood after it, in the same order; and its
symbol was no goal when the pulling came past. -/
theorem pull_of_left {goals : List Symbol} {xs ys : List Clause} {c : Clause}
    (h : c ∉ (pull goals (xs ++ c :: ys)).pulled) :
    c.consequent.symbol ∉ (pull goals xs).goals ∧
      (pull goals (xs ++ c :: ys)).pulled =
        (pull goals xs).pulled ++ (pull (pull goals xs).goals ys).pulled ∧
      (pull goals (xs ++ c :: ys)).left =
        (pull goals xs).left ++ c :: (pull (pull goals xs).goals ys).left := by
  have hc : c.consequent.symbol ∉ (pull goals xs).goals := by
    intro hmem
    rw [pull_append, pull, if_pos hmem] at h
    simp at h
  rw [pull_append, pull_cons_of_not_mem hc]
  exact ⟨hc, rfl, rfl⟩

theorem left_sublist (goals : List Symbol) (cs : List Clause) :
    (pull goals cs).left.Sublist cs := by
  induction cs generalizing goals with
  | nil => exact .slnil
  | cons c cs ih =>
    unfold pull
    by_cases hc : c.consequent.symbol ∈ goals
    · rw [if_pos hc]
      exact (ih _).cons c
    · rw [if_neg hc]
      exact (ih _).cons_cons c

/-! ## Facts that are pulled -/

variable {clauses unpulled active : List Clause} {target : Formula} {k learned : Knowledge}
  {goals : List Symbol} {fact : Clause}

theorem settled_of_pulled (hk : k.Indexed) {s : Pass}
    (hs : s = sweep direct k (active ++ (pull goals unpulled).pulled))
    (hr : s.result = .ok learned) (hfact : fact.isFact = true)
    (hp : fact ∈ (pull goals unpulled).pulled) : fact.Settled learned.valuation := by
  have ht : Trial direct k (active ++ (pull goals unpulled).pulled) s := hs ▸ trial_sweep ..
  exact ht.settled_of_isFact hk hr (List.mem_append_right _ hp) hfact

/-- A search forgets nothing. -/
theorem le_of_run {v : Bool} {final : Knowledge} (hk : k.Indexed)
    (hr : (run direct target k goals unpulled active).result = .ok (v, final)) :
    k.valuation ≤ final.valuation := by
  fun_induction run direct target k goals unpulled active with
  | case1 k goals unpulled active p s round e hs => cases hr
  | case2 k goals unpulled active p s round learned hs answer hv =>
    cases hr
    exact ((trial_sweep direct k _).indexed_and_le hk hs).2
  | case3 k goals unpulled active p s round learned hs hv hidle =>
    cases hr
    exact ((trial_sweep direct k _).indexed_and_le hk hs).2
  | case4 k goals unpulled active p s round learned hs hv hidle unsolved ih =>
    obtain ⟨hlearned, hle⟩ := (trial_sweep direct k _).indexed_and_le hk hs
    exact hle.trans (ih hlearned hr)

/-- **What is learned agrees with every fact that was pulled.** -/
theorem settled_of_mem_rounds {v : Bool} {final : Knowledge} (hk : k.Indexed)
    (hr : (run direct target k goals unpulled active).result = .ok (v, final)) {pulled : List Clause}
    (hround : pulled ∈ (run direct target k goals unpulled active).rounds.map Round.pulled)
    (hp : fact ∈ pulled) (hfact : fact.isFact = true) : fact.Settled final.valuation := by
  fun_induction run direct target k goals unpulled active with
  | case1 k goals unpulled active p s round e hs => cases hr
  | case2 k goals unpulled active p s round learned hs answer hv =>
    cases hr
    obtain rfl := List.mem_singleton.1 hround
    exact settled_of_pulled hk rfl hs hfact hp
  | case3 k goals unpulled active p s round learned hs hv hidle =>
    cases hr
    obtain rfl := List.mem_singleton.1 hround
    exact settled_of_pulled hk rfl hs hfact hp
  | case4 k goals unpulled active p s round learned hs hv hidle unsolved ih =>
    have hlearned := ((trial_sweep direct k _).indexed_and_le hk hs).1
    rcases List.mem_cons.1 hround with rfl | hround
    · exact (settled_of_pulled hk rfl hs hfact hp).mono (le_of_run hlearned hr)
    · exact ih hlearned hr hround

/-! ## Facts that are left behind -/

/-- A fact about `s` that stands before `after` may not have been pulled: nothing is
known of its symbol, or it was bypassed and the question does not mention the symbol. -/
def Excused (target : Formula) (after : List Clause) (s : Symbol) (v : Valuation) : Prop :=
  v s = .unknown ∨ (s ∉ target.symbols ∧ Bypassed s after)

/-- Between rounds: the fact has done its work, or it still waits to be pulled and there
is an excuse for that. -/
structure Noticing (clauses : List Clause) (target : Formula) (fact : Clause) (after : List Clause)
    (k : Knowledge) (goals : List Symbol) (unpulled active : List Clause) : Prop
    extends Invariant clauses target k goals unpulled active where
  asked_active : ∀ c ∈ active, Asked k goals c.consequent.symbol
  noticed : fact.Settled k.valuation ∨
    (∃ xs ys, unpulled = xs ++ fact :: ys ∧ ys.Sublist after) ∧
      Excused target after fact.consequent.symbol k.valuation

variable {after : List Clause}

theorem Noticing.start (before after : List Clause) (fact : Clause) (symbols : List Symbol)
    (target : Formula) :
    Noticing (before ++ fact :: after) target fact after (.ofSymbols symbols)
      (Symbol.firstAppearances target.symbols) (before ++ fact :: after) [] where
  toInvariant := .start _ symbols target
  asked_active _ hc := by cases hc
  noticed := .inr ⟨⟨before, after, rfl, .refl after⟩, .inl (Knowledge.valuation_ofSymbols symbols _)⟩

/-- A symbol that becomes known in a round that leaves the fact behind was no goal
before, so the fact is bypassed. -/
theorem Noticing.excused (h : Noticing clauses target fact after k goals unpulled active) {s : Pass}
    (hs : s = sweep direct k (active ++ (pull goals unpulled).pulled))
    (hr : s.result = .ok learned) {xs ys : List Clause} (hun : unpulled = xs ++ fact :: ys)
    (hsub : ys.Sublist after) (hleft : fact ∉ (pull goals unpulled).pulled)
    (hex : Excused target after fact.consequent.symbol k.valuation) :
    Excused target after fact.consequent.symbol learned.valuation := by
  have ht : Trial direct k (active ++ (pull goals unpulled).pulled) s := hs ▸ trial_sweep ..
  subst hun
  obtain ⟨hpast, hpulled, -⟩ := pull_of_left hleft
  have hgoal : fact.consequent.symbol ∉ goals := fun hg => hpast (subset_goals_pull goals xs _ hg)
  rcases hex with hunknown | hbypassed
  · by_cases hchanged : learned.valuation fact.consequent.symbol = k.valuation fact.consequent.symbol
    · exact .inl (hchanged.trans hunknown)
    have hunasked : ¬ Asked k goals fact.consequent.symbol := fun hask =>
      hask.elim (fun hne => hne hunknown) hgoal
    obtain ⟨other, hother, hsame⟩ := ht.exists_consequent h.derivation.indexed hr hchanged
    rw [hpulled] at hother
    rcases List.mem_append.1 hother with hactive | hpull
    · exact absurd (hsame ▸ h.asked_active other hactive) hunasked
    rcases List.mem_append.1 hpull with hxs | hys
    · exact absurd (hsame ▸ consequent_mem_goals_pull hxs) hpast
    · obtain ⟨rule, hrule, hbody⟩ := exists_rule_before hys (hsame ▸ hpast)
      refine .inr ⟨fun htarget => hunasked (h.asked_target _ htarget), rule, other, ?_, ?_, hsame⟩
      · exact hrule.trans hsub
      · rwa [hsame] at hbody
  · exact .inr hbypassed

theorem Noticing.round (h : Noticing clauses target fact after k goals unpulled active)
    (hfact : fact.isFact = true) {s : Pass}
    (hs : s = sweep direct k (active ++ (pull goals unpulled).pulled))
    (hr : s.result = .ok learned) :
    Noticing clauses target fact after learned
      ((pull goals unpulled).goals.filter (· ∉ s.committed)) (pull goals unpulled).left s.waiting := by
  have ht : Trial direct k (active ++ (pull goals unpulled).pulled) s := hs ▸ trial_sweep ..
  have hk := h.derivation.indexed
  refine ⟨h.toInvariant.round hs hr, fun c hc => ?_, ?_⟩
  · rcases List.mem_append.1 (ht.mem_of_mem_waiting hk hc) with ha | hp
    · exact (h.asked_active c ha).round ht hk hr unpulled
    · exact asked_of_mem_goals ht hk hr (consequent_mem_goals_pull hp)
  · rcases h.noticed with hset | ⟨⟨xs, ys, hun, hsub⟩, hex⟩
    · exact .inl (hset.mono (ht.indexed_and_le hk hr).2)
    by_cases hp : fact ∈ (pull goals unpulled).pulled
    · exact .inl (settled_of_pulled hk hs hr hfact hp)
    · have hexcused := h.excused hs hr hun hsub hp hex
      subst hun
      obtain ⟨-, -, hleft⟩ := pull_of_left hp
      exact .inr ⟨⟨_, _, hleft, (left_sublist _ ys).trans hsub⟩, hexcused⟩

/-- At the end of a search the fact has done its work, or there is an excuse. -/
theorem Noticing.run (h : Noticing clauses target fact after k goals unpulled active)
    (hfact : fact.isFact = true) {v : Bool} {final : Knowledge}
    (hr : (run direct target k goals unpulled active).result = .ok (v, final)) :
    fact.Settled final.valuation ∨ Excused target after fact.consequent.symbol final.valuation := by
  fun_induction Backward.run direct target k goals unpulled active with
  | case1 k goals unpulled active p s round e hs => cases hr
  | case2 k goals unpulled active p s round learned hs answer hv =>
    cases hr
    exact (h.round hfact rfl hs).noticed.imp id And.right
  | case3 k goals unpulled active p s round learned hs hv hidle =>
    cases hr
    exact (h.round hfact rfl hs).noticed.imp id And.right
  | case4 k goals unpulled active p s round learned hs hv hidle unsolved ih =>
    exact ih (h.round hfact rfl hs) hr

end Chaining.Backward

namespace HornBase

open Chaining

/-- **What backward chaining learns agrees with the facts it has pulled**, and it pulls
every fact about a symbol that becomes known, except where the question does not mention
the symbol and the fact is bypassed: after it stand a clause whose body mentions the
symbol and then another clause about the symbol. -/
theorem backward_respects_facts (h : HornBase) (target : Formula) {v : Bool} {k : Knowledge}
    (hr : (h.search .backward target).result = .ok (v, k)) :
    (∀ round ∈ (h.search .backward target).rounds, ∀ fact ∈ round.pulled, fact.isFact = true →
      k.valuation fact.consequent.symbol = .ofBool fact.consequent.polarity) ∧
    ∀ before fact after, h.clauses = before ++ fact :: after → fact.isFact = true →
      k.valuation fact.consequent.symbol ≠ .unknown →
      (fact.consequent.symbol ∈ target.symbols ∨ ¬ Bypassed fact.consequent.symbol after) →
      k.valuation fact.consequent.symbol = .ofBool fact.consequent.polarity := by
  have htracks := h.search_tracks .backward target
  rw [htracks.result] at hr
  refine ⟨fun round hround fact hp hfact => ?_, fun before fact after hcl hfact hknown hseen => ?_⟩
  · have hmem := List.mem_map_of_mem (f := Round.pulled) hround
    rw [htracks.pulled] at hmem
    have hk := Knowledge.indexed_ofSymbols (h.chainer .backward).base.vocabulary.symbols
    exact (Backward.settled_of_mem_rounds hk hr hmem hp hfact).value_of_isFact hfact
  · have hstart := Backward.Noticing.start before after fact
      (h.chainer .backward).base.vocabulary.symbols target
    rw [← hcl] at hstart
    rcases hstart.run hfact hr with hset | hunknown | ⟨htarget, hbypassed⟩
    · exact hset.value_of_isFact hfact
    · exact absurd hunknown hknown
    · exact absurd hseen (not_or.2 ⟨htarget, not_not.2 hbypassed⟩)

/-- The sentences `a`, `b & a => t` and `b`. -/
def late : HornBase where
  sentences := [⟨"a", .symbol ⟨"a"⟩⟩,
    ⟨"b & a => t", .binary .implies (.binary .and (.symbol ⟨"b"⟩) (.symbol ⟨"a"⟩)) (.symbol ⟨"t"⟩)⟩,
    ⟨"b", .symbol ⟨"b"⟩⟩]
  clauses := _
  clauses_eq := rfl

/-- The fact `a` is passed in the first round, and pulled in the second. -/
theorem backward_respects_facts_late :
    ∃ k, (late.search .backward (.symbol ⟨"t"⟩)).result = .ok (true, k) ∧
      k.valuation ⟨"b"⟩ = .holds ∧ ¬ Bypassed ⟨"a"⟩ (late.clauses.drop 1) ∧
      k.valuation ⟨"a"⟩ = .holds := by
  obtain ⟨k, hk, hknown⟩ : ∃ k, (late.search .backward (.symbol ⟨"t"⟩)).result = .ok (true, k) ∧
      k.valuation ⟨"a"⟩ = .holds := exists_result_knowing (by decide +kernel)
  obtain ⟨hpulled, htold⟩ := backward_respects_facts late (.symbol ⟨"t"⟩) hk
  obtain ⟨round, hround, hb⟩ : ∃ round ∈ (late.search .backward (.symbol ⟨"t"⟩)).rounds,
      ⟨⟨"b", .symbol ⟨"b"⟩⟩, .verum, ⟨⟨"b"⟩, true⟩⟩ ∈ round.pulled := by
    decide +kernel
  have hseen : ¬ Bypassed ⟨"a"⟩ (late.clauses.drop 1) := by
    have hothers : ∀ c ∈ late.clauses.drop 1, c.consequent.symbol ≠ ⟨"a"⟩ := by decide +kernel
    rintro ⟨rule, other, hsub, -, hother⟩
    exact hothers other (hsub.subset (by simp)) hother
  refine ⟨k, hk, hpulled round hround _ hb rfl, hseen, ?_⟩
  exact htold [] ⟨⟨"a", .symbol ⟨"a"⟩⟩, .verum, ⟨⟨"a"⟩, true⟩⟩ (late.clauses.drop 1) rfl rfl
    (by simp [hknown]) (.inr hseen)

/-- The sentences `~a`, `a => t` and `a`, the first of which is bypassed. -/
def contested : HornBase where
  sentences := [⟨"~a", .not (.symbol ⟨"a"⟩)⟩,
    ⟨"a => t", .binary .implies (.symbol ⟨"a"⟩) (.symbol ⟨"t"⟩)⟩, ⟨"a", .symbol ⟨"a"⟩⟩]
  clauses := _
  clauses_eq := rfl

/-- **A fact can be bypassed.** Told `~a; a => t; a`, backward chaining finds `t` to hold
and knows `a` to hold as well, with no word of the fact `~a`. -/
theorem backward_bypasses_fact :
    (KnowledgeBase.tell {} "~a; a => t; a").2.sentences = contested.sentences ∧
    ∃ k, (contested.search .backward (.symbol ⟨"t"⟩)).result = .ok (true, k) ∧
      k.valuation ⟨"a"⟩ = .holds ∧
      ∃ fact ∈ contested.clauses, fact.isFact = true ∧ fact.consequent = ⟨⟨"a"⟩, false⟩ ∧
        k.valuation fact.consequent.symbol ≠ .ofBool fact.consequent.polarity := by
  obtain ⟨k, hk, hknown⟩ : ∃ k, (contested.search .backward (.symbol ⟨"t"⟩)).result = .ok (true, k) ∧
      k.valuation ⟨"a"⟩ = .holds := exists_result_knowing (by decide +kernel)
  refine ⟨by decide +kernel, k, hk, hknown, _, .head _, rfl, rfl, ?_⟩
  rw [show k.valuation ⟨"a"⟩ = .holds from hknown]
  decide

end HornBase

end Reasoner
