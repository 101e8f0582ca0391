/-
How a search ends. Whatever a search learns is derived from the clauses, a
decided answer is the value of the question under what was learned, and a
contradiction is one that some clause meets (`Ends`). The two searches differ in
what holds when they give up. Forward chaining has then closed its knowledge
under all clauses (`Forward.run_ends`). Backward chaining has gone as far as the
question needs: there is a set of symbols with those of the question in it about
which nothing more can be derived (`Backward.run_ends`).
-/
import Reasoner.Proofs.Chaining.Trial

namespace Reasoner.Chaining

/-- What is known when a search over `clauses` ends; `final` holds of the
knowledge of one that gives up. -/
def Ends (clauses : List Clause) (target : Formula) (final : Valuation → Prop) : Outcome → Prop
  | .decided answer k => Derivation clauses k ∧ target.value k.valuation = .ofBool answer
  | .undecided k _ =>
    Derivation clauses k ∧ target.value k.valuation = .unknown ∧ final k.valuation
  | .contradictory e => Conflicting clauses e

theorem Ends.derivation_of_result {clauses : List Clause} {target : Formula}
    {final : Valuation → Prop} {r : Run} (h : Ends clauses target final r.outcome) {v : Bool}
    {k : Knowledge} (hr : r.result = .ok (v, k)) :
    Derivation clauses k ∧ (v = true ↔ target.value k.valuation = .holds) := by
  unfold Run.result at hr
  generalize r.outcome = o at h hr
  rcases o with ⟨answer, j⟩ | ⟨j, unfired⟩ | e
  · cases hr
    obtain ⟨hk, hv⟩ := h
    refine ⟨hk, ?_⟩
    rw [hv]
    cases v <;> simp [Truth.ofBool]
  · cases hr
    obtain ⟨hk, hv, -⟩ := h
    refine ⟨hk, ?_⟩
    rw [hv]
    simp
  · cases hr

theorem Ends.conflicting_of_result {clauses : List Clause} {target : Formula}
    {final : Valuation → Prop} {r : Run} (h : Ends clauses target final r.outcome) {e : Contradiction}
    (hr : r.result = .error e) : Conflicting clauses e := by
  unfold Run.result at hr
  generalize r.outcome = o at h hr
  rcases o with ⟨answer, j⟩ | ⟨j, unfired⟩ | e
  · cases hr
  · cases hr
  · cases hr
    exact h

theorem value_of_verdict {target : Formula} {k : Knowledge} {answer : Bool}
    (h : verdict target k = some answer) : target.value k.valuation = .ofBool answer :=
  Truth.toBool?_eq_some.1 h

theorem value_of_verdict_none {target : Formula} {k : Knowledge} (h : verdict target k = none) :
    target.value k.valuation = .unknown :=
  Truth.toBool?_eq_none.1 h

/-! ## Forward -/

namespace Forward

/-- Between passes: every clause still waits or has done its work. -/
structure Invariant (clauses : List Clause) (k : Knowledge) (pending : List Clause) : Prop where
  derivation : Derivation clauses k
  pending_mem : ∀ c ∈ pending, c ∈ clauses
  accounted : ∀ c ∈ clauses, c ∈ pending ∨ c.Settled k.valuation

variable {clauses pending : List Clause} {k learned : Knowledge}

theorem Invariant.start (clauses : List Clause) (symbols : List Symbol) :
    Invariant clauses (.ofSymbols symbols) clauses :=
  ⟨.start symbols, fun _ hc => hc, fun _ hc => .inl hc⟩

theorem Invariant.pass (h : Invariant clauses k pending)
    (hr : (pass direct k pending).result = .ok learned) :
    Invariant clauses learned (pass direct k pending).waiting := by
  have ht := trial_pass direct k pending
  have hk := h.derivation.indexed
  refine ⟨ht.derivation h.derivation h.pending_mem hr, fun c hc => ?_, fun c hc => ?_⟩
  · exact h.pending_mem c (ht.mem_of_mem_waiting hk hc)
  · rcases h.accounted c hc with hp | hs
    · exact ht.mem_waiting_or_settled hk hr hp
    · exact .inr (hs.mono (ht.indexed_and_le hk hr).2)

/-- A pass in which nothing fires leaves closed knowledge. -/
theorem Invariant.closed (h : Invariant clauses k pending)
    (hr : (Forward.pass direct k pending).result = .ok learned)
    (hidle : (Forward.pass direct k pending).waiting.length = pending.length) :
    Closed clauses learned.valuation := by
  obtain ⟨rfl, hu⟩ := (trial_pass direct k pending).idle h.derivation.indexed hr hidle
  intro c hc
  rcases h.accounted c hc with hp | ⟨b, hi, hs⟩
  · rw [hu c hp]
    exact Truth.unknown_le _
  · rw [hi, hs]

theorem run_ends (target : Formula) (h : Invariant clauses k pending) :
    Ends clauses target (Closed clauses) (run direct target k pending).outcome := by
  fun_induction run direct target k pending with
  | case1 k pending p round e hr =>
    exact (trial_pass direct k pending).conflicting h.derivation h.pending_mem hr
  | case2 k pending p round learned hr answer hv =>
    exact ⟨(h.pass hr).derivation, value_of_verdict hv⟩
  | case3 k pending p round learned hr hv hlt ih => exact ih (h.pass hr)
  | case4 k pending p round learned hr hv hlt =>
    refine ⟨(h.pass hr).derivation, value_of_verdict_none hv, h.closed hr ?_⟩
    have hle := (trial_pass direct k pending).length_waiting_le
    exact Nat.le_antisymm hle (Nat.le_of_not_lt hlt)

/-- What every commit keeps, a search keeps. -/
theorem run_keeps {P : Knowledge → Prop}
    (step : ∀ {k k' c s b}, P k → c ∈ clauses → direct c k = .commits s b k' → P k')
    {target : Formula} {v : Bool} {final : Knowledge} (h : Invariant clauses k pending) (hk : P k)
    (hr : (run direct target k pending).result = .ok (v, final)) : P final := by
  fun_induction run direct target k pending with
  | case1 k pending p round e hp => cases hr
  | case2 k pending p round learned hp answer hv =>
    cases hr
    exact (trial_pass direct k pending).keeps step hk h.pending_mem hp
  | case3 k pending p round learned hp hv hlt ih =>
    exact ih (h.pass hp) ((trial_pass direct k pending).keeps step hk h.pending_mem hp) hr
  | case4 k pending p round learned hp hv hlt =>
    cases hr
    exact (trial_pass direct k pending).keeps step hk h.pending_mem hp

end Forward

/-! ## Backward -/

/-- Nothing more can be derived of the symbols in `asked`: while one of them is
unknown, every clause for it is undecided and asks for nothing new. -/
def SaturatedOn (clauses : List Clause) (asked : Symbol → Prop) (v : Valuation) : Prop :=
  ∀ c ∈ clauses, asked c.consequent.symbol → v c.consequent.symbol = .unknown →
    c.implied v = .unknown ∧ ∀ s ∈ c.body.symbols, asked s

namespace Backward

theorem mem_bodySymbols {c : Clause} {s : Symbol} : s ∈ c.bodySymbols ↔ s ∈ c.body.symbols :=
  Symbol.mem_firstAppearances

theorem subset_goals_pull (goals : List Symbol) (cs : List Clause) :
    ∀ s ∈ goals, s ∈ (pull goals cs).goals := by
  induction cs generalizing goals with
  | nil => exact fun _ hs => hs
  | cons c cs ih =>
    intro s hs
    unfold pull
    split
    · exact ih _ s (Symbol.mem_appendNew.2 (.inl hs))
    · exact ih _ s hs

theorem mem_pull (goals : List Symbol) {cs : List Clause} {c : Clause} :
    c ∈ cs ↔ c ∈ (pull goals cs).pulled ∨ c ∈ (pull goals cs).left := by
  induction cs generalizing goals with
  | nil => simp [pull]
  | cons d cs ih =>
    unfold pull
    split
    · rw [List.mem_cons, ih (Symbol.appendNew goals d.bodySymbols)]
      simp only [List.mem_cons, or_assoc]
    · rw [List.mem_cons, ih goals]
      simp only [List.mem_cons]
      exact or_left_comm

/-- The body symbols of a clause that is pulled become goals. -/
theorem body_subset_goals_pull {goals : List Symbol} {cs : List Clause} {c : Clause}
    (hc : c ∈ (pull goals cs).pulled) : ∀ s ∈ c.body.symbols, s ∈ (pull goals cs).goals := by
  induction cs generalizing goals with
  | nil => cases hc
  | cons d cs ih =>
    unfold pull at hc ⊢
    split at hc
    next hd =>
      rw [if_pos hd]
      rcases List.mem_cons.1 hc with rfl | hc
      · intro s hs
        exact subset_goals_pull _ cs s (Symbol.mem_appendNew.2 (.inr (mem_bodySymbols.2 hs)))
      · exact ih hc
    next hd =>
      rw [if_neg hd]
      exact ih hc

theorem pull_idle {goals : List Symbol} {cs : List Clause} (h : (pull goals cs).pulled = []) :
    ∀ c ∈ cs, c.consequent.symbol ∉ goals := by
  induction cs with
  | nil => exact fun c hc => by cases hc
  | cons d cs ih =>
    unfold pull at h
    split at h
    next => cases h
    next hd =>
      intro c hc
      rcases List.mem_cons.1 hc with rfl | hc
      · exact hd
      · exact ih h c hc

/-- Known already, or a goal. -/
def Asked (k : Knowledge) (goals : List Symbol) (s : Symbol) : Prop :=
  k.valuation s ≠ .unknown ∨ s ∈ goals

/-- Between rounds: a clause that was pulled waits or has done its work, and all
that its body mentions has been asked for. -/
structure Invariant (clauses : List Clause) (target : Formula) (k : Knowledge)
    (goals : List Symbol) (unpulled active : List Clause) : Prop where
  derivation : Derivation clauses k
  unpulled_mem : ∀ c ∈ unpulled, c ∈ clauses
  active_mem : ∀ c ∈ active, c ∈ clauses
  asked_target : ∀ s ∈ target.symbols, Asked k goals s
  accounted : ∀ c ∈ clauses, c ∈ unpulled ∨
    ((c ∈ active ∨ c.Settled k.valuation) ∧ ∀ s ∈ c.body.symbols, Asked k goals s)

variable {clauses unpulled active : List Clause} {target : Formula} {k learned : Knowledge}
  {goals : List Symbol}

theorem Invariant.start (clauses : List Clause) (symbols : List Symbol) (target : Formula) :
    Invariant clauses target (.ofSymbols symbols) (Symbol.firstAppearances target.symbols)
      clauses [] where
  derivation := .start symbols
  unpulled_mem _ hc := hc
  active_mem _ hc := by cases hc
  asked_target s hs := .inr (Symbol.mem_firstAppearances.2 hs)
  accounted _ hc := .inl hc

theorem Invariant.at_hand_mem (h : Invariant clauses target k goals unpulled active) :
    ∀ c ∈ active ++ (pull goals unpulled).pulled, c ∈ clauses := by
  intro c hc
  rcases List.mem_append.1 hc with hc | hc
  · exact h.active_mem c hc
  · exact h.unpulled_mem c ((mem_pull goals).2 (.inl hc))

/-- What is a goal when clauses are tried stays one unless it is committed, and is
known then. -/
theorem asked_of_mem_goals {cs : List Clause} {s : Pass} (ht : Trial direct k cs s) (hk : k.Indexed)
    (hr : s.result = .ok learned) {t : Symbol} (h : t ∈ goals) :
    Asked learned (goals.filter (· ∉ s.committed)) t := by
  by_cases hc : t ∈ s.committed
  · exact .inl (ht.known_of_committed hk hr hc)
  · exact .inr (List.mem_filter.2 ⟨h, by simpa using hc⟩)

/-- What was asked for stays asked for in the next round. -/
theorem Asked.round {cs : List Clause} {s : Pass} {t : Symbol} (h : Asked k goals t)
    (ht : Trial direct k cs s) (hk : k.Indexed) (hr : s.result = .ok learned)
    (unpulled : List Clause) :
    Asked learned ((pull goals unpulled).goals.filter (· ∉ s.committed)) t := by
  rcases h with hkn | hg
  · refine .inl fun hu => hkn ?_
    have hle := (ht.indexed_and_le hk hr).2 t
    rw [hu] at hle
    exact le_antisymm hle (Truth.unknown_le _)
  · exact asked_of_mem_goals ht hk hr (subset_goals_pull _ _ t hg)

/-- One round keeps the invariant. -/
theorem Invariant.round (h : Invariant clauses target k goals unpulled active) {s : Pass}
    (hs : s = sweep direct k (active ++ (pull goals unpulled).pulled))
    (hr : s.result = .ok learned) :
    Invariant clauses target learned ((pull goals unpulled).goals.filter (· ∉ s.committed))
      (pull goals unpulled).left s.waiting := by
  have ht : Trial direct k (active ++ (pull goals unpulled).pulled) s := hs ▸ trial_sweep ..
  have hk := h.derivation.indexed
  refine ⟨ht.derivation h.derivation h.at_hand_mem hr, fun c hc => ?_, fun c hc => ?_,
    fun t ht' => (h.asked_target t ht').round ht hk hr unpulled, fun c hc => ?_⟩
  · exact h.unpulled_mem c ((mem_pull goals).2 (.inr hc))
  · exact h.at_hand_mem c (ht.mem_of_mem_waiting hk hc)
  · rcases h.accounted c hc with hu | ⟨ha | hs, hb⟩
    · rcases (mem_pull goals).1 hu with hp | hl
      · refine .inr ⟨ht.mem_waiting_or_settled hk hr (List.mem_append_right _ hp), fun t ht' => ?_⟩
        exact asked_of_mem_goals ht hk hr (body_subset_goals_pull hp t ht')
      · exact .inl hl
    · exact .inr ⟨ht.mem_waiting_or_settled hk hr (List.mem_append_left _ ha),
        fun t ht' => (hb t ht').round ht hk hr unpulled⟩
    · exact .inr ⟨.inr (hs.mono (ht.indexed_and_le hk hr).2),
        fun t ht' => (hb t ht').round ht hk hr unpulled⟩

/-- A round that pulls nothing and fires nothing leaves nothing to derive of
what was asked. -/
theorem Invariant.saturatedOn (h : Invariant clauses target k goals unpulled active) {s : Pass}
    (hs : s = sweep direct k (active ++ (pull goals unpulled).pulled))
    (hr : s.result = .ok learned) (hpull : (pull goals unpulled).pulled = [])
    (hidle : s.waiting.length = active.length) :
    learned = k ∧ SaturatedOn clauses (Asked k goals) k.valuation := by
  have ht : Trial direct k (active ++ (pull goals unpulled).pulled) s := hs ▸ trial_sweep ..
  rw [hpull, List.append_nil] at ht
  obtain ⟨hl, hu⟩ := ht.idle h.derivation.indexed hr hidle
  refine ⟨hl, fun c hc hask hunk => ?_⟩
  have hgoal : c.consequent.symbol ∈ goals := hask.resolve_left fun hne => hne hunk
  rcases h.accounted c hc with hun | ⟨ha | ⟨b, -, hset⟩, hb⟩
  · exact absurd hgoal (pull_idle hpull c hun)
  · exact ⟨hu c ha, hb⟩
  · rw [hunk] at hset
    exact absurd hset.symm (Truth.ofBool_ne_unknown b)

theorem run_ends (h : Invariant clauses target k goals unpulled active) :
    Ends clauses target
      (fun v => ∃ asked, (∀ s ∈ target.symbols, asked s) ∧ SaturatedOn clauses asked v)
      (run direct target k goals unpulled active).outcome := by
  fun_induction run direct target k goals unpulled active with
  | case1 k goals unpulled active p s round e hr =>
    exact (trial_sweep direct k _).conflicting h.derivation h.at_hand_mem hr
  | case2 k goals unpulled active p s round learned hr answer hv =>
    exact ⟨(h.round rfl hr).derivation, value_of_verdict hv⟩
  | case3 k goals unpulled active p s round learned hr hv hidle =>
    obtain ⟨rfl, hsat⟩ := h.saturatedOn rfl hr hidle.1 hidle.2
    exact ⟨h.derivation, value_of_verdict_none hv, Asked learned goals, h.asked_target, hsat⟩
  | case4 k goals unpulled active p s round learned hr hv hidle unsolved ih =>
    exact ih (h.round rfl hr)

theorem run_keeps {P : Knowledge → Prop}
    (step : ∀ {k k' c s b}, P k → c ∈ clauses → direct c k = .commits s b k' → P k')
    {v : Bool} {final : Knowledge} (h : Invariant clauses target k goals unpulled active) (hk : P k)
    (hr : (run direct target k goals unpulled active).result = .ok (v, final)) : P final := by
  fun_induction run direct target k goals unpulled active with
  | case1 k goals unpulled active p s round e hs => cases hr
  | case2 k goals unpulled active p s round learned hs answer hv =>
    cases hr
    exact (trial_sweep direct k _).keeps step hk h.at_hand_mem hs
  | case3 k goals unpulled active p s round learned hs hv hidle =>
    cases hr
    exact (trial_sweep direct k _).keeps step hk h.at_hand_mem hs
  | case4 k goals unpulled active p s round learned hs hv hidle unsolved ih =>
    exact ih (h.round rfl hs) ((trial_sweep direct k _).keeps step hk h.at_hand_mem hs) hr

end Backward

end Reasoner.Chaining
