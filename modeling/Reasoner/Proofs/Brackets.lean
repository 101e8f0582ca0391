/-
Balanced parentheses. Counting from the left, a balanced stretch never closes more than
it opened, and in the end it has closed all of it (`Token.Balanced`). The search for the
closing place passes over balanced stretches (`Token.closeFrom_append`); what it passes
before it finds the place is balanced (`Token.balanced_of_closeFrom`), and where it finds
none, nothing is ever closed that was not opened on the way
(`Token.closesWithin_of_closeFrom_none`).
-/
import Mathlib.Data.List.Infix
import Reasoner.Token.Bracket

namespace Reasoner.Token

/-- No beginning of the stretch closes more than it opens, `depth` parentheses apart that
were open before. -/
def ClosesWithin (depth : Nat) (ts : List Token) : Prop :=
  ∀ us, us <+: ts → us.count closing ≤ us.count opening + depth

/-- Each closing parenthesis closes an earlier one, and none is left open. -/
structure Balanced (ts : List Token) : Prop where
  within : ClosesWithin 0 ts
  total : ts.count closing = ts.count opening

/-! ## Token by token -/

variable {depth : Nat} {t : Token} {ts us : List Token}

theorem closesWithin_nil (depth : Nat) : ClosesWithin depth [] := by
  intro us hus
  rw [List.prefix_nil.1 hus]
  simp

theorem closesWithin_cons :
    ClosesWithin depth (t :: ts) ↔
      ∀ us, us <+: ts → (t :: us).count closing ≤ (t :: us).count opening + depth := by
  constructor
  · intro h us hus
    exact h (t :: us) ((List.prefix_cons_inj t).2 hus)
  · intro h us hus
    rcases List.prefix_cons_iff.1 hus with rfl | ⟨vs, rfl, hvs⟩
    · simp
    · exact h vs hvs

theorem closesWithin_opening : ClosesWithin depth (opening :: ts) ↔ ClosesWithin (depth + 1) ts := by
  rw [closesWithin_cons]
  refine forall₂_congr fun us _ => ?_
  rw [List.count_cons_self, List.count_cons_of_ne (by decide)]
  omega

theorem closesWithin_closing : ClosesWithin (depth + 1) (closing :: ts) ↔ ClosesWithin depth ts := by
  rw [closesWithin_cons]
  refine forall₂_congr fun us _ => ?_
  rw [List.count_cons_self, List.count_cons_of_ne (by decide)]
  omega

theorem not_closesWithin_closing (ts : List Token) : ¬ ClosesWithin 0 (closing :: ts) := by
  intro h
  have hfirst := h [closing] ⟨ts, rfl⟩
  simp at hfirst

theorem closesWithin_other (ho : t ≠ opening) (hc : t ≠ closing) :
    ClosesWithin depth (t :: ts) ↔ ClosesWithin depth ts := by
  rw [closesWithin_cons]
  refine forall₂_congr fun us _ => ?_
  rw [List.count_cons_of_ne ho, List.count_cons_of_ne hc]

/-! ## Balanced stretches -/

theorem balanced_singleton (ho : t ≠ opening) (hc : t ≠ closing) : Balanced [t] where
  within := (closesWithin_other ho hc).2 (closesWithin_nil 0)
  total := by rw [List.count_cons_of_ne ho, List.count_cons_of_ne hc, List.count_nil, List.count_nil]

namespace Balanced

/-- A balanced stretch in front makes no difference. -/
theorem append_iff (h : Balanced us) : Balanced (us ++ ts) ↔ Balanced ts := by
  have htotal := h.total
  constructor
  · rintro ⟨hwithin, hall⟩
    refine ⟨fun vs hvs => ?_, ?_⟩
    · have hle := hwithin (us ++ vs) ((List.prefix_append_right_inj us).2 hvs)
      simp only [List.count_append] at hle
      omega
    · simp only [List.count_append] at hall
      omega
  · rintro ⟨hwithin, hall⟩
    refine ⟨fun vs hvs => ?_, ?_⟩
    · rcases List.prefix_or_prefix_of_prefix hvs (List.prefix_append us ts) with hvs | ⟨ws, rfl⟩
      · exact h.within vs hvs
      · have hle := hwithin ws ((List.prefix_append_right_inj us).1 hvs)
        simp only [List.count_append]
        omega
    · simp only [List.count_append]
      omega

theorem append (h : Balanced us) (h' : Balanced ts) : Balanced (us ++ ts) :=
  h.append_iff.2 h'

theorem group (h : Balanced ts) : Balanced (opening :: (ts ++ [closing])) where
  within := by
    rw [closesWithin_opening]
    intro us hus
    have htotal := h.total
    rcases List.prefix_concat_iff.1 hus with rfl | hus
    · simp [htotal]
    · have hle := h.within us hus
      omega
  total := by
    have htotal := h.total
    simp [htotal]

end Balanced

/-! ## The closing place -/

/-- What a closing place stands at. -/
theorem split_of_closeFrom {n : Nat} (h : closeFrom depth ts = some n) :
    ts = ts.take n ++ closing :: ts.drop (n + 1) := by
  fun_induction closeFrom depth ts generalizing n with
  | case1 => cases h
  | case2 depth ts ih | case5 depth op ts ih | case6 depth s ts ih =>
    obtain ⟨i, hi, rfl⟩ := Option.map_eq_some_iff.1 h
    simpa using ih hi
  | case3 depth ts hd =>
    cases h
    rfl
  | case4 depth ts hd ih =>
    obtain ⟨i, hi, rfl⟩ := Option.map_eq_some_iff.1 h
    simpa using ih hi

/-- The search passes over a stretch that keeps it open, and goes on at the depth reached. -/
theorem closeFrom_append {after : Nat} (h : ClosesWithin depth ts)
    (hafter : ts.count closing + after = ts.count opening + depth) (rest : List Token) :
    closeFrom (depth + 1) (ts ++ rest) = (closeFrom (after + 1) rest).map (· + ts.length) := by
  induction ts generalizing depth with
  | nil =>
    obtain rfl : after = depth := by simpa using hafter
    simp
  | cons t ts ih =>
    have hcount : ∀ n, Option.map (· + 1) (Option.map (· + n) (closeFrom (after + 1) rest)) =
        Option.map (· + (n + 1)) (closeFrom (after + 1) rest) := by
      intro n
      rw [Option.map_map]
      rfl
    cases t with
    | opening =>
      rw [List.count_cons_self, List.count_cons_of_ne (by decide)] at hafter
      rw [List.cons_append, closeFrom, ih (closesWithin_opening.1 h) (by omega), hcount, List.length_cons]
    | closing =>
      cases depth with
      | zero => exact absurd h (not_closesWithin_closing ts)
      | succ depth =>
        rw [List.count_cons_self, List.count_cons_of_ne (by decide)] at hafter
        rw [List.cons_append, closeFrom, if_neg (by omega), Nat.add_sub_cancel,
          ih (closesWithin_closing.1 h) (by omega), hcount, List.length_cons]
    | operator op | symbol s =>
      rw [List.count_cons_of_ne (by simp), List.count_cons_of_ne (by simp)] at hafter
      rw [List.cons_append, closeFrom, ih ((closesWithin_other (by simp) (by simp)).1 h) hafter, hcount,
        List.length_cons]

theorem closesWithin_of_closeFrom_none (h : closeFrom (depth + 1) ts = none) :
    ClosesWithin depth ts := by
  induction ts generalizing depth with
  | nil => exact closesWithin_nil depth
  | cons t ts ih =>
    cases t with
    | opening =>
      rw [closeFrom, Option.map_eq_none_iff] at h
      exact closesWithin_opening.2 (ih h)
    | closing =>
      cases depth with
      | zero => simp [closeFrom] at h
      | succ depth =>
        rw [closeFrom, if_neg (by omega), Option.map_eq_none_iff] at h
        exact closesWithin_closing.2 (ih h)
    | operator op | symbol s =>
      rw [closeFrom, Option.map_eq_none_iff] at h
      exact (closesWithin_other (by simp) (by simp)).2 (ih h)

/-- Before the closing place the search stays open, and just there it is not any more. -/
theorem closesWithin_of_closeFrom {n : Nat} (h : closeFrom (depth + 1) ts = some n) :
    ClosesWithin depth (ts.take n) ∧
      (ts.take n).count closing = (ts.take n).count opening + depth := by
  induction ts generalizing depth n with
  | nil => cases h
  | cons t ts ih =>
    cases t with
    | opening =>
      obtain ⟨i, hi, rfl⟩ := Option.map_eq_some_iff.1 h
      obtain ⟨hwithin, hcount⟩ := ih hi
      refine ⟨closesWithin_opening.2 hwithin, ?_⟩
      rw [List.take_succ_cons, List.count_cons_self, List.count_cons_of_ne (by decide)]
      omega
    | closing =>
      cases depth with
      | zero =>
        cases h
        exact ⟨closesWithin_nil 0, rfl⟩
      | succ depth =>
        rw [closeFrom, if_neg (by omega)] at h
        obtain ⟨i, hi, rfl⟩ := Option.map_eq_some_iff.1 h
        obtain ⟨hwithin, hcount⟩ := ih hi
        refine ⟨closesWithin_closing.2 hwithin, ?_⟩
        rw [List.take_succ_cons, List.count_cons_self, List.count_cons_of_ne (by decide)]
        omega
    | operator op | symbol s =>
      obtain ⟨i, hi, rfl⟩ := Option.map_eq_some_iff.1 h
      obtain ⟨hwithin, hcount⟩ := ih hi
      refine ⟨(closesWithin_other (by simp) (by simp)).2 hwithin, ?_⟩
      rw [List.take_succ_cons, List.count_cons_of_ne (by simp), List.count_cons_of_ne (by simp), hcount]

/-- What stands between a parenthesis and its closing place is balanced. -/
theorem balanced_of_closeFrom {n : Nat} (h : closeFrom 1 ts = some n) : Balanced (ts.take n) :=
  ⟨(closesWithin_of_closeFrom h).1, (closesWithin_of_closeFrom h).2⟩

theorem Balanced.closeFrom_append (h : Balanced ts) (rest : List Token) :
    closeFrom 1 (ts ++ closing :: rest) = some ts.length := by
  have hcount : ts.count closing + 0 = ts.count opening + 0 := h.total
  rw [Token.closeFrom_append h.within hcount]
  simp [closeFrom]

/-- An opening parenthesis that is never closed leaves the stretch unbalanced. -/
theorem not_balanced_of_closeFrom_none (h : closeFrom 1 ts = none) : ¬ Balanced (opening :: ts) := by
  intro hbalanced
  have htotal := hbalanced.total
  have hle := closesWithin_of_closeFrom_none h ts (List.prefix_refl ts)
  rw [List.count_cons_self, List.count_cons_of_ne (by decide)] at htotal
  omega

end Reasoner.Token
