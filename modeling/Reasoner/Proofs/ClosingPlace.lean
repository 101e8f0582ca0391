/-
The search for a closing place, token by token. A search under way stands at a depth with
some tokens ahead (`Seek`), and steps over the first of them or ends there (`Seek.next?`).
`closeFrom` is what comes of stepping on (`Seek.found_of_reaches`), and it finds a place
only where steps have led (`Seek.reaches_of_found`).

After the opening parenthesis it starts at, a search is at a positive depth, so the depth is
never lowered below zero (`Seek.one_le_depth_of_closing`). The place found is the first one
by which as many parentheses are closed as were opened (`matchingClose?_eq_some_iff`), and
if there is one it is found (`exists_matchingClose?_iff`).
-/
import Mathlib.Logic.Relation
import Mathlib.Order.Bounds.Basic
import Reasoner.Proofs.Brackets

namespace Reasoner.Token

theorem closeFrom_other {depth : Nat} {t : Token} {ts : List Token} (ho : t ≠ opening)
    (hc : t ≠ closing) : closeFrom depth (t :: ts) = (closeFrom depth ts).map (· + 1) := by
  cases t with
  | opening => exact absurd rfl ho
  | closing => exact absurd rfl hc
  | operator op | symbol s => rfl

/-- A search under way: how deep it stands, and the tokens ahead. -/
structure Seek where
  depth : Nat
  ahead : List Token

namespace Seek

/-- The search one token on. It ends where there are no more tokens, and at the parenthesis
that brings the depth back to zero. -/
def next? : Seek → Option Seek
  | ⟨_, []⟩ => none
  | ⟨depth, opening :: ts⟩ => some ⟨depth + 1, ts⟩
  | ⟨depth, closing :: ts⟩ => if depth - 1 = 0 then none else some ⟨depth - 1, ts⟩
  | ⟨depth, operator _ :: ts⟩ => some ⟨depth, ts⟩
  | ⟨depth, symbol _ :: ts⟩ => some ⟨depth, ts⟩

/-- `t` comes about from `s` by stepping on. -/
def Reaches : Seek → Seek → Prop :=
  Relation.ReflTransGen fun s t => s.next? = some t

/-- How far ahead the closing place is. -/
def found (s : Seek) : Option Nat :=
  closeFrom s.depth s.ahead

variable {s t : Seek}

/-! ## One step -/

theorem next?_cases (h : s.next? = some t) : ∃ depth ts,
    (s = ⟨depth, opening :: ts⟩ ∧ t = ⟨depth + 1, ts⟩) ∨
    (s = ⟨depth, closing :: ts⟩ ∧ depth - 1 ≠ 0 ∧ t = ⟨depth - 1, ts⟩) ∨
    ∃ token, s = ⟨depth, token :: ts⟩ ∧ token ≠ opening ∧ token ≠ closing ∧ t = ⟨depth, ts⟩ := by
  obtain ⟨depth, ahead⟩ := s
  cases ahead with
  | nil => cases h
  | cons token ts =>
    refine ⟨depth, ts, ?_⟩
    cases token with
    | opening => exact .inl ⟨rfl, (Option.some.inj h).symm⟩
    | closing =>
      simp only [next?] at h
      split at h
      next => cases h
      next hdepth => exact .inr (.inl ⟨rfl, hdepth, (Option.some.inj h).symm⟩)
    | operator op | symbol x => exact .inr (.inr ⟨_, rfl, by simp, by simp, (Option.some.inj h).symm⟩)

theorem found_of_next? (h : s.next? = some t) :
    s.ahead.length = t.ahead.length + 1 ∧ s.found = t.found.map (· + 1) := by
  obtain ⟨depth, ts, ⟨rfl, rfl⟩ | ⟨rfl, hdepth, rfl⟩ | ⟨token, rfl, hopening, hclosing, rfl⟩⟩ :=
    next?_cases h
  · exact ⟨rfl, rfl⟩
  · exact ⟨rfl, by rw [found, closeFrom, if_neg hdepth, found]⟩
  · exact ⟨rfl, closeFrom_other hopening hclosing⟩

theorem one_le_depth_of_next? (h : s.next? = some t) (hs : 1 ≤ s.depth) : 1 ≤ t.depth := by
  obtain ⟨depth, ts, ⟨rfl, rfl⟩ | ⟨rfl, hdepth, rfl⟩ | ⟨token, rfl, -, -, rfl⟩⟩ := next?_cases h
  · exact Nat.le_add_left 1 depth
  · exact Nat.one_le_iff_ne_zero.2 hdepth
  · exact hs

/-! ## Stepping on -/

theorem found_of_reaches (h : Reaches s t) :
    ∃ passed, s.ahead.length = t.ahead.length + passed ∧ s.found = t.found.map (· + passed) := by
  induction h with
  | refl => exact ⟨0, rfl, by simp⟩
  | @tail t u _ hstep ih =>
    obtain ⟨passed, hlength, hfound⟩ := ih
    obtain ⟨hone, hnext⟩ := found_of_next? hstep
    refine ⟨passed + 1, by omega, ?_⟩
    rw [hfound, hnext, Option.map_map]
    congr 1
    funext n
    simp only [Function.comp_apply]
    omega

/-- A search that finds a place gets to it, and there the depth is brought back to zero. -/
theorem reaches_of_found {depth n : Nat} {ts : List Token} (h : closeFrom depth ts = some n) :
    ∃ last us, Reaches ⟨depth, ts⟩ ⟨last, closing :: us⟩ ∧ last - 1 = 0 ∧
      n + 1 + us.length = ts.length := by
  fun_induction closeFrom depth ts generalizing n with
  | case1 => cases h
  | case2 depth ts ih | case5 depth op ts ih | case6 depth x ts ih =>
    obtain ⟨i, hi, rfl⟩ := Option.map_eq_some_iff.1 h
    obtain ⟨last, us, hreach, hzero, hlength⟩ := ih hi
    exact ⟨last, us, .head rfl hreach, hzero, by rw [List.length_cons]; omega⟩
  | case3 depth ts hdepth =>
    cases h
    exact ⟨depth, ts, .refl, hdepth, by rw [List.length_cons]; omega⟩
  | case4 depth ts hdepth ih =>
    obtain ⟨i, hi, rfl⟩ := Option.map_eq_some_iff.1 h
    obtain ⟨last, us, hreach, hzero, hlength⟩ := ih hi
    exact ⟨last, us, .head (if_neg hdepth) hreach, hzero, by rw [List.length_cons]; omega⟩

theorem one_le_depth_of_reaches (h : Reaches s t) (hs : 1 ≤ s.depth) : 1 ≤ t.depth := by
  induction h with
  | refl => exact hs
  | tail _ hstep ih => exact one_le_depth_of_next? hstep ih

/-- **The depth is positive wherever it is lowered**, in a search that starts at an opening
parenthesis. -/
theorem one_le_depth_of_closing {depth : Nat} {ts us : List Token}
    (h : Reaches ⟨0, opening :: ts⟩ ⟨depth, closing :: us⟩) : 1 ≤ depth := by
  rcases Relation.ReflTransGen.cases_head h with heq | ⟨first, hfirst, hlater⟩
  · cases heq
  · cases hfirst
    exact one_le_depth_of_reaches hlater (Nat.le_refl 1)

end Seek

/-! ## The first place that closes -/

/-- From `start` up to and including `close` as many parentheses are closed as are opened. -/
def ClosedBy (ts : List Token) (start close : Nat) : Prop :=
  start ≤ close ∧ close < ts.length ∧
    (ts.extract start (close + 1)).count closing = (ts.extract start (close + 1)).count opening

theorem getElem?_of_closeFrom {depth n : Nat} {ts : List Token} (h : closeFrom depth ts = some n) :
    ts[n]? = some closing := by
  have hsplit := split_of_closeFrom h
  have hlength := congrArg List.length hsplit
  rw [List.length_append, List.length_take, List.length_cons, List.length_drop] at hlength
  have htake : (ts.take n).length = n := by
    rw [List.length_take]
    omega
  rw [hsplit, List.getElem?_append_right (by omega), htake, Nat.sub_self, List.getElem?_cons_zero]

/-- The parenthesis at `start` is closed at `close`, and nowhere before. -/
structure ClosesAt (ts : List Token) (start close : Nat) : Prop where
  lt : start < close
  token : ts[close]? = some closing
  /-- Nothing in between closes more than it opens, or is left open. -/
  balanced : Balanced (ts.extract (start + 1) close)
  first : IsLeast {c | ClosedBy ts start c} close

section Matching

variable {ts : List Token} {start close : Nat} (h : ts[start]? = some opening)
include h

theorem drop_of_opening : ts.drop start = opening :: ts.drop (start + 1) := by
  obtain ⟨hlt, htoken⟩ := List.getElem?_eq_some_iff.1 h
  rw [List.drop_eq_getElem_cons hlt, htoken]

theorem matchingClose?_of_opening :
    matchingClose? ts start = (closeFrom 1 (ts.drop (start + 1))).map (start + 1 + ·) := by
  rw [matchingClose?, drop_of_opening h, closeFrom, Option.map_map]
  congr 1
  funext n
  simp only [Function.comp_apply]
  omega

/-- The parenthesis itself counts as one opened. -/
theorem closedBy_iff : ClosedBy ts start close ↔ start ≤ close ∧ close < ts.length ∧
    ((ts.drop (start + 1)).take (close - start)).count closing =
      ((ts.drop (start + 1)).take (close - start)).count opening + 1 := by
  refine and_congr_right fun hle => and_congr_right fun _ => ?_
  have hstretch : ts.extract start (close + 1) =
      opening :: (ts.drop (start + 1)).take (close - start) := by
    rw [List.extract_eq_take_drop, drop_of_opening h, Nat.succ_sub hle, List.take_succ_cons]
  rw [hstretch, List.count_cons_self, List.count_cons_of_ne (by decide)]

theorem not_closedBy_of_closesWithin {us : List Token} (hwithin : ClosesWithin 0 us)
    (hfront : (ts.drop (start + 1)).take (close - start) <+: us) : ¬ ClosedBy ts start close := by
  intro hclosed
  have hle := hwithin _ hfront
  have hcount := ((closedBy_iff h).1 hclosed).2.2
  omega

/-- **What the search finds** is the place where the parenthesis closes. -/
theorem closesAt_of_matchingClose? (hclose : matchingClose? ts start = some close) :
    ClosesAt ts start close := by
  rw [matchingClose?_of_opening h] at hclose
  obtain ⟨n, hn, rfl⟩ := Option.map_eq_some_iff.1 hclose
  have hbalanced := balanced_of_closeFrom hn
  have htoken : (ts.drop (start + 1))[n]? = some closing := getElem?_of_closeFrom hn
  have hat : ts[start + 1 + n]? = some closing := by rwa [List.getElem?_drop] at htoken
  refine ⟨by omega, hat, ?_, ?_, ?_⟩
  · rwa [List.extract_eq_take_drop, Nat.add_sub_cancel_left]
  · obtain ⟨hlt, -⟩ := List.getElem?_eq_some_iff.1 hat
    have hplaces : start + 1 + n - start = n + 1 := by omega
    refine (closedBy_iff h).2 ⟨by omega, hlt, ?_⟩
    rw [hplaces, List.take_add_one, htoken]
    have htotal := hbalanced.total
    simp [htotal]
  · intro c hc
    -- up to an earlier place the stretch after the parenthesis never closes more than it opened
    by_contra hearlier
    have hfront : (ts.drop (start + 1)).take (c - start) <+: (ts.drop (start + 1)).take n :=
      List.take_prefix_take_left (by omega)
    exact not_closedBy_of_closesWithin h hbalanced.within hfront hc

theorem exists_matchingClose?_iff :
    (∃ close, matchingClose? ts start = some close) ↔ ∃ close, ClosedBy ts start close := by
  constructor
  · rintro ⟨close, hclose⟩
    exact ⟨close, (closesAt_of_matchingClose? h hclose).first.1⟩
  · rintro ⟨close, hclosed⟩
    cases hn : closeFrom 1 (ts.drop (start + 1)) with
    | some n => exact ⟨start + 1 + n, by rw [matchingClose?_of_opening h, hn]; rfl⟩
    | none =>
      have hwithin := closesWithin_of_closeFrom_none hn
      exact absurd hclosed (not_closedBy_of_closesWithin h hwithin (List.take_prefix _ _))

theorem matchingClose?_eq_some_iff :
    matchingClose? ts start = some close ↔ ClosesAt ts start close := by
  refine ⟨closesAt_of_matchingClose? h, fun hcloses => ?_⟩
  obtain ⟨other, hother⟩ := (exists_matchingClose?_iff h).2 ⟨close, hcloses.first.1⟩
  have hsame : other = close := (closesAt_of_matchingClose? h hother).first.unique hcloses.first
  rwa [hsame] at hother

/-- The search returns at the closing parenthesis it meets at depth one. -/
theorem matchingClose?_eq_some_iff_reaches :
    matchingClose? ts start = some close ↔
      ∃ us, Seek.Reaches ⟨0, ts.drop start⟩ ⟨1, closing :: us⟩ ∧ close + 1 + us.length = ts.length := by
  obtain ⟨hlt, -⟩ := List.getElem?_eq_some_iff.1 h
  have hlength : (ts.drop start).length = ts.length - start := List.length_drop
  constructor
  · intro hclose
    obtain ⟨n, hn, rfl⟩ := Option.map_eq_some_iff.1 hclose
    obtain ⟨last, us, hreach, hzero, hleft⟩ := Seek.reaches_of_found hn
    have hone : 1 ≤ last := by
      rw [drop_of_opening h] at hreach
      exact Seek.one_le_depth_of_closing hreach
    obtain rfl : last = 1 := by omega
    exact ⟨us, hreach, by omega⟩
  · rintro ⟨us, hreach, hleft⟩
    obtain ⟨passed, hpassed, hfound⟩ := Seek.found_of_reaches hreach
    have htokens : (ts.drop start).length = us.length + 1 + passed := hpassed
    have hhere : Seek.found ⟨1, closing :: us⟩ = some 0 := rfl
    rw [hhere, Seek.found] at hfound
    rw [matchingClose?, hfound, Option.map_some, Option.map_some, Option.some.injEq]
    omega

end Matching

end Reasoner.Token
