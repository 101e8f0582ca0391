/-
Groups within groups. Reading a token list hands on what stands inside its outermost
parentheses (`Token.Inside`) and nothing else (`Formula.ofTokensBy_congr`). Each inside
stands between a parenthesis and its closing place (`Token.Inside.bracketed`), so it is
balanced and at least two tokens shorter than the list. Hence reading nests no deeper than
half as many levels as there are tokens (`Formula.iterate_ofTokensBy`): it ends on every
list.
-/
import Mathlib.Logic.Function.Iterate
import Reasoner.Formula.Parse
import Reasoner.Proofs.ClosingPlace

namespace Reasoner

/-! ## The insides of the outermost groups -/

namespace Token

/-- `us` stands inside one of the outermost groups of `ts`, as grouping comes to them from
the left. -/
inductive Inside (us : List Token) : List Token → Prop
  | group {ts : List Token} {close : Nat} (found : matchingClose? (opening :: ts) 0 = some close)
      (inner : us = ts.take (close - 1)) : Inside us (opening :: ts)
  | later {ts : List Token} {close : Nat} (found : matchingClose? (opening :: ts) 0 = some close)
      (rest : Inside us (ts.drop close)) : Inside us (opening :: ts)
  | operator {op : Operator} {ts : List Token} (rest : Inside us ts) : Inside us (operator op :: ts)
  | symbol {s : Symbol} {ts : List Token} (rest : Inside us ts) : Inside us (symbol s :: ts)

/-- `us` stands between a parenthesis of `ts` and the one that closes it. -/
def Bracketed (us ts : List Token) : Prop :=
  ∃ start close, ts[start]? = some opening ∧ matchingClose? ts start = some close ∧
    us = ts.extract (start + 1) close

theorem matchingClose?_append (ws ts : List Token) (start : Nat) :
    matchingClose? (ws ++ ts) (ws.length + start) =
      (matchingClose? ts start).map (ws.length + ·) := by
  rw [matchingClose?, matchingClose?, List.drop_length_add_append, Option.map_map]
  congr 1
  funext n
  exact Nat.add_assoc ws.length start n

namespace Bracketed

variable {us ts : List Token}

/-- Tokens in front only move the places. -/
theorem append (h : Bracketed us ts) (ws : List Token) : Bracketed us (ws ++ ts) := by
  obtain ⟨start, close, hopening, hclose, rfl⟩ := h
  refine ⟨ws.length + start, ws.length + close, ?_, ?_, ?_⟩
  · rwa [List.getElem?_append_right (Nat.le_add_right _ _), Nat.add_sub_cancel_left]
  · rw [matchingClose?_append, hclose]
    rfl
  · rw [List.extract_eq_take_drop, List.extract_eq_take_drop, Nat.add_assoc,
      List.drop_length_add_append, Nat.add_sub_add_left]

theorem of_suffix {ws : List Token} (h : Bracketed us ts) (hs : ts <:+ ws) : Bracketed us ws := by
  obtain ⟨before, rfl⟩ := hs
  exact h.append before

theorem balanced (h : Bracketed us ts) : Balanced us := by
  obtain ⟨start, close, hopening, hclose, rfl⟩ := h
  exact (closesAt_of_matchingClose? hopening hclose).balanced

theorem length_add_two_le (h : Bracketed us ts) : us.length + 2 ≤ ts.length := by
  obtain ⟨start, close, hopening, hclose, rfl⟩ := h
  have hcloses := closesAt_of_matchingClose? hopening hclose
  have hlt := hcloses.lt
  obtain ⟨hplace, -⟩ := List.getElem?_eq_some_iff.1 hcloses.token
  rw [List.extract_eq_take_drop, List.length_take, List.length_drop]
  omega

end Bracketed

/-- **Insides stand in brackets.** -/
theorem Inside.bracketed {us ts : List Token} (h : Inside us ts) : Bracketed us ts := by
  induction h with
  | @group ts close found inner =>
    refine ⟨0, close, rfl, found, ?_⟩
    rw [inner, List.extract_eq_take_drop, Nat.zero_add, List.drop_succ_cons, List.drop_zero]
  | later _ _ ih => exact ih.of_suffix ((List.drop_suffix _ _).trans (List.suffix_cons _ _))
  | operator _ ih | symbol _ ih => exact ih.of_suffix (List.suffix_cons _ _)

end Token

/-! ## Reading, one level at a time -/

/-- The pieces of a token list, with `read` for the inside of every group. -/
def Piece.ofTokensBy (read : List Token → Except SyntaxError Formula) :
    List Token → Except SyntaxError (List (Piece Operator))
  | [] => .ok []
  | .symbol s :: ts => do return operand (.symbol s) :: (← ofTokensBy read ts)
  | .operator op :: ts => do return operator op :: (← ofTokensBy read ts)
  | .closing :: _ => .error .unmatchedParenthesis
  | .opening :: ts =>
    match Token.matchingClose? (.opening :: ts) 0 with
    | none => .error .unmatchedParenthesis
    | some close => do
      let group ← read (ts.take (close - 1))
      return operand group :: (← ofTokensBy read (ts.drop close))
termination_by ts => ts.length

/-- One level of reading, with `read` for the levels below it. -/
def Formula.ofTokensBy (read : List Token → Except SyntaxError Formula) (ts : List Token) :
    Except SyntaxError Formula := do
  Piece.assemble (← Piece.ofTokensBy read ts)

namespace Piece

theorem ofTokens_eq_ofTokensBy (ts : List Token) :
    ofTokens ts = ofTokensBy Formula.ofTokens ts := by
  fun_induction ofTokens ts with
  | case1 => rw [ofTokensBy]
  | case2 s ts ih | case3 op ts ih => rw [ofTokensBy, ih]
  | case4 => rw [ofTokensBy]
  | case5 ts hnone => rw [ofTokensBy, hnone]
  | case6 ts close hclose _ ihrest =>
    rw [ofTokensBy, hclose]
    simp only [ihrest, Formula.ofTokens, bind_assoc]

/-- Grouping hands on the insides of the outermost groups only. -/
theorem ofTokensBy_congr {read read' : List Token → Except SyntaxError Formula} {ts : List Token}
    (h : ∀ us, Token.Inside us ts → read us = read' us) :
    ofTokensBy read ts = ofTokensBy read' ts := by
  fun_induction ofTokensBy read ts with
  | case1 => rw [ofTokensBy]
  | case2 s ts ih => rw [ofTokensBy, ih fun us hus => h us (.symbol hus)]
  | case3 op ts ih => rw [ofTokensBy, ih fun us hus => h us (.operator hus)]
  | case4 => rw [ofTokensBy]
  | case5 ts hnone => rw [ofTokensBy, hnone]
  | case6 ts close hclose ih =>
    have hinner := h _ (.group hclose rfl)
    have hrest := ih fun us hus => h us (.later hclose hus)
    rw [ofTokensBy, hclose]
    simp only [hinner, hrest]

end Piece

namespace Formula

theorem ofTokens_eq_ofTokensBy (ts : List Token) : ofTokens ts = ofTokensBy ofTokens ts := by
  rw [ofTokens, ofTokensBy, Piece.ofTokens_eq_ofTokensBy]

theorem ofTokensBy_congr {read read' : List Token → Except SyntaxError Formula} {ts : List Token}
    (h : ∀ us, Token.Inside us ts → read us = read' us) :
    ofTokensBy read ts = ofTokensBy read' ts := by
  rw [ofTokensBy, ofTokensBy, Piece.ofTokensBy_congr h]

/-- **Reading ends.** So many levels down there is no group left, and what would be read
below makes no difference. -/
theorem iterate_ofTokensBy (read : List Token → Except SyntaxError Formula) {n : Nat}
    {ts : List Token} (h : ts.length < 2 * n) : ofTokensBy^[n] read ts = ofTokens ts := by
  induction n generalizing ts with
  | zero => exact absurd h (Nat.not_lt_zero _)
  | succ n ih =>
    rw [Function.iterate_succ_apply', ofTokens_eq_ofTokensBy]
    -- the insides are two tokens shorter, so one level fewer is deep enough for them
    refine ofTokensBy_congr fun us hus => ih ?_
    have hshorter := hus.bracketed.length_add_two_le
    omega

/-- **Parentheses are matched exactly, and reading goes inward.** A search from an opening
parenthesis is at a positive depth wherever it meets a closing one, so it never counts below
zero, and it returns at the one it meets at depth one. It finds a place when some place
closes the parenthesis, and then the first such place; what stands in between is balanced.
Reading a token list reads insides of its groups and nothing else, each the balanced stretch
between a parenthesis and its closing place, and so shorter than the list. Hence reading
ends: at a level half as deep as the list is long there is nothing left to read. -/
theorem parentheses_matched_exactly (ts : List Token) :
    (∀ start, ts[start]? = some .opening →
      (∀ depth us, Token.Seek.Reaches ⟨0, ts.drop start⟩ ⟨depth, .closing :: us⟩ → 1 ≤ depth) ∧
      (∀ close, Token.matchingClose? ts start = some close ↔
        ∃ us, Token.Seek.Reaches ⟨0, ts.drop start⟩ ⟨1, .closing :: us⟩ ∧
          close + 1 + us.length = ts.length) ∧
      ((∃ close, Token.matchingClose? ts start = some close) ↔
        ∃ close, Token.ClosedBy ts start close) ∧
      ∀ close, Token.matchingClose? ts start = some close ↔ Token.ClosesAt ts start close) ∧
    ofTokens ts = ofTokensBy ofTokens ts ∧
    (∀ read read', (∀ us, Token.Inside us ts → read us = read' us) →
      ofTokensBy read ts = ofTokensBy read' ts) ∧
    (∀ us, Token.Inside us ts →
      Token.Bracketed us ts ∧ us.length < ts.length ∧ Token.Balanced us) ∧
    ∀ read n, ts.length < 2 * n → ofTokensBy^[n] read ts = ofTokens ts := by
  refine ⟨fun start h => ⟨?_, ?_, ?_, ?_⟩, ofTokens_eq_ofTokensBy ts, ?_, ?_, ?_⟩
  · intro depth us hreach
    rw [Token.drop_of_opening h] at hreach
    exact Token.Seek.one_le_depth_of_closing hreach
  · exact fun close => Token.matchingClose?_eq_some_iff_reaches h
  · exact Token.exists_matchingClose?_iff h
  · exact fun close => Token.matchingClose?_eq_some_iff h
  · exact fun read read' hagree => ofTokensBy_congr hagree
  · intro us hus
    have hbracketed := hus.bracketed
    have hshorter := hbracketed.length_add_two_le
    exact ⟨hbracketed, by omega, hbracketed.balanced⟩
  · exact fun read n hdeep => iterate_ofTokensBy read hdeep

/-- In `(a & (b)))` the search from the first parenthesis meets a closing one at depth two
and returns at the next. What it encloses is read five levels down at most, and a reader
that knows only shorter lists is good enough. -/
theorem parentheses_matched_exactly_nested :
    let inner : List Token :=
      [.symbol ⟨"a"⟩, .operator (.binary .and), .opening, .symbol ⟨"b"⟩, .closing]
    let ts : List Token := .opening :: (inner ++ [.closing, .closing])
    ts[0]? = some .opening ∧ Token.matchingClose? ts 0 = some 6 ∧
      Token.Seek.Reaches ⟨0, ts⟩ ⟨2, [.closing, .closing, .closing]⟩ ∧ 1 ≤ 2 ∧
      Token.ClosesAt ts 0 6 ∧
      Token.Inside inner ts ∧ inner.length < ts.length ∧ Token.Balanced inner ∧
      ofTokensBy ofTokens ts =
        ofTokensBy (fun us => if us.length < 8 then ofTokens us else .error .unreadable) ts ∧
      ofTokensBy^[5] (fun _ => .error .unreadable) ts = ofTokens ts := by
  intro inner ts
  obtain ⟨hsearch, -, hcongr, hinside, hends⟩ := parentheses_matched_exactly ts
  have hopening : ts[0]? = some .opening := rfl
  have hclose : Token.matchingClose? ts 0 = some 6 := by decide
  have hreach : Token.Seek.Reaches ⟨0, ts⟩ ⟨2, [.closing, .closing, .closing]⟩ :=
    .head rfl (.head rfl (.head rfl (.head rfl (.head rfl .refl))))
  have hinner : Token.Inside inner ts := .group hclose rfl
  obtain ⟨hdepth, -, -, hfound⟩ := hsearch 0 hopening
  obtain ⟨-, hshorter, hbalanced⟩ := hinside inner hinner
  refine ⟨hopening, hclose, hreach, hdepth 2 _ hreach, (hfound 6).1 hclose, hinner, hshorter,
    hbalanced, ?_, hends _ 5 (by decide)⟩
  refine hcongr _ _ fun us hus => ?_
  have hlength : us.length < 8 := (hinside us hus).2.1
  exact (if_pos hlength).symm

end Formula

end Reasoner
