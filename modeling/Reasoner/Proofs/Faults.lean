/-
The faults of a text are defects of its tokens. A stage of reading that fails does so at
an operator next to which there is no operand, and reading ends with a single operand
unless there is none at all or two stand side by side. The pieces that a stage sees cover
the tokens (`Covers`), so what stands next to an operator among the pieces stands next to
it among the tokens (`Piece.assemble_error`). Groups are read before what stands around
them, so a fault inside a group is reported first (`Piece.ofTokens_error`).
-/
import Reasoner.Proofs.Defects

namespace Reasoner

open Token

/-! ## From pieces to tokens -/

namespace Covers

variable {Op : Type} {token : Op → Operator} {k : Category} {ts : List Token}
  {ps qs : List (Piece Op)}

theorem of_nil (h : Covers token k ts []) : ts = [] := by
  cases h
  rfl

theorem of_append (h : Covers token k ts (ps ++ qs)) :
    ∃ us vs, ts = us ++ vs ∧ Covers token k us ps ∧ Covers token k vs qs := by
  induction ps generalizing ts with
  | nil => exact ⟨[], ts, rfl, .nil, h⟩
  | cons p ps ih =>
    cases h with
    | @operand us rest _ _ hd tail =>
      obtain ⟨vs, ws, rfl, hvs, hws⟩ := ih tail
      exact ⟨us ++ vs, ws, by rw [List.append_assoc], .operand hd hvs, hws⟩
    | @operator op rest _ tail =>
      obtain ⟨vs, ws, rfl, hvs, hws⟩ := ih tail
      exact ⟨.operator (token op) :: vs, ws, rfl, .operator hvs, hws⟩

/-- An operator among the pieces stands for itself. -/
theorem of_append_operator {op : Op} (h : Covers token k ts (ps ++ .operator op :: qs)) :
    ∃ us vs, ts = us ++ .operator (token op) :: vs ∧ Covers token k us ps ∧ Covers token k vs qs := by
  obtain ⟨us, vs, rfl, hus, hvs⟩ := h.of_append
  cases hvs with
  | operator tail => exact ⟨us, _, rfl, hus, tail⟩

theorem noOperandAfter (h : Covers token k ts ps)
    (hps : ∀ q ∈ ps.head?, ∃ op c, q = .operator op ∧ token op = .binary c) : NoOperandAfter ts := by
  cases h with
  | nil => simp [NoOperandAfter]
  | operand hd tail =>
    obtain ⟨op, c, hq, -⟩ := hps _ rfl
    cases hq
  | @operator op rest ps tail =>
    obtain ⟨_, c, hq, hop⟩ := hps _ rfl
    cases hq
    intro t ht
    obtain rfl : Token.operator (token op) = t := by simpa using ht
    exact .inr ⟨c, by rw [hop]⟩

theorem noOperandBefore (h : Covers token k ts ps)
    (hps : ∀ q ∈ ps.getLast?, ∃ op c, q = .operator op ∧ token op = .binary c) :
    NoOperandBefore ts := by
  rcases List.eq_nil_or_concat ps with rfl | ⟨earlier, q, rfl⟩
  · obtain rfl := h.of_nil
    simp [NoOperandBefore]
  · obtain ⟨op, c, rfl, hop⟩ := hps q (by simp)
    rw [List.concat_eq_append] at h
    obtain ⟨us, vs, rfl, -, hvs⟩ := h.of_append_operator
    obtain rfl := hvs.of_nil
    intro t ht
    obtain rfl : Token.operator (token op) = t := by simpa using ht
    exact .inr ⟨c, by rw [hop]⟩

end Covers

namespace Piece

/-! ## Stages that fail -/

theorem negateFirst_eq_error {qs : List (Piece Connective)} {fault : SyntaxError} :
    negateFirst qs = .error fault ↔
      fault = .missingOperand .not ∧ ∀ p rest, qs ≠ operand p :: rest := by
  unfold negateFirst
  split
  next p rest => simp
  next hne => exact ⟨fun h => ⟨by cases h; rfl, hne⟩, fun h => by rw [h.1]⟩

/-- Unless the pieces start with a connective, an operand comes first once all negations
are applied. -/
theorem head?_of_negateAll {ps : List (Piece Operator)} {qs : List (Piece Connective)}
    (h : negateAll ps = .ok qs) :
    (∃ p rest, qs = operand p :: rest) ∨ ∀ q ∈ ps.head?, ∃ c, q = operator (.binary c) := by
  match ps with
  | [] => exact .inr (by simp)
  | operand p :: ps =>
    simp only [negateAll, bind_eq_ok, pure_eq_ok] at h
    obtain ⟨rest, -, rfl⟩ := h
    exact .inl ⟨p, rest, rfl⟩
  | operator (.binary c) :: ps => exact .inr (by simp)
  | operator .not :: ps =>
    simp only [negateAll, bind_eq_ok] at h
    obtain ⟨all, -, h⟩ := h
    obtain ⟨p, rest, -, rfl⟩ := negateFirst_eq_ok.1 h
    exact .inl ⟨.not p, rest, rfl⟩

/-- A negation that fails stands before a connective or at the end. -/
theorem negateAll_error {ps : List (Piece Operator)} {fault : SyntaxError}
    (h : negateAll ps = .error fault) :
    fault = .missingOperand .not ∧ ∃ before after, ps = before ++ operator .not :: after ∧
      ∀ q ∈ after.head?, ∃ c, q = operator (.binary c) := by
  induction ps with
  | nil => cases h
  | cons p ps ih =>
    -- a failure further on is one of the whole list
    have later : negateAll ps = .error fault → fault = .missingOperand .not ∧
        ∃ before after, p :: ps = before ++ operator .not :: after ∧
          ∀ q ∈ after.head?, ∃ c, q = operator (.binary c) := by
      intro h
      obtain ⟨hfault, before, after, rfl, hafter⟩ := ih h
      exact ⟨hfault, p :: before, after, rfl, hafter⟩
    cases p with
    | operand p =>
      rw [negateAll, bind_pure_eq_error] at h
      exact later h
    | operator op =>
      cases op with
      | binary c =>
        rw [negateAll, bind_pure_eq_error] at h
        exact later h
      | not =>
        simp only [negateAll, bind_eq_error] at h
        rcases h with h | ⟨qs, hqs, h⟩
        · exact later h
        · obtain ⟨hfault, hne⟩ := negateFirst_eq_error.1 h
          refine ⟨hfault, [], ps, rfl, ?_⟩
          rcases head?_of_negateAll hqs with ⟨p, rest, hq⟩ | hhead
          · exact absurd hq (hne p rest)
          · exact hhead

/-- A connective that fails lacks an operand on one of its sides. -/
theorem joinAll_error {c : Connective} {left : Option Formula} {qs : List (Piece Connective)}
    {fault : SyntaxError} (h : joinAll c left qs = .error fault) :
    fault = .missingOperand (.binary c) ∧ ∃ before after, qs = before ++ operator c :: after ∧
      ((∀ q ∈ (waiting left ++ before).getLast?, ∃ d, q = operator d) ∨
        ∀ q ∈ after.head?, ∃ d, q = operator d) := by
  fun_induction joinAll c left qs with
  | case1 left => cases h
  | case2 left p rest ih =>
    rw [bind_pure_eq_error] at h
    obtain ⟨hfault, before, after, rfl, hlacks⟩ := ih h
    refine ⟨hfault, operand p :: before, after, rfl, hlacks.imp_left fun hbefore => ?_⟩
    rw [List.getLast?_append_cons]
    exact hbefore
  | case3 l r rest ih =>
    obtain ⟨hfault, before, after, rfl, hlacks⟩ := ih h
    refine ⟨hfault, operator c :: operand r :: before, after, rfl, hlacks.imp_left fun hbefore => ?_⟩
    cases before with
    | nil =>
      obtain ⟨d, hd⟩ := hbefore _ rfl
      cases hd
    | cons q before =>
      rw [List.getLast?_append_cons, List.getLast?_cons_cons, List.getLast?_cons_cons]
      rwa [List.getLast?_append_cons] at hbefore
  | case4 left rest hne =>
    cases h
    refine ⟨rfl, [], rest, rfl, ?_⟩
    cases left with
    | none => exact .inl (by simp [waiting])
    | some l =>
      refine .inr fun q hq => ?_
      cases q with
      | operator d => exact ⟨d, rfl⟩
      | operand r =>
        obtain ⟨rest, rfl⟩ := List.head?_eq_some_iff.1 hq
        exact (hne l r rest rfl rfl).elim
  | case5 left d rest hne ih =>
    rw [bind_pure_eq_error] at h
    obtain ⟨hfault, before, after, rfl, hlacks⟩ := ih h
    refine ⟨hfault, operator d :: before, after, rfl, hlacks.imp_left fun hbefore => ?_⟩
    rw [List.getLast?_append_cons]
    cases before with
    | nil => simp
    | cons q before => exact hbefore

/-- A connective that has been joined is gone, and none is added. -/
theorem operator_of_joinAll {c d : Connective} {left : Option Formula}
    {qs rs : List (Piece Connective)} (h : joinAll c left qs = .ok rs) (hd : operator d ∈ rs) :
    d ≠ c ∧ operator d ∈ qs := by
  have hwaiting : ∀ left : Option Formula, operator d ∉ waiting left := by
    intro left
    cases left <;> simp [waiting]
  fun_induction joinAll c left qs generalizing rs with
  | case1 left =>
    cases h
    exact absurd hd (hwaiting left)
  | case2 left p rest ih =>
    simp only [bind_eq_ok, pure_eq_ok] at h
    obtain ⟨rs, hrs, rfl⟩ := h
    rcases List.mem_append.1 hd with hd | hd
    · exact absurd hd (hwaiting left)
    · exact (ih hrs hd).imp_right (.tail _)
  | case3 l r rest ih => exact (ih h hd).imp_right fun hmem => .tail _ (.tail _ hmem)
  | case4 => cases h
  | case5 left e rest hne ih =>
    simp only [bind_eq_ok, pure_eq_ok] at h
    obtain ⟨rs, hrs, rfl⟩ := h
    rcases List.mem_append.1 hd with hd | hd
    · exact absurd hd (hwaiting left)
    · rcases List.mem_cons.1 hd with heq | hd
      · cases heq
        exact ⟨hne, .head _⟩
      · exact (ih hrs hd).imp_right (.tail _)

/-! ## Faults of a stretch without brackets -/

variable {ts : List Token} {fault : SyntaxError}

theorem negateAll_error_found {ps : List (Piece Operator)} (h : Covers id .atom ts ps)
    (hfault : negateAll ps = .error fault) :
    fault ≠ .unmatchedParenthesis ∧ fault.FoundIn ts := by
  obtain ⟨rfl, before, after, rfl, hafter⟩ := negateAll_error hfault
  obtain ⟨us, vs, rfl, -, hvs⟩ := h.of_append_operator
  refine ⟨by simp, us, vs, rfl, hvs.noOperandAfter fun q hq => ?_⟩
  obtain ⟨c, rfl⟩ := hafter q hq
  exact ⟨.binary c, c, rfl, rfl⟩

theorem joinAll_error_found {c : Connective} {k : Category} {qs : List (Piece Connective)}
    (h : Covers .binary k ts qs) (hfault : joinAll c none qs = .error fault) :
    fault ≠ .unmatchedParenthesis ∧ fault.FoundIn ts := by
  obtain ⟨rfl, before, after, rfl, hlacks⟩ := joinAll_error hfault
  obtain ⟨us, vs, rfl, hus, hvs⟩ := h.of_append_operator
  refine ⟨by simp, us, vs, rfl, hlacks.imp (fun hbefore => ?_) fun hafter => ?_⟩
  · refine hus.noOperandBefore fun q hq => ?_
    obtain ⟨d, rfl⟩ := hbefore q hq
    exact ⟨d, d, rfl, rfl⟩
  · refine hvs.noOperandAfter fun q hq => ?_
    obtain ⟨d, rfl⟩ := hafter q hq
    exact ⟨d, d, rfl, rfl⟩

/-- Once all connectives are joined, only operands can be left. -/
theorem sole_error_found {k : Category} {rs : List (Piece Connective)}
    (h : Covers .binary k ts rs) (hoperands : ∀ d, operator d ∉ rs) (hfault : sole rs = .error fault) :
    fault ≠ .unmatchedParenthesis ∧ fault.FoundIn ts := by
  match rs with
  | [] =>
    cases hfault
    exact ⟨by simp, .inl h.of_nil⟩
  | [operand p] => cases hfault
  | operator d :: _ | operand _ :: operator d :: _ => exact absurd (by simp) (hoperands d)
  | operand p :: operand q :: rest =>
    cases hfault
    refine ⟨by simp, ?_⟩
    cases h with
    | @operand us _ _ _ hp tail =>
      cases tail with
      | @operand vs later _ _ hq tail =>
        -- the last token of the one operand stands just before the first of the other
        obtain ⟨x, hx, hends⟩ := hp.spaced.ends
        obtain ⟨y, hy, hstarts⟩ := hq.spaced.starts
        obtain ⟨us, rfl⟩ := List.getLast?_eq_some_iff.1 hx
        obtain ⟨vs, rfl⟩ := List.head?_eq_some_iff.1 hy
        exact ⟨x, y, ⟨us, vs ++ later, by simp⟩, hends, hstarts⟩

/-- **Without brackets, a fault is a defect of the tokens** that the pieces cover. -/
theorem assemble_error {ps : List (Piece Operator)} (h : Covers id .atom ts ps)
    (hfault : assemble ps = .error fault) : fault ≠ .unmatchedParenthesis ∧ fault.FoundIn ts := by
  simp only [assemble, Connective.byPrecedence, List.foldlM_cons, List.foldlM_nil, bind_pure,
    bind_eq_error, bind_eq_ok] at hfault
  -- The first stage that fails sees pieces that cover the tokens, since those before it succeed.
  rcases hfault with h0 | ⟨negated, h0, hfault⟩
  · exact negateAll_error_found h h0
  have hnegated := covers_of_negateAll h h0
  rcases hfault with (h1 | ⟨conjoined, h1, h2 | ⟨disjoined, h2, h3 | ⟨implied, h3, h4⟩⟩⟩) |
    ⟨joined, ⟨conjoined, h1, disjoined, h2, implied, h3, h4⟩, hsole⟩
  · exact joinAll_error_found hnegated h1
  · exact joinAll_error_found (covers_of_joinAll h1 .nil hnegated) h2
  · have hconjoined := covers_of_joinAll h1 .nil hnegated
    exact joinAll_error_found (covers_of_joinAll h2 .nil hconjoined) h3
  · have hconjoined := covers_of_joinAll h1 .nil hnegated
    have hdisjoined := covers_of_joinAll h2 .nil hconjoined
    exact joinAll_error_found (covers_of_joinAll h3 .nil hdisjoined) h4
  · have hconjoined := covers_of_joinAll h1 .nil hnegated
    have hdisjoined := covers_of_joinAll h2 .nil hconjoined
    have himplied := covers_of_joinAll h3 .nil hdisjoined
    refine sole_error_found (covers_of_joinAll h4 .nil himplied) (fun d hd => ?_) hsole
    -- every connective has had its stage
    obtain ⟨hiff, hd⟩ := operator_of_joinAll h4 hd
    obtain ⟨himplies, hd⟩ := operator_of_joinAll h3 hd
    obtain ⟨hor, hd⟩ := operator_of_joinAll h2 hd
    obtain ⟨hand, -⟩ := operator_of_joinAll h1 hd
    cases d <;> contradiction

/-! ## Faults of bracketed stretches -/

/-- The fault is a defect inside some group, or parentheses do not match. -/
def Arises (fault : SyntaxError) (ts : List Token) : Prop :=
  (fault = .unmatchedParenthesis ∧ ¬ Balanced ts) ∨
    (fault ≠ .unmatchedParenthesis ∧ ∃ earlier us later,
      ts = earlier ++ opening :: (us ++ closing :: later) ∧ fault.FoundIn us)

theorem Arises.foundIn (h : Arises fault ts) : fault.FoundIn ts := by
  rcases h with ⟨rfl, h⟩ | ⟨hfault, earlier, us, later, rfl, h⟩
  · exact h
  · exact h.enclosed hfault earlier later

/-- A balanced stretch in front makes no difference. -/
theorem Arises.append {us : List Token} (h : Arises fault ts) (hus : Balanced us) :
    Arises fault (us ++ ts) := by
  rcases h with ⟨hfault, h⟩ | ⟨hfault, earlier, vs, later, rfl, h⟩
  · exact .inl ⟨hfault, fun hall => h (hus.append_iff.1 hall)⟩
  · exact .inr ⟨hfault, us ++ earlier, vs, later, by rw [List.append_assoc], h⟩

theorem Arises.cons {t : Token} (h : Arises fault ts) (ho : t ≠ opening) (hc : t ≠ closing) :
    Arises fault (t :: ts) :=
  h.append (balanced_singleton ho hc)

/-- **Grouping fails** at a parenthesis without its counterpart or inside a group; the inside
of a group is balanced, so there no parenthesis lacks its counterpart. -/
theorem ofTokens_error (h : ofTokens ts = .error fault) : Arises fault ts := by
  -- By length: the inside of a group and what follows it are both shorter.
  induction hn : ts.length using Nat.strongRecOn generalizing ts with
  | ind n ih =>
  subst hn
  match ts with
  | [] =>
    rw [ofTokens] at h
    cases h
  | .symbol s :: ts =>
    rw [ofTokens, bind_pure_eq_error] at h
    exact (ih ts.length (by simp) h rfl).cons (by simp) (by simp)
  | .operator op :: ts =>
    rw [ofTokens, bind_pure_eq_error] at h
    exact (ih ts.length (by simp) h rfl).cons (by simp) (by simp)
  | .closing :: ts =>
    rw [ofTokens] at h
    cases h
    exact .inl ⟨rfl, fun hall => not_closesWithin_closing ts hall.within⟩
  | .opening :: ts =>
    rw [ofTokens_opening_eq] at h
    cases hclose : closeFrom 1 ts with
    | none =>
      rw [hclose] at h
      cases h
      exact .inl ⟨rfl, not_balanced_of_closeFrom_none hclose⟩
    | some n =>
      rw [hclose] at h
      have hbalanced := balanced_of_closeFrom hclose
      have hsplit : opening :: ts = opening :: (ts.take n ++ closing :: ts.drop (n + 1)) :=
        congrArg (opening :: ·) (split_of_closeFrom hclose)
      have hinside : (ts.take n).length < (opening :: ts).length := by
        rw [List.length_take, List.length_cons]
        omega
      have hafter : (ts.drop (n + 1)).length < (opening :: ts).length := by
        rw [List.length_drop, List.length_cons]
        omega
      rw [hsplit]
      rcases bind_eq_error.1 h with h | ⟨inner, hinner, h⟩
      · rcases ih _ hinside h rfl with ⟨-, h⟩ | ⟨hfault, earlier, us, later, htake, h⟩
        · exact absurd hbalanced h
        · refine .inr ⟨hfault, [], ts.take n, ts.drop (n + 1), rfl, ?_⟩
          rw [htake]
          exact h.enclosed hfault earlier later
      · rcases bind_eq_error.1 h with h | ⟨group, -, h⟩
        · obtain ⟨hfault, h⟩ := assemble_error (ofTokens_eq_ok_iff.1 hinner) h
          exact .inr ⟨hfault, [], ts.take n, ts.drop (n + 1), rfl, h⟩
        · rw [bind_pure_eq_error] at h
          have hrest := (ih _ hafter h rfl).append hbalanced.group
          simpa using hrest

end Piece

namespace Formula

theorem ofTokens_error {ts : List Token} {fault : SyntaxError} (h : ofTokens ts = .error fault) :
    fault.FoundIn ts := by
  rw [ofTokens, bind_eq_error] at h
  rcases h with h | ⟨ps, hps, h⟩
  · exact (Piece.ofTokens_error h).foundIn
  · exact (Piece.assemble_error (Piece.ofTokens_eq_ok_iff.1 hps) h).2

/-- **Every fault names a defect that is there.** The fault that a text is refused with can
be pointed out in its tokens, and a text is a sentence exactly when no defect can. -/
theorem parse_fault_found (text : String) :
    ∃ ts, Token.tokenize text = .ok ts ∧
      (∀ fault, parse text = .error fault → fault.FoundIn ts) ∧
      ((∃ p, parse text = .ok p) ↔ ∀ fault : SyntaxError, ¬ fault.FoundIn ts) := by
  have hfound : ∀ fault, parse text = .error fault →
      fault.FoundIn (Token.scan text.toList).1 := by
    intro fault h
    rw [parse_eq] at h
    exact ofTokens_error h
  refine ⟨_, Token.tokenize_eq text, hfound, ?_⟩
  constructor
  · rintro ⟨p, hp⟩
    rw [parse_eq, ofTokens_eq_ok_iff] at hp
    exact hp.not_foundIn
  · intro hnone
    cases h : parse text with
    | ok p => exact ⟨p, rfl⟩
    | error fault => exact absurd (hfound fault h) (hnone fault)

/-- In `a & (b => ~) c` the negation inside the group is found out first, whatever comes
after the group. -/
theorem parse_fault_found_in_group :
    parse "a & (b => ~) c" = .error (.missingOperand .not) ∧
      ∃ ts, Token.tokenize "a & (b => ~) c" = .ok ts ∧
        (SyntaxError.missingOperand .not).FoundIn ts := by
  have h : parse "a & (b => ~) c" = .error (.missingOperand .not) := by cbv
  obtain ⟨ts, hts, hfound, -⟩ := parse_fault_found "a & (b => ~) c"
  exact ⟨h, ts, hts, hfound _ h⟩

end Formula

end Reasoner
