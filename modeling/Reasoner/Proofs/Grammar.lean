/-
The grammar of sentences. Categories are stratified by binding strength, and each
connective is left-associative (`Derives`). Reading goes stage by stage over pieces,
so the link is a covering: pieces cover a token list when each operand stands for a
stretch from which a category derives its formula (`Covers`). Every stage turns a
covering by the operands of its operator into one by what the operator makes of them,
and every covering of the latter kind comes about in this way. At both ends stand the
tokens and a single operand, so reading accepts exactly the grammar
(`Formula.ofTokens_eq_ok_iff` for tokens, `Formula.parse_iff_derives` for texts).
-/
import Reasoner.Formula.Parse
import Reasoner.Proofs.Brackets
import Reasoner.Proofs.Failure
import Reasoner.Proofs.Tokens

namespace Reasoner

/-! ## The grammar -/

/-- What a stretch of tokens can be, from the tightest binding to the loosest. -/
inductive Category where
  /-- A symbol or a bracketed sentence. -/
  | atom
  /-- An atom after any number of `~`. -/
  | negation
  /-- One operand of the connective or several joined by it. -/
  | joined (c : Connective)

/-- What a connective joins: the next tighter category. -/
def Connective.operands : Connective → Category
  | .and => .negation
  | .or => .joined .and
  | .implies => .joined .or
  | .iff => .joined .implies

/-- The loosest category is that of whole sentences. -/
def Category.sentence : Category :=
  .joined .iff

/-- The tokens are of the category, and stand for the formula. -/
inductive Derives : Category → List Token → Formula → Prop
  | symbol (s : Symbol) : Derives .atom [.symbol s] (.symbol s)
  | group {ts : List Token} {p : Formula} (inner : Derives .sentence ts p) :
      Derives .atom (.opening :: (ts ++ [.closing])) p
  | atom {ts : List Token} {p : Formula} (h : Derives .atom ts p) : Derives .negation ts p
  | not {ts : List Token} {p : Formula} (h : Derives .negation ts p) :
      Derives .negation (.operator .not :: ts) (.not p)
  | operand {c : Connective} {ts : List Token} {p : Formula} (h : Derives c.operands ts p) :
      Derives (.joined c) ts p
  | join {c : Connective} {ls rs : List Token} {l r : Formula} (left : Derives (.joined c) ls l)
      (right : Derives c.operands rs r) :
      Derives (.joined c) (ls ++ .operator (.binary c) :: rs) (.binary c l r)

/-- Derived stretches are balanced. -/
theorem Derives.balanced {k : Category} {ts : List Token} {p : Formula} (h : Derives k ts p) :
    Token.Balanced ts := by
  induction h with
  | symbol s => exact Token.balanced_singleton (by simp) (by simp)
  | group _ ih => exact ih.group
  | atom _ ih => exact ih
  | not _ ih => exact (Token.balanced_singleton (by simp) (by simp)).append ih
  | operand _ ih => exact ih
  | join _ _ ihl ihr => exact ihl.append ((Token.balanced_singleton (by simp) (by simp)).append ihr)

/-! ## Coverings -/

/-- The pieces stand for the tokens, stretch by stretch: an operand for one of the
category, an operator for itself. -/
inductive Covers {Op : Type} (token : Op → Operator) (k : Category) :
    List Token → List (Piece Op) → Prop
  | nil : Covers token k [] []
  | operand {ts rest : List Token} {p : Formula} {ps : List (Piece Op)} (h : Derives k ts p)
      (tail : Covers token k rest ps) : Covers token k (ts ++ rest) (.operand p :: ps)
  | operator {op : Op} {rest : List Token} {ps : List (Piece Op)} (tail : Covers token k rest ps) :
      Covers token k (.operator (token op) :: rest) (.operator op :: ps)

namespace Covers

variable {Op : Type} {token : Op → Operator} {k : Category} {ts us : List Token}
  {ps qs : List (Piece Op)} {p : Formula}

theorem single (h : Derives k ts p) : Covers token k ts [.operand p] := by
  have hcover : Covers token k (ts ++ []) [.operand p] := operand h .nil
  rwa [List.append_nil] at hcover

theorem of_single (h : Covers token k ts [.operand p]) : Derives k ts p := by
  cases h with
  | operand h tail =>
    cases tail
    simpa using h

theorem append (h : Covers token k ts ps) (h' : Covers token k us qs) :
    Covers token k (ts ++ us) (ps ++ qs) := by
  induction h with
  | nil => exact h'
  | operand hd _ ih =>
    rw [List.append_assoc]
    exact operand hd ih
  | operator _ ih => exact operator ih

end Covers

namespace Piece

/-! ## Negations -/

theorem negateFirst_eq_ok {ps qs : List (Piece Connective)} :
    negateFirst ps = .ok qs ↔ ∃ p rest, ps = operand p :: rest ∧ qs = operand (.not p) :: rest := by
  unfold negateFirst
  split
  next p rest => simp [eq_comm]
  next hne =>
    refine iff_of_false (by simp) ?_
    rintro ⟨p, rest, rfl, -⟩
    exact hne p rest rfl

theorem covers_of_negateAll {ts : List Token} {ps : List (Piece Operator)}
    {qs : List (Piece Connective)} (h : Covers id .atom ts ps) (hq : negateAll ps = .ok qs) :
    Covers .binary .negation ts qs := by
  induction h generalizing qs with
  | nil =>
    cases hq
    exact .nil
  | operand hd _ ih =>
    simp only [negateAll, bind_eq_ok, pure_eq_ok] at hq
    obtain ⟨rest, hrest, rfl⟩ := hq
    exact .operand (.atom hd) (ih hrest)
  | @operator op ts ps _ ih =>
    cases op with
    | binary c =>
      simp only [negateAll, bind_eq_ok, pure_eq_ok] at hq
      obtain ⟨rest, hrest, rfl⟩ := hq
      exact .operator (ih hrest)
    | not =>
      simp only [negateAll, bind_eq_ok] at hq
      obtain ⟨all, hall, hq⟩ := hq
      obtain ⟨p, rest, rfl, rfl⟩ := negateFirst_eq_ok.1 hq
      cases ih hall with
      | operand hd tail => exact .operand (.not hd) tail

/-- The pieces of a negated atom come down to one operand. -/
theorem exists_negateAll_append {ts : List Token} {p : Formula} (h : Derives .negation ts p) :
    ∃ ps, Covers id .atom ts ps ∧ ∀ rest qs, negateAll rest = .ok qs →
      negateAll (ps ++ rest) = .ok (operand p :: qs) := by
  generalize hk : Category.negation = k at h
  induction h with
  | symbol | group | operand | join => cases hk
  | @atom ts p h =>
    refine ⟨[operand p], .single h, fun rest qs hq => ?_⟩
    simp only [List.singleton_append, negateAll, bind_eq_ok, pure_eq_ok]
    exact ⟨qs, hq, rfl⟩
  | @not ts p _ ih =>
    obtain ⟨ps, hps, hall⟩ := ih hk
    refine ⟨operator .not :: ps, .operator hps, fun rest qs hq => ?_⟩
    simp only [List.cons_append, negateAll, bind_eq_ok]
    exact ⟨_, hall rest qs hq, rfl⟩

theorem exists_negateAll {ts : List Token} {qs : List (Piece Connective)}
    (h : Covers .binary .negation ts qs) : ∃ ps, Covers id .atom ts ps ∧ negateAll ps = .ok qs := by
  induction h with
  | nil => exact ⟨[], .nil, rfl⟩
  | operand hd _ ih =>
    obtain ⟨rest, hrest, hq⟩ := ih
    obtain ⟨ps, hps, hall⟩ := exists_negateAll_append hd
    exact ⟨ps ++ rest, hps.append hrest, hall rest _ hq⟩
  | @operator c ts qs _ ih =>
    obtain ⟨ps, hps, hq⟩ := ih
    refine ⟨operator (.binary c) :: ps, .operator hps, ?_⟩
    simp only [negateAll, bind_eq_ok, pure_eq_ok]
    exact ⟨qs, hq, rfl⟩

/-! ## Connectives -/

theorem joinAll_of_ne {c d : Connective} (hne : d ≠ c) (left : Option Formula)
    (rest : List (Piece Connective)) :
    joinAll c left (operator d :: rest) =
      (do return waiting left ++ operator d :: (← joinAll c none rest)) := by
  rw [joinAll.eq_def]
  simp only [if_neg hne]

/-- What waits on the left covers the tokens read before. -/
theorem covers_of_joinAll {c : Connective} {left : Option Formula} {qs rs : List (Piece Connective)}
    (hr : joinAll c left qs = .ok rs) {us ts : List Token}
    (hleft : Covers .binary (.joined c) us (waiting left)) (h : Covers .binary c.operands ts qs) :
    Covers .binary (.joined c) (us ++ ts) rs := by
  fun_induction joinAll c left qs generalizing rs us ts with
  | case1 left =>
    cases hr
    cases h
    simpa using hleft
  | case2 left p rest ih =>
    simp only [bind_eq_ok, pure_eq_ok] at hr
    obtain ⟨rs, hrs, rfl⟩ := hr
    cases h with
    | operand hd tail => exact hleft.append (ih hrs (.single (.operand hd)) tail)
  | case3 l r rest ih =>
    cases h with
    | operator tail =>
      cases tail with
      | @operand bs ts _ _ hd tail =>
        have hjoin : Derives (.joined c) (us ++ .operator (.binary c) :: bs) (.binary c l r) :=
          .join hleft.of_single hd
        simpa using ih hr (.single hjoin) tail
  | case4 => cases hr
  | case5 left d rest hne ih =>
    simp only [bind_eq_ok, pure_eq_ok] at hr
    obtain ⟨rs, hrs, rfl⟩ := hr
    cases h with
    | operator tail => exact hleft.append (.operator (ih hrs .nil tail))

/-- The pieces of operands joined by `c` come down to one operand, whatever waits on
the left. -/
theorem exists_joinAll_append {c : Connective} {ts : List Token} {p : Formula}
    (h : Derives (.joined c) ts p) :
    ∃ ps, Covers .binary c.operands ts ps ∧ (∀ d, operator d ∈ ps → d = c) ∧
      ∀ left rest qs, joinAll c (some p) rest = .ok qs →
        joinAll c left (ps ++ rest) = .ok (waiting left ++ qs) := by
  generalize hk : Category.joined c = k at h
  -- The left operand comes down first and then waits, so what follows is left open.
  induction h with
  | symbol | group | atom | not => cases hk
  | @operand d ts p h =>
    cases hk
    refine ⟨[operand p], .single h, by simp, fun left rest qs hq => ?_⟩
    simp only [List.singleton_append, joinAll, bind_eq_ok, pure_eq_ok]
    exact ⟨qs, hq, rfl⟩
  | @join d ls rs l r _ right ihl _ =>
    cases hk
    obtain ⟨ps, hps, honly, hall⟩ := ihl rfl
    refine ⟨ps ++ [operator c, operand r], hps.append (.operator (.single right)), ?_, ?_⟩
    · intro d hd
      rcases List.mem_append.1 hd with hd | hd
      · exact honly d hd
      · simpa using hd
    · intro left rest qs hq
      rw [List.append_assoc]
      exact hall left _ qs (by simpa [joinAll] using hq)

theorem exists_joinAll {c : Connective} {ts : List Token} {rs : List (Piece Connective)}
    (h : Covers .binary (.joined c) ts rs) (hfree : operator c ∉ rs) :
    ∃ qs, Covers .binary c.operands ts qs ∧ (∀ d, operator d ∈ qs → d = c ∨ operator d ∈ rs) ∧
      ∀ left, joinAll c left qs = .ok (waiting left ++ rs) := by
  induction h with
  | nil => exact ⟨[], .nil, by simp, fun left => by simp [joinAll]⟩
  | @operand ts us p rs hd _ ih =>
    obtain ⟨qs, hqs, honly, hall⟩ := ih fun hmem => hfree (.tail _ hmem)
    obtain ⟨ps, hps, hops, happ⟩ := exists_joinAll_append hd
    refine ⟨ps ++ qs, hps.append hqs, fun d hmem => ?_, fun left => happ left qs _ (hall (some p))⟩
    rcases List.mem_append.1 hmem with hmem | hmem
    · exact .inl (hops d hmem)
    · exact (honly d hmem).imp_right (.tail _)
  | @operator d ts rs _ ih =>
    obtain ⟨qs, hqs, honly, hall⟩ := ih fun hmem => hfree (.tail _ hmem)
    have hne : d ≠ c := by
      rintro rfl
      exact hfree (.head _)
    refine ⟨operator d :: qs, .operator hqs, fun e hmem => ?_, fun left => ?_⟩
    · rcases List.mem_cons.1 hmem with heq | hmem
      · cases heq
        exact .inr (.head _)
      · exact (honly e hmem).imp_right (.tail _)
    · rw [joinAll_of_ne hne, hall none]
      rfl

/-! ## Whole sentences -/

open Token (closeFrom)

theorem sole_eq_ok {ps : List (Piece Connective)} {p : Formula} :
    sole ps = .ok p ↔ ps = [operand p] := by
  unfold sole
  split <;> simp_all

/-- The five stages, one after the other. -/
theorem assemble_eq_ok {ps : List (Piece Operator)} {p : Formula} :
    assemble ps = .ok p ↔ ∃ negated conjoined disjoined implied,
      negateAll ps = .ok negated ∧ joinAll .and none negated = .ok conjoined ∧
      joinAll .or none conjoined = .ok disjoined ∧ joinAll .implies none disjoined = .ok implied ∧
      joinAll .iff none implied = .ok [operand p] := by
  simp only [assemble, Connective.byPrecedence, List.foldlM_cons, List.foldlM_nil, bind_eq_ok,
    pure_eq_ok, sole_eq_ok]
  constructor
  · rintro ⟨negated, h0, _, ⟨conjoined, h1, disjoined, h2, implied, h3, _, h4, rfl⟩, rfl⟩
    exact ⟨negated, conjoined, disjoined, implied, h0, h1, h2, h3, h4⟩
  · rintro ⟨negated, conjoined, disjoined, implied, h0, h1, h2, h3, h4⟩
    exact ⟨negated, h0, _, ⟨conjoined, h1, disjoined, h2, implied, h3, _, h4, rfl⟩, rfl⟩

theorem derives_of_assemble {ts : List Token} {ps : List (Piece Operator)} {p : Formula}
    (h : Covers id .atom ts ps) (hp : assemble ps = .ok p) : Derives .sentence ts p := by
  obtain ⟨negated, conjoined, disjoined, implied, h0, h1, h2, h3, h4⟩ := assemble_eq_ok.1 hp
  have hnegated := covers_of_negateAll h h0
  have hconjoined := covers_of_joinAll h1 .nil hnegated
  have hdisjoined := covers_of_joinAll h2 .nil hconjoined
  have himplied := covers_of_joinAll h3 .nil hdisjoined
  exact (covers_of_joinAll h4 .nil himplied).of_single

theorem exists_assemble {ts : List Token} {p : Formula} (h : Derives .sentence ts p) :
    ∃ ps, Covers id .atom ts ps ∧ assemble ps = .ok p := by
  -- Going back stage by stage, only the connectives undone so far appear as operators.
  obtain ⟨implied, hi, oi, h4⟩ := exists_joinAll (c := .iff) (.single h) (by simp)
  obtain ⟨disjoined, hd, od, h3⟩ := exists_joinAll (c := .implies) hi fun hmem => by
    simpa using oi _ hmem
  obtain ⟨conjoined, hc, oc, h2⟩ := exists_joinAll (c := .or) hd fun hmem => by
    simpa using (od _ hmem).imp_right (oi _)
  obtain ⟨negated, hn, -, h1⟩ := exists_joinAll (c := .and) hc fun hmem => by
    simpa using (oc _ hmem).imp_right fun hmem => (od _ hmem).imp_right (oi _)
  obtain ⟨ps, hps, h0⟩ := exists_negateAll hn
  refine ⟨ps, hps, assemble_eq_ok.2 ?_⟩
  exact ⟨negated, conjoined, disjoined, implied, h0, h1 none, h2 none, h3 none, h4 none⟩

/-- A bracketed group is assembled from what stands before its closing place. -/
theorem ofTokens_opening_eq (ts : List Token) :
    ofTokens (.opening :: ts) =
      match closeFrom 1 ts with
      | none => .error .unmatchedParenthesis
      | some n => do
        let group ← assemble (← ofTokens (ts.take n))
        return operand group :: (← ofTokens (ts.drop (n + 1))) := by
  have hmatch : Token.matchingClose? (.opening :: ts) 0 = (closeFrom 1 ts).map (· + 1) := by
    simp only [Token.matchingClose?, List.drop_zero, closeFrom, Option.map_map, Nat.zero_add]
    rfl
  rw [ofTokens, hmatch]
  cases closeFrom 1 ts with
  | none => rfl
  | some n => rfl

theorem ofTokens_opening {ts : List Token} {ps : List (Piece Operator)} :
    ofTokens (.opening :: ts) = .ok ps ↔ ∃ n inner group rest, closeFrom 1 ts = some n ∧
      ofTokens (ts.take n) = .ok inner ∧ assemble inner = .ok group ∧
      ofTokens (ts.drop (n + 1)) = .ok rest ∧ ps = operand group :: rest := by
  rw [ofTokens_opening_eq]
  cases closeFrom 1 ts with
  | none => simp
  | some n =>
    simp only [bind_eq_ok, pure_eq_ok, Option.some.injEq]
    constructor
    · rintro ⟨inner, hinner, group, hgroup, rest, hrest, rfl⟩
      exact ⟨n, inner, group, rest, rfl, hinner, hgroup, hrest, rfl⟩
    · rintro ⟨_, inner, group, rest, rfl, hinner, hgroup, hrest, rfl⟩
      exact ⟨inner, hinner, group, hgroup, rest, hrest, rfl⟩

/-- A group whose inside is balanced is read inside first, then what follows it. -/
theorem ofTokens_group {us rest : List Token} {p : Formula} {qs ps : List (Piece Operator)}
    (balanced : Token.Balanced us) (hinner : ofTokens us = .ok qs) (hassemble : assemble qs = .ok p)
    (hrest : ofTokens rest = .ok ps) :
    ofTokens (.opening :: (us ++ [.closing]) ++ rest) = .ok (operand p :: ps) := by
  have happend : .opening :: (us ++ [.closing]) ++ rest = .opening :: (us ++ .closing :: rest) := by
    simp
  have hdrop : (us ++ .closing :: rest).drop (us.length + 1) = rest := by
    simp [List.drop_append, List.drop_eq_nil_of_le]
  rw [happend, ofTokens_opening]
  refine ⟨us.length, qs, p, ps, balanced.closeFrom_append rest, ?_, hassemble, ?_, rfl⟩
  · rwa [List.take_left]
  · rwa [hdrop]

/-- **Tokens and pieces.** The pieces of a token list are its covering by atoms. -/
theorem ofTokens_eq_ok_iff {ts : List Token} {ps : List (Piece Operator)} :
    ofTokens ts = .ok ps ↔ Covers id .atom ts ps := by
  -- By length: the inside of a group and what follows it are both shorter.
  induction hn : ts.length using Nat.strongRecOn generalizing ts ps with
  | ind n ih =>
  subst hn
  constructor
  · intro h
    match ts with
    | [] =>
      rw [ofTokens] at h
      cases h
      exact .nil
    | .symbol s :: ts =>
      simp only [ofTokens, bind_eq_ok, pure_eq_ok] at h
      obtain ⟨rest, hrest, rfl⟩ := h
      exact .operand (.symbol s) ((ih ts.length (by simp) rfl).1 hrest)
    | .operator op :: ts =>
      simp only [ofTokens, bind_eq_ok, pure_eq_ok] at h
      obtain ⟨rest, hrest, rfl⟩ := h
      exact Covers.operator ((ih ts.length (by simp) rfl).1 hrest)
    | .closing :: ts =>
      rw [ofTokens] at h
      cases h
    | .opening :: ts =>
      obtain ⟨n, inner, group, rest, hclose, hinner, hgroup, hrest, rfl⟩ := ofTokens_opening.1 h
      have hsplit : Token.opening :: ts =
          .opening :: (ts.take n ++ [.closing]) ++ ts.drop (n + 1) := by
        simpa using Token.split_of_closeFrom hclose
      have hshort : (ts.take n).length < (Token.opening :: ts).length := by
        rw [List.length_take, List.length_cons]
        omega
      have hrestShort : (ts.drop (n + 1)).length < (Token.opening :: ts).length := by
        rw [List.length_drop, List.length_cons]
        omega
      have hcovers := (ih _ hshort rfl).1 hinner
      have htail := (ih _ hrestShort rfl).1 hrest
      rw [hsplit]
      exact .operand (.group (derives_of_assemble hcovers hgroup)) htail
  · intro h
    cases h with
    | nil => rw [ofTokens]
    | @operand us rest p ps hd tail =>
      cases hd with
      | symbol s =>
        have htail := (ih rest.length (by simp) rfl).2 tail
        simp only [List.singleton_append, ofTokens, bind_eq_ok, pure_eq_ok]
        exact ⟨ps, htail, rfl⟩
      | @group us p inner =>
        have hlength : (Token.opening :: (us ++ [.closing]) ++ rest).length =
            us.length + rest.length + 2 := by
          simp only [List.length_append, List.length_cons, List.length_nil]
          omega
        obtain ⟨qs, hqs, hassemble⟩ := exists_assemble inner
        have hinner := (ih us.length (by omega) rfl).2 hqs
        have htail := (ih rest.length (by omega) rfl).2 tail
        exact ofTokens_group inner.balanced hinner hassemble htail
    | @operator op rest ps tail =>
      have htail := (ih rest.length (by simp) rfl).2 tail
      simp only [ofTokens, bind_eq_ok, pure_eq_ok]
      exact ⟨ps, htail, rfl⟩

end Piece

namespace Formula

/-- **Reading tokens.** A formula is read off a token list exactly when the grammar
derives it. -/
theorem ofTokens_eq_ok_iff {ts : List Token} {p : Formula} :
    ofTokens ts = .ok p ↔ Derives .sentence ts p := by
  simp only [ofTokens, bind_eq_ok, Piece.ofTokens_eq_ok_iff]
  constructor
  · rintro ⟨ps, hps, hp⟩
    exact Piece.derives_of_assemble hps hp
  · exact Piece.exists_assemble

theorem parse_eq (text : String) : parse text = ofTokens (Token.scan text.toList).1 := by
  rw [parse, Token.tokenize_eq]
  rfl

/-- **The texts that can be read are the sentences of the grammar.** Every text has a
token list; the formula read off the text is the one the grammar derives from its
tokens, and where it derives none the text has a fault. -/
theorem parse_iff_derives (text : String) :
    ∃ ts, Token.tokenize text = .ok ts ∧
      (∀ p, parse text = .ok p ↔ Derives .sentence ts p) ∧
      ((∃ fault : SyntaxError, parse text = .error fault) ↔ ∀ p, ¬ Derives .sentence ts p) := by
  have haccepts : ∀ p, parse text = .ok p ↔ Derives .sentence (Token.scan text.toList).1 p := by
    intro p
    rw [parse_eq, ofTokens_eq_ok_iff]
  refine ⟨_, Token.tokenize_eq text, haccepts, ?_⟩
  simp only [← haccepts]
  cases parse text with
  | ok p => exact iff_of_false (by simp) fun h => h p rfl
  | error fault => exact iff_of_true ⟨fault, rfl⟩ (by simp)

end Formula

end Reasoner
