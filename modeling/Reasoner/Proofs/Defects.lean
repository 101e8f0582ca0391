/-
The defects that a token list can have as a sentence, one for each fault
(`SyntaxError.FoundIn`). Inside a bracketed group the ends of the stretch are the
parentheses around it, so a defect there is one of the whole
(`SyntaxError.FoundIn.enclosed`). A sentence has none, because its parentheses are
balanced and neighbouring tokens fit together (`Derives.not_foundIn`).
-/
import Mathlib.Data.List.Chain
import Reasoner.Proofs.Grammar

namespace Reasoner

/-! ## Defects -/

namespace Token

/-- An operand can start with the token. -/
def startsOperand : Token → Bool
  | opening | symbol _ | operator .not => true
  | closing | operator (.binary _) => false

/-- An operand can end with the token. -/
def endsOperand : Token → Bool
  | closing | symbol _ => true
  | opening | operator _ => false

/-- What follows is nothing, a closing parenthesis or a connective. -/
def NoOperandAfter (after : List Token) : Prop :=
  ∀ t ∈ after.head?, t = closing ∨ ∃ c, t = operator (.binary c)

/-- What comes before is nothing, an opening parenthesis or a connective. -/
def NoOperandBefore (before : List Token) : Prop :=
  ∀ t ∈ before.getLast?, t = opening ∨ ∃ c, t = operator (.binary c)

theorem NoOperandAfter.append_closing {after : List Token} (h : NoOperandAfter after)
    (rest : List Token) : NoOperandAfter (after ++ closing :: rest) := by
  intro t ht
  cases after with
  | nil =>
    obtain rfl : closing = t := by simpa using ht
    exact .inl rfl
  | cons u after => exact h t ht

theorem NoOperandBefore.opening_append {before : List Token} (h : NoOperandBefore before)
    (earlier : List Token) : NoOperandBefore (earlier ++ opening :: before) := by
  intro t ht
  rw [List.getLast?_append_cons] at ht
  cases before with
  | nil =>
    obtain rfl : opening = t := by simpa using ht
    exact .inl rfl
  | cons u before => exact h t ht

end Token

open Token

/-- The defect that the fault names is there to be seen in the tokens. -/
def SyntaxError.FoundIn (ts : List Token) : SyntaxError → Prop
  | .empty => ts = [] ∨ [opening, closing] <:+: ts
  | .missingOperand .not =>
    ∃ before after, ts = before ++ operator .not :: after ∧ NoOperandAfter after
  | .missingOperand (.binary c) =>
    ∃ before after, ts = before ++ operator (.binary c) :: after ∧
      (NoOperandBefore before ∨ NoOperandAfter after)
  | .unmatchedParenthesis => ¬ Balanced ts
  | .missingOperator => ∃ x y, [x, y] <:+: ts ∧ x.endsOperand = true ∧ y.startsOperand = true
  | .unreadable => False

/-- A defect inside a group is one of the whole; only parentheses that do not match inside
may do so outside. -/
theorem SyntaxError.FoundIn.enclosed {fault : SyntaxError} {us : List Token} (h : fault.FoundIn us)
    (hfault : fault ≠ .unmatchedParenthesis) (earlier later : List Token) :
    fault.FoundIn (earlier ++ opening :: (us ++ closing :: later)) := by
  have hinside : us <:+: earlier ++ opening :: (us ++ closing :: later) :=
    ⟨earlier ++ [opening], closing :: later, by simp⟩
  match fault with
  | .empty =>
    refine .inr ?_
    rcases h with rfl | h
    · exact ⟨earlier, later, by simp⟩
    · exact h.trans hinside
  | .missingOperand .not =>
    obtain ⟨before, after, rfl, hafter⟩ := h
    exact ⟨earlier ++ opening :: before, after ++ closing :: later, by simp, hafter.append_closing later⟩
  | .missingOperand (.binary c) =>
    obtain ⟨before, after, rfl, hlacks⟩ := h
    exact ⟨earlier ++ opening :: before, after ++ closing :: later, by simp,
      hlacks.imp (·.opening_append earlier) (·.append_closing later)⟩
  | .unmatchedParenthesis => exact absurd rfl hfault
  | .missingOperator =>
    obtain ⟨x, y, hxy, hx, hy⟩ := h
    exact ⟨x, y, hxy.trans hinside, hx, hy⟩
  | .unreadable => exact h.elim

/-! ## Tokens that fit together -/

/-- After the end of an operand no other starts, and after anything else one does. -/
def Token.Fits (x y : Token) : Prop :=
  x.endsOperand ≠ y.startsOperand

/-- The tokens start and end as an operand does, and neighbours fit. -/
structure Token.Spaced (ts : List Token) : Prop where
  starts : ∃ t ∈ ts.head?, t.startsOperand = true
  ends : ∃ t ∈ ts.getLast?, t.endsOperand = true
  fits : ts.IsChain Fits

namespace Token.Spaced

variable {ts us : List Token}

theorem cons (h : Spaced ts) {t : Token} (hstarts : t.startsOperand = true)
    (hends : t.endsOperand = false) : Spaced (t :: ts) := by
  obtain ⟨⟨u, hu, hustarts⟩, ⟨v, hv, hvends⟩, hfits⟩ := h
  refine ⟨⟨t, rfl, hstarts⟩, ⟨v, ?_, hvends⟩, List.isChain_cons.2 ⟨fun w hw => ?_, hfits⟩⟩
  · rw [List.getLast?_cons, Option.mem_def.1 hv]
    rfl
  · obtain rfl : u = w := Option.mem_unique hu hw
    simp [Fits, hends, hustarts]

theorem concat (h : Spaced ts) {t : Token} (hstarts : t.startsOperand = false)
    (hends : t.endsOperand = true) : Spaced (ts ++ [t]) := by
  obtain ⟨⟨u, hu, hustarts⟩, ⟨v, hv, hvends⟩, hfits⟩ := h
  refine ⟨⟨u, List.mem_head?_append_of_mem_head? hu, hustarts⟩, ⟨t, by simp, hends⟩, ?_⟩
  refine List.isChain_append.2 ⟨hfits, List.isChain_singleton t, fun x hx y hy => ?_⟩
  obtain rfl : v = x := Option.mem_unique hv hx
  obtain rfl : t = y := by simpa using hy
  simp [Fits, hstarts, hvends]

theorem join (h : Spaced ts) (h' : Spaced us) (c : Connective) :
    Spaced (ts ++ operator (.binary c) :: us) := by
  obtain ⟨⟨u, hu, hustarts⟩, ⟨v, hv, hvends⟩, hfits⟩ := h
  obtain ⟨⟨x, hx, hxstarts⟩, ⟨y, hy, hyends⟩, hfits'⟩ := h'
  refine ⟨⟨u, List.mem_head?_append_of_mem_head? hu, hustarts⟩, ⟨y, ?_, hyends⟩, ?_⟩
  · rw [List.getLast?_append_cons, List.getLast?_cons, Option.mem_def.1 hy]
    rfl
  · refine List.isChain_append.2 ⟨hfits, List.isChain_cons.2 ⟨fun w hw => ?_, hfits'⟩, fun w hw z hz => ?_⟩
    · obtain rfl : x = w := Option.mem_unique hx hw
      simp [Fits, endsOperand, hxstarts]
    · obtain rfl : v = w := Option.mem_unique hv hw
      obtain rfl : operator (.binary c) = z := by simpa using hz
      simp [Fits, startsOperand, hvends]

theorem fits_of_infix (h : Spaced ts) {x y : Token}
    (hxy : [x, y] <:+: ts) : Fits x y := by
  have hpair : [x, y].IsChain Fits := List.IsChain.infix h.fits hxy
  exact List.isChain_pair.1 hpair

/-- What needs an operand after it has one. -/
theorem not_noOperandAfter {before after : List Token} {t : Token}
    (h : Spaced (before ++ t :: after)) (ht : t.endsOperand = false) : ¬ NoOperandAfter after := by
  intro hlacks
  cases after with
  | nil =>
    obtain ⟨u, hu, hends⟩ := h.ends
    obtain rfl : t = u := by simpa using hu
    rw [ht] at hends
    cases hends
  | cons u after =>
    have hfits : Fits t u := h.fits_of_infix ⟨before, after, by simp⟩
    rcases hlacks u rfl with rfl | ⟨c, rfl⟩
    · exact hfits (by rw [ht]; rfl)
    · exact hfits (by rw [ht]; rfl)

/-- A connective has an operand before it. -/
theorem not_noOperandBefore {before after : List Token} {c : Connective}
    (h : Spaced (before ++ operator (.binary c) :: after)) : ¬ NoOperandBefore before := by
  intro hlacks
  rcases List.eq_nil_or_concat before with rfl | ⟨earlier, u, rfl⟩
  · obtain ⟨t, ht, hstarts⟩ := h.starts
    obtain rfl : operator (.binary c) = t := by simpa using ht
    cases hstarts
  · have hfits : Fits u (operator (.binary c)) := h.fits_of_infix ⟨earlier, after, by simp⟩
    rcases hlacks u (by simp) with rfl | ⟨d, rfl⟩
    · exact hfits rfl
    · exact hfits rfl

end Token.Spaced

theorem Derives.spaced {k : Category} {ts : List Token} {p : Formula} (h : Derives k ts p) :
    Spaced ts := by
  induction h with
  | symbol s => exact ⟨⟨_, rfl, rfl⟩, ⟨_, rfl, rfl⟩, List.isChain_singleton _⟩
  | group _ ih => exact (ih.concat (t := closing) rfl rfl).cons rfl rfl
  | atom _ ih => exact ih
  | not _ ih => exact ih.cons rfl rfl
  | operand _ ih => exact ih
  | join _ _ ihl ihr => exact ihl.join ihr _

/-- A sentence has no defect. -/
theorem Derives.not_foundIn {k : Category} {ts : List Token} {p : Formula} (h : Derives k ts p)
    (fault : SyntaxError) : ¬ fault.FoundIn ts := by
  have hspaced := h.spaced
  intro hfound
  match fault with
  | .empty =>
    rcases hfound with rfl | hpair
    · obtain ⟨t, ht, -⟩ := hspaced.starts
      cases ht
    · exact hspaced.fits_of_infix hpair rfl
  | .missingOperand .not =>
    obtain ⟨before, after, rfl, hlacks⟩ := hfound
    exact hspaced.not_noOperandAfter rfl hlacks
  | .missingOperand (.binary c) =>
    obtain ⟨before, after, rfl, hlacks | hlacks⟩ := hfound
    · exact hspaced.not_noOperandBefore hlacks
    · exact hspaced.not_noOperandAfter rfl hlacks
  | .unmatchedParenthesis => exact hfound h.balanced
  | .missingOperator =>
    obtain ⟨x, y, hxy, hx, hy⟩ := hfound
    exact hspaced.fits_of_infix hxy (hx.trans hy.symm)
  | .unreadable => exact hfound

end Reasoner
