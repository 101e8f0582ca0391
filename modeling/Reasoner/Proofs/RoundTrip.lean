/-
Writing and reading back. The written form of a formula is read token by token as it
was put together (`Formula.scan_render`), and the grammar derives the formula from
those tokens, since every binary formula stands in brackets. What reading gives is
readable, and what is readable is given back when its written form is read
(`Formula.parse_render`).
-/
import Reasoner.Proofs.Grammar

namespace Reasoner

/-! ## Categories from tight to loose -/

theorem Derives.operands_of_negation {ts : List Token} {p : Formula} (h : Derives .negation ts p)
    (c : Connective) : Derives c.operands ts p := by
  cases c with
  | and => exact h
  | or => exact .operand h
  | implies => exact .operand (.operand (c := .and) h)
  | iff => exact .operand (.operand (c := .or) (.operand (c := .and) h))

theorem Derives.sentence_of_joined {c : Connective} {ts : List Token} {p : Formula}
    (h : Derives (.joined c) ts p) : Derives .sentence ts p := by
  cases c with
  | and => exact .operand (.operand (c := .implies) (.operand (c := .or) h))
  | or => exact .operand (.operand (c := .implies) h)
  | implies => exact .operand h
  | iff => exact h

namespace Formula

/-! ## Readable formulas -/

/-- No constant occurs, and every name can be read. -/
def Readable : Formula → Prop
  | verum => False
  | symbol s => s.Readable
  | not p => p.Readable
  | binary _ l r => l.Readable ∧ r.Readable

instance decidableReadable : (p : Formula) → Decidable p.Readable
  | verum => inferInstanceAs (Decidable False)
  | symbol s => inferInstanceAs (Decidable s.Readable)
  | not p => decidableReadable p
  | binary _ l r => @instDecidableAnd _ _ (decidableReadable l) (decidableReadable r)

/-- Names come from the tokens, and constants from nowhere. -/
theorem readable_of_derives {k : Category} {ts : List Token} {p : Formula} (h : Derives k ts p)
    (hts : ∀ s, Token.symbol s ∈ ts → s.Readable) : p.Readable := by
  induction h with
  | symbol s => exact hts s (.head _)
  | group _ ih => exact ih fun s hs => hts s (by simp [hs])
  | atom _ ih => exact ih hts
  | not _ ih => exact ih fun s hs => hts s (.tail _ hs)
  | operand _ ih => exact ih hts
  | join _ _ ihl ihr =>
    refine ⟨ihl fun s hs => hts s ?_, ihr fun s hs => hts s ?_⟩
    · exact List.mem_append_left _ hs
    · exact List.mem_append_right _ (.tail _ hs)

theorem readable_of_parse {text : String} {p : Formula} (h : parse text = .ok p) : p.Readable := by
  rw [parse_eq, ofTokens_eq_ok_iff] at h
  exact readable_of_derives h fun s hs => Token.readable_of_mem_scan hs

theorem symbol_mem_of_derives {k : Category} {ts : List Token} {p : Formula} (h : Derives k ts p)
    {s : Symbol} (hs : s ∈ p.symbols) : Token.symbol s ∈ ts := by
  induction h with
  | symbol t =>
    obtain rfl := List.mem_singleton.1 hs
    exact .head _
  | group _ ih => exact .tail _ (List.mem_append_left _ (ih hs))
  | atom _ ih => exact ih hs
  | not _ ih => exact .tail _ (ih hs)
  | operand _ ih => exact ih hs
  | join _ _ ihl ihr =>
    rcases List.mem_append.1 hs with hs | hs
    · exact List.mem_append_left _ (ihl hs)
    · exact List.mem_append_right _ (.tail _ (ihr hs))

/-- Names are made of characters of the text they are read off. -/
theorem mem_of_parse {text : String} {p : Formula} (h : parse text = .ok p) {s : Symbol}
    (hs : s ∈ p.symbols) {c : Char} (hc : c ∈ s.name.toList) : c ∈ text.toList := by
  rw [parse_eq, ofTokens_eq_ok_iff] at h
  exact Token.mem_of_mem_scan (symbol_mem_of_derives h hs) hc

/-! ## Tokens of the written form -/

/-- The tokens of the written form. -/
def tokens : Formula → List Token
  | verum => [.symbol ⟨"T"⟩]
  | symbol s => [.symbol s]
  | not p => .operator .not :: p.tokens
  | binary c l r => .opening :: (l.tokens ++ .operator (.binary c) :: r.tokens ++ [.closing])

open Token (Boundary scan)

/-- Writing puts a boundary after every name, so the tokens are read as written. -/
theorem scan_render {p : Formula} (hp : p.Readable) {rest : List Char} (hrest : Boundary rest) :
    (scan (p.render.toList ++ rest)).1 = p.tokens ++ (scan rest).1 := by
  induction p generalizing rest with
  | verum => exact hp.elim
  | symbol s => exact Token.scan_name_append hp hrest
  | not p ih =>
    have htext : (not p).render.toList ++ rest =
        (Token.operator .not).text.toList ++ (p.render.toList ++ rest) := by
      simp [render, Token.text, Operator.text]
    rw [htext, Token.scan_text_append (Token.operator_mem_marks _), ih hp hrest]
    rfl
  | binary c l r ihl ihr =>
    have htext : (binary c l r).render.toList ++ rest =
        Token.opening.text.toList ++ (l.render.toList ++ ' ' :: ((Token.operator (.binary c)).text.toList ++
          ' ' :: (r.render.toList ++ (Token.closing.text.toList ++ rest)))) := by
      simp [render, Token.text, Operator.text]
    have hblank : Text.isBlank ' ' = true := by decide
    rw [htext, Token.scan_text_append (by decide), ihl hp.1 (Token.boundary_blank hblank _),
      Token.scan_blank_cons hblank, Token.scan_text_append (Token.operator_mem_marks _),
      Token.scan_blank_cons hblank, ihr hp.2 (Token.boundary_closing rest),
      Token.scan_text_append (by decide)]
    simp [tokens]

theorem derives_tokens {p : Formula} (hp : p.Readable) : Derives .negation p.tokens p := by
  induction p with
  | verum => exact hp.elim
  | symbol s => exact .atom (.symbol s)
  | not p ih => exact .not (ih hp)
  | binary c l r ihl ihr =>
    have hjoin : Derives (.joined c) (l.tokens ++ .operator (.binary c) :: r.tokens) (.binary c l r) :=
      .join (.operand ((ihl hp.1).operands_of_negation c)) ((ihr hp.2).operands_of_negation c)
    exact .atom (.group hjoin.sentence_of_joined)

theorem parse_render {p : Formula} (hp : p.Readable) : parse p.render = .ok p := by
  have hscan := scan_render hp Token.boundary_nil
  rw [List.append_nil, Token.scan_nil, List.append_nil] at hscan
  rw [parse_eq, hscan, ofTokens_eq_ok_iff]
  exact .operand ((derives_tokens hp).operands_of_negation .iff)

/-! ## Reading back -/

/-- **Writing and reading are inverse to each other** on what reading gives. A formula
is given back by its written form exactly when it is readable; whatever is read off a
text is readable, and its written form reads as the text does. -/
theorem parse_inverts_render :
    (∀ p : Formula, parse p.render = .ok p ↔ p.Readable) ∧
    ∀ (text : String) (p : Formula), parse text = .ok p →
      p.Readable ∧ parse p.render = parse text := by
  refine ⟨fun p => ⟨readable_of_parse, parse_render⟩, fun text p h => ?_⟩
  have hp := readable_of_parse h
  exact ⟨hp, by rw [parse_render hp, h]⟩

/-- Names may end in parts of marks, and a negation may stand before a bracket. -/
theorem parse_inverts_render_fragments :
    let p : Formula := .not (.binary .or (.symbol ⟨"a|"⟩)
      (.not (.not (.binary .iff (.symbol ⟨"b<="⟩) (.symbol ⟨">T"⟩)))))
    p.Readable ∧ p.render = "~(a| || ~~(b<= <=> >T))" ∧ parse p.render = .ok p := by
  intro p
  have hp : p.Readable := by decide +kernel
  exact ⟨hp, by decide +kernel, (parse_inverts_render.1 p).2 hp⟩

end Formula

end Reasoner
