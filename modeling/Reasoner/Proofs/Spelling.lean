/-
How a text spells its tokens. A text spells a token list if it is the tokens in their
order with blanks between them, where each token can be read at its place
(`Token.Spells`). Every text spells the tokens that are read off it, and no others, so
nothing is lost and nothing is left to choice. Single blanks between the tokens are enough
to have the same tokens read again (`Token.scan_intercalate`).
-/
import Reasoner.Proofs.Tokens

namespace Reasoner.Token

open Text (isBlank)

/-- The text is made up of blanks and the tokens, in order, each standing where it can be
read. -/
inductive Spells : List Char → List Token → Prop
  | blank {cs : List Char} (h : ∀ c ∈ cs, isBlank c = true) : Spells cs []
  | token {blanks rest : List Char} {t : Token} {ts : List Token}
      (h : ∀ c ∈ blanks, isBlank c = true) (stands : t.StandsBefore rest) (tail : Spells rest ts) :
      Spells (blanks ++ (t.text.toList ++ rest)) (t :: ts)

/-! ## One reading for every text -/

theorem spells_scan (cs : List Char) : Spells cs (scan cs).1 := by
  fun_induction scan cs with
  | case1 cs hnone =>
    have hblank := all_blank_scan cs
    rw [scan_of_tokenAt_none hnone] at hblank
    exact .blank (List.all_eq_true.1 hblank)
  | case2 cs t rest hsome ts unread hscan ih =>
    obtain ⟨hdrop, hstands⟩ := tokenAt_eq_some_iff.1 hsome
    have hcs : cs = cs.takeWhile isBlank ++ (t.text.toList ++ rest) := by
      rw [← hdrop, List.takeWhile_append_dropWhile]
    rw [hscan] at ih
    rw [hcs]
    exact .token (fun c hc => List.mem_takeWhile_imp hc) hstands ih

theorem scan_blanks_append {blanks : List Char} (h : ∀ c ∈ blanks, isBlank c = true)
    (cs : List Char) : (scan (blanks ++ cs)).1 = (scan cs).1 := by
  induction blanks with
  | nil => rfl
  | cons c blanks ih =>
    rw [List.cons_append, scan_blank_cons (h c (.head _))]
    exact ih fun d hd => h d (.tail _ hd)

theorem scan_of_spells {cs : List Char} {ts : List Token} (h : Spells cs ts) : (scan cs).1 = ts := by
  induction h with
  | @blank cs hblank =>
    have hscan := scan_blanks_append hblank []
    rwa [List.append_nil, scan_nil] at hscan
  | token hblank hstands _ ih =>
    rw [scan_blanks_append hblank, scan_append_of_standsBefore hstands, ih]

/-! ## Tokens with single blanks between them -/

theorem standsBefore_of_boundary {t : Token} (ht : ∀ s, t = symbol s → s.Readable)
    {rest : List Char} (hrest : Boundary rest) : t.StandsBefore rest := by
  rcases mem_marks_or_symbol t with hmark | ⟨s, rfl⟩
  · exact standsBefore_of_mem_marks hmark rest
  · exact standsBefore_of_readable (ht s rfl) hrest

theorem scan_intercalate {ts : List Token} (h : ∀ s, symbol s ∈ ts → s.Readable) :
    (scan (" ".intercalate (ts.map text)).toList).1 = ts := by
  induction ts with
  | nil => exact scan_nil
  | cons t ts ih =>
    have ht : ∀ s, t = symbol s → s.Readable := by
      rintro s rfl
      exact h s (.head _)
    have hrest := ih fun s hs => h s (.tail _ hs)
    cases ts with
    | nil =>
      have hscan := scan_append_of_standsBefore (standsBefore_of_boundary ht boundary_nil)
      rw [List.append_nil, scan_nil] at hscan
      simpa using hscan
    | cons u ts =>
      have htext : (" ".intercalate ((t :: u :: ts).map text)).toList =
          t.text.toList ++ ' ' :: (" ".intercalate ((u :: ts).map text)).toList := by
        rw [List.map_cons, List.map_cons, String.intercalate_cons_cons]
        simp
      have hblank : isBlank ' ' = true := by decide
      rw [htext, scan_append_of_standsBefore (standsBefore_of_boundary ht (boundary_blank hblank _)),
        scan_blank_cons hblank, hrest]

/-- **Reading tokens inverts spelling them.** Every text has a token list. It spells these
tokens and no others: they stand in the text in their order with only blanks between them,
every name goes on until a blank or a mark stops it, and no mark starts inside a name. The
tokens written with single blanks between them are read as the same tokens. -/
theorem tokenize_inverts_spelling (text : String) :
    ∃ ts, tokenize text = .ok ts ∧ (∀ us, Spells text.toList us ↔ us = ts) ∧
      tokenize (" ".intercalate (ts.map Token.text)) = .ok ts := by
  refine ⟨_, tokenize_eq text, fun us => ⟨fun h => (scan_of_spells h).symm, ?_⟩, ?_⟩
  · rintro rfl
    exact spells_scan _
  · rw [tokenize_eq, scan_intercalate fun s hs => readable_of_mem_scan hs]

example : tokenize "a<==>b|||c" = .ok [symbol ⟨"a<="⟩, operator (.binary .implies), symbol ⟨"b"⟩,
    operator (.binary .or), symbol ⟨"|c"⟩] := by cbv

end Reasoner.Token
