/-
A knowledge base can be told its own written form. What a knowledge base holds was read
off the parts of a batch between two `;`, so no name in it has a `;`
(`KnowledgeBase.Retellable`), and neither has a written formula. It begins and ends with
a character that is not blank. So splitting the written form of a knowledge base finds
the written formulas again (`Sentence.split_render`), and each of them reads as the
formula it came from (`Sentence.parse_render`).
-/
import Reasoner.Proofs.Retelling
import Reasoner.Proofs.RoundTrip
import Reasoner.Proofs.Trimming

namespace Reasoner

open Text (isBlank trimChars)

/-! ## Splitting and trimming -/

namespace Text

theorem not_mem_of_mem_splitAt {separator : Char} {cs part : List Char}
    (h : part ∈ splitAt separator cs) : separator ∉ part := by
  induction cs generalizing part with
  | nil =>
    obtain rfl := List.mem_singleton.1 h
    exact List.not_mem_nil
  | cons c cs ih =>
    by_cases hc : c = separator
    · rw [splitAt, if_pos hc] at h
      rcases List.mem_cons.1 h with rfl | h
      · exact List.not_mem_nil
      · exact ih h
    · obtain ⟨first, parts, hparts⟩ := List.exists_cons_of_ne_nil (splitAt_ne_nil separator cs)
      rw [splitAt, if_neg hc, hparts, List.modifyHead_cons] at h
      rw [hparts] at ih
      rcases List.mem_cons.1 h with rfl | h
      · have hfirst := ih (.head _)
        simp [hfirst, Ne.symm hc]
      · exact ih (.tail _ h)

theorem splitAt_of_not_mem {separator : Char} {cs : List Char} (h : separator ∉ cs) :
    splitAt separator cs = [cs] := by
  induction cs with
  | nil => rfl
  | cons c cs ih =>
    simp only [List.mem_cons, not_or] at h
    rw [splitAt, if_neg (Ne.symm h.1), ih h.2, List.modifyHead_cons]

theorem trimChars_sublist (cs : List Char) : (trimChars cs).Sublist cs := by
  have hback := (List.dropWhile_sublist isBlank (l := (cs.dropWhile isBlank).reverse)).reverse
  rw [List.reverse_reverse] at hback
  exact hback.trans (List.dropWhile_sublist _)

theorem trimChars_blank_cons {c : Char} (hc : isBlank c = true) (cs : List Char) :
    trimChars (c :: cs) = trimChars cs := by
  simp only [trimChars, List.dropWhile_cons_of_pos hc]

end Text

namespace Sentence

/-- A blank after a separator makes no difference. -/
theorem split_blank_append (batch : String) : split (" " ++ batch) = split batch := by
  have hchars : (" " ++ batch).toList = ' ' :: batch.toList := by simp
  obtain ⟨part, parts, hparts⟩ := List.exists_cons_of_ne_nil (Text.splitAt_ne_nil ';' batch.toList)
  have hsplit : Text.splitAt ';' (' ' :: batch.toList) = (' ' :: part) :: parts := by
    rw [Text.splitAt, if_neg (by decide), hparts, List.modifyHead_cons]
  simp only [split, Text.trimmedParts, hchars, hsplit, hparts, List.map_cons,
    Text.trimChars_blank_cons (show isBlank ' ' = true by decide)]

theorem split_intercalate_blank (texts : List String) :
    split ("; ".intercalate texts) = texts.flatMap split := by
  induction texts with
  | nil => rfl
  | cons text texts ih =>
    cases texts with
    | nil => simp
    | cons next texts =>
      have hjoin : "; ".intercalate (text :: next :: texts) =
          text ++ ";" ++ (" " ++ "; ".intercalate (next :: texts)) := by
        rw [String.intercalate_cons_cons, show "; " = ";" ++ " " from rfl]
        simp only [String.append_assoc]
      rw [hjoin, split_append, split_blank_append, ih, ← List.flatMap_cons]

theorem not_mem_of_mem_split {batch text : String} (h : text ∈ split batch) : ';' ∉ text.toList := by
  simp only [split, Text.trimmedParts, List.mem_map, List.mem_filter] at h
  obtain ⟨_, ⟨⟨part, hpart, rfl⟩, -⟩, rfl⟩ := h
  rw [String.toList_ofList]
  intro hmem
  exact Text.not_mem_of_mem_splitAt hpart ((Text.trimChars_sublist part).subset hmem)

theorem parse_eq_ok {text : String} {s : Sentence} :
    parse text = .ok s ↔ s.text = Text.trim text ∧ Formula.parse (Text.trim text) = .ok s.formula := by
  obtain ⟨told, p⟩ := s
  simp only [parse]
  cases Formula.parse (Text.trim text) with
  | error e => simp
  | ok q => simp [eq_comm]

theorem exists_of_mem_parseAll {texts : List String} {told : List Sentence}
    (h : parseAll texts = .ok told) {s : Sentence} (hs : s ∈ told) :
    ∃ text ∈ texts, Formula.parse (Text.trim text) = .ok s.formula := by
  induction texts generalizing told with
  | nil =>
    cases h
    cases hs
  | cons text texts ih =>
    simp only [parseAll, bind_eq_ok, pure_eq_ok] at h
    obtain ⟨t, ht, rest, hrest, rfl⟩ := h
    rcases List.mem_cons.1 hs with rfl | hs
    · exact ⟨text, .head _, (parse_eq_ok.1 ht).2⟩
    · obtain ⟨other, hother, hp⟩ := ih hrest hs
      exact ⟨other, .tail _ hother, hp⟩

end Sentence

/-! ## Written formulas -/

namespace Formula

/-- A formula that can be told in a batch: it can be read, and no name has a `;`. -/
structure Tellable (p : Formula) : Prop where
  readable : p.Readable
  no_separator : ∀ s ∈ p.symbols, ';' ∉ s.name.toList

theorem not_mem_render {p : Formula} (h : ∀ s ∈ p.symbols, ';' ∉ s.name.toList) :
    ';' ∉ p.render.toList := by
  induction p with
  | verum => decide
  | symbol s => exact h s (.head _)
  | not p ih => simpa [render] using ih h
  | binary c l r ihl ihr =>
    simp only [symbols, List.mem_append] at h
    have hl := ihl fun s hs => h s (.inl hs)
    have hr := ihr fun s hs => h s (.inr hs)
    have hc : ';' ∉ c.text.toList := by cases c <;> decide
    simp [render, hl, hr, hc]

theorem render_starts {p : Formula} (hp : p.Readable) :
    ∃ c rest, p.render.toList = c :: rest ∧ isBlank c = false := by
  cases p with
  | verum => exact hp.elim
  | symbol s =>
    obtain ⟨c, rest, hcons⟩ := List.exists_cons_of_ne_nil hp.nonempty
    exact ⟨c, rest, hcons, hp.no_blank c (by simp [hcons])⟩
  | not p => exact ⟨'~', p.render.toList, by simp [render], by decide⟩
  | binary c l r =>
    refine ⟨'(', (l.render ++ " " ++ c.text ++ " " ++ r.render ++ ")").toList, ?_, by decide⟩
    simp [render]

theorem render_ends {p : Formula} (hp : p.Readable) :
    ∃ init c, p.render.toList = init ++ [c] ∧ isBlank c = false := by
  induction p with
  | verum => exact hp.elim
  | symbol s =>
    have hlast := List.dropLast_append_getLast hp.nonempty
    exact ⟨_, _, hlast.symm, hp.no_blank _ (List.getLast_mem hp.nonempty)⟩
  | not p ih =>
    obtain ⟨init, c, hlast, hc⟩ := ih hp
    exact ⟨'~' :: init, c, by simp [render, hlast], hc⟩
  | binary c l r =>
    refine ⟨("(" ++ l.render ++ " " ++ c.text ++ " " ++ r.render).toList, ')', ?_, by decide⟩
    simp [render]

theorem trimChars_render {p : Formula} (hp : p.Readable) :
    trimChars p.render.toList = p.render.toList := by
  obtain ⟨c, rest, hfirst, hc⟩ := render_starts hp
  obtain ⟨init, d, hlast, hd⟩ := render_ends hp
  exact Text.trimChars_of_ends (by simp [hfirst, hc]) (by simp [hlast, hd])

end Formula

namespace Sentence

/-- The sentence that is told by the written form of a formula. -/
def written (p : Formula) : Sentence where
  text := p.render
  formula := p

theorem parse_render {p : Formula} (hp : p.Readable) : parse p.render = .ok (written p) := by
  have htrim : Text.trim p.render = p.render := by
    rw [Text.trim, Formula.trimChars_render hp, String.ofList_toList]
  refine parse_eq_ok.2 ⟨htrim.symm, ?_⟩
  rw [htrim]
  exact Formula.parse_render hp

theorem split_render {p : Formula} (hp : p.Tellable) : split p.render = [p.render] := by
  obtain ⟨c, rest, hfirst, -⟩ := Formula.render_starts hp.readable
  have hne : p.render.toList ≠ [] := by simp [hfirst]
  rw [split, Text.trimmedParts, Text.splitAt_of_not_mem (Formula.not_mem_render hp.no_separator)]
  simp [Formula.trimChars_render hp.readable, hne]

theorem split_renders {ps : List Formula} (h : ∀ p ∈ ps, p.Tellable) :
    split ("; ".intercalate (ps.map Formula.render)) = ps.map Formula.render := by
  rw [split_intercalate_blank]
  induction ps with
  | nil => rfl
  | cons p ps ih =>
    rw [List.map_cons, List.flatMap_cons, split_render (h p (.head _)),
      ih fun q hq => h q (.tail _ hq), List.singleton_append]

theorem parseAll_renders {ps : List Formula} (h : ∀ p ∈ ps, p.Tellable) :
    parseAll (ps.map Formula.render) = .ok (ps.map written) := by
  induction ps with
  | nil => rfl
  | cons p ps ih =>
    simp only [List.map_cons, parseAll, bind_eq_ok, pure_eq_ok]
    exact ⟨_, parse_render (h p (.head _)).readable, _, ih fun q hq => h q (.tail _ hq), rfl⟩

end Sentence

/-! ## Knowledge bases as they change -/

namespace KnowledgeBase

/-- What can happen to a knowledge base. -/
inductive Change where
  | tell (batch : String)
  | clear

def change (base : KnowledgeBase) : Change → KnowledgeBase
  | .tell batch => (base.tell batch).2
  | .clear => base.clear

def changeAll (base : KnowledgeBase) (changes : List Change) : KnowledgeBase :=
  changes.foldl change base

/-- The vocabulary is that of the sentences, and each sentence can be told as it is
written. -/
structure Retellable (base : KnowledgeBase) : Prop where
  built : base.Built
  tellable : ∀ p ∈ base.formulas, p.Tellable

theorem retellable_empty : Retellable {} :=
  ⟨built_empty, fun _ hp => by cases hp⟩

/-- What is read off a batch can be told again. -/
theorem tellable_of_parseAll {batch : String} {told : List Sentence}
    (h : Sentence.parseAll (Sentence.split batch) = .ok told) {s : Sentence} (hs : s ∈ told) :
    s.formula.Tellable := by
  obtain ⟨text, htext, hp⟩ := Sentence.exists_of_mem_parseAll h hs
  refine ⟨Formula.readable_of_parse hp, fun t ht hmem => ?_⟩
  have htrim := Formula.mem_of_parse hp ht hmem
  rw [Text.trim, String.toList_ofList] at htrim
  exact Sentence.not_mem_of_mem_split htext ((Text.trimChars_sublist _).subset htrim)

theorem Retellable.change {base : KnowledgeBase} (h : base.Retellable) (c : Change) :
    (base.change c).Retellable := by
  cases c with
  | clear => exact retellable_empty
  | tell batch =>
    cases ht : Sentence.parseAll (Sentence.split batch) with
    | error e =>
      have hsame : base.change (.tell batch) = base := by simp only [KnowledgeBase.change, tell, ht]
      rwa [hsame]
    | ok told =>
      have hgrown : base.change (.tell batch) = ofSentences (base.sentences ++ told) :=
        h.built.tell (tell_eq_ok.2 ⟨ht, by simp only [KnowledgeBase.change, tell, ht]⟩)
      rw [hgrown]
      refine ⟨built_ofSentences _, fun p hp => ?_⟩
      simp only [formulas, sentences_ofSentences, List.map_append, List.mem_append] at hp
      rcases hp with hp | hp
      · exact h.tellable p hp
      · obtain ⟨s, hs, rfl⟩ := List.mem_map.1 hp
        exact tellable_of_parseAll ht hs

theorem Retellable.changeAll {base : KnowledgeBase} (h : base.Retellable) (changes : List Change) :
    (base.changeAll changes).Retellable := by
  induction changes generalizing base with
  | nil => exact h
  | cons c changes ih => exact ih (h.change c)

/-- The formulas make up the vocabulary, whatever texts they were told as. -/
theorem Built.symbols_eq {base : KnowledgeBase} (h : base.Built) :
    base.vocabulary.symbols = Symbol.firstAppearances (base.formulas.flatMap Formula.symbols) := by
  rw [h, symbols_ofSentences, formulas, sentences_ofSentences, List.flatMap_map]
  rfl

theorem Retellable.tell_render {base : KnowledgeBase} (h : base.Retellable) :
    tell {} base.render =
      (.ok (base.formulas.map Sentence.written),
        ofSentences (base.formulas.map Sentence.written)) := by
  refine tell_eq_ok.2 ⟨?_, rfl⟩
  rw [render, Sentence.split_renders h.tellable, Sentence.parseAll_renders h.tellable]

theorem formulas_ofSentences_written (ps : List Formula) :
    (ofSentences (ps.map Sentence.written)).formulas = ps := by
  rw [formulas, sentences_ofSentences, List.map_map]
  exact List.map_id ps

/-- **A knowledge base can be told its own written form.** Whatever was told and cleared
before, an empty knowledge base takes it in, and then has the same formulas in the same
order, the same vocabulary in the same order, and the same written form. -/
theorem tell_render_restores (changes : List Change) :
    let base := changeAll {} changes
    ∃ told base', tell {} base.render = (.ok told, base') ∧ base'.formulas = base.formulas ∧
      base'.vocabulary.symbols = base.vocabulary.symbols ∧ base'.render = base.render := by
  intro base
  have h : base.Retellable := retellable_empty.changeAll changes
  have hformulas := formulas_ofSentences_written base.formulas
  refine ⟨_, _, h.tell_render, hformulas, ?_, ?_⟩
  · rw [(built_ofSentences _).symbols_eq, hformulas, ← h.built.symbols_eq]
  · rw [render, hformulas, ← render]

example : (changeAll {} [.tell "t", .clear, .tell " a|&b<= ;; ~ ~d", .tell "c; d &"]).render =
    "(a| & b<=); ~~d" := by
  decide +kernel

end KnowledgeBase

end Reasoner
