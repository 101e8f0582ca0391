/-
What telling a batch does. A batch is cut at its separators, and every part that is not
blank is to be a sentence: its text is the part without the blanks around it
(`Text.Trims`), and its formula is what that text reads as (`Sentence.ReadFrom`). Either
all parts are sentences, and these are what is appended, or the first part that is none is
reported and nothing changes (`Sentence.parseAll_split_eq_ok_iff`,
`Sentence.parseAll_split_eq_error_iff`). The vocabulary keeps in step, as the symbols of all
sentences without those that occurred before.
-/
import Reasoner.Proofs.TellingBack

namespace Reasoner

open Text (isBlank trimChars)

theorem Symbol.firstAppearances_eq_eraseDups (symbols : List Symbol) :
    firstAppearances symbols = symbols.eraseDups := by
  induction symbols using List.reverseRecOn with
  | nil => rfl
  | append_singleton symbols s ih =>
    rw [firstAppearances, appendNew_append, ← firstAppearances, ih, List.eraseDups_append,
      appendNew_cons, appendNew_nil, insertNew]
    by_cases hs : s ∈ symbols
    · simp [hs, List.removeAll]
    · simp [hs, List.removeAll, List.eraseDups_cons]

namespace Text

/-! ## The parts of a batch -/

theorem splitAt_eq_splitOn (separator : Char) (cs : List Char) :
    splitAt separator cs = cs.splitOn separator := by
  induction cs with
  | nil => rfl
  | cons c cs ih =>
    rw [splitAt, List.splitOn_cons_eq_if_modifyHead, ih]
    simp only [beq_iff_eq]

/-- The parts of a text between its separators, blanks and all, without those that are
blank. -/
def filledParts (separator : Char) (text : String) : List String :=
  ((text.toList.splitOn separator).filter fun part => !part.all isBlank).map String.ofList

/-- The trimmed parts are the parts that are not blank, each of them trimmed. -/
theorem trimmedParts_eq (separator : Char) (text : String) :
    trimmedParts separator text = (filledParts separator text).map trim := by
  have hfilled : ∀ part : List Char, decide (trimChars part ≠ []) = !part.all isBlank := by
    intro part
    rw [Bool.eq_iff_iff]
    simp [trimChars_eq_nil_iff]
  rw [trimmedParts, filledParts, splitAt_eq_splitOn, List.filter_map, List.map_map, List.map_map]
  simp only [Function.comp_def, hfilled, trim, String.toList_ofList]

end Text

/-! ## Reading a batch -/

/-- The part tells the sentence: its text is the part without the blanks around it, and its
formula is what that text reads as. -/
structure Sentence.ReadFrom (part : String) (s : Sentence) : Prop where
  trims : Text.Trims part s.text
  reads : Formula.parse s.text = .ok s.formula

/-- The part is no sentence, for the reason given. -/
structure InvalidSentence.RaisedBy (part : String) (e : InvalidSentence) : Prop where
  trims : Text.Trims part e.text
  fails : Formula.parse e.text = .error e.error

namespace Sentence

theorem parse_trim_eq_ok {part : String} {s : Sentence} :
    parse (Text.trim part) = .ok s ↔ ReadFrom part s := by
  rw [parse_eq_ok, Text.trim_trim]
  constructor
  · rintro ⟨htext, hp⟩
    exact ⟨Text.trims_iff.2 htext, htext ▸ hp⟩
  · rintro ⟨htrims, hp⟩
    have htext := Text.trims_iff.1 htrims
    exact ⟨htext, htext ▸ hp⟩

theorem parse_trim_eq_error {part : String} {e : InvalidSentence} :
    parse (Text.trim part) = .error e ↔ e.RaisedBy part := by
  obtain ⟨text, error⟩ := e
  have hparse : parse (Text.trim part) = .error ⟨text, error⟩ ↔
      text = Text.trim part ∧ Formula.parse (Text.trim part) = .error error := by
    simp only [parse, Text.trim_trim]
    cases Formula.parse (Text.trim part) with
    | error e' => simp [eq_comm]
    | ok p => simp
  rw [hparse]
  constructor
  · rintro ⟨rfl, hp⟩
    exact ⟨Text.trims_trim part, hp⟩
  · rintro ⟨htrims, hp⟩
    obtain rfl := Text.trims_iff.1 htrims
    exact ⟨rfl, hp⟩

theorem exists_readFrom_iff {part : String} :
    (∃ s, ReadFrom part s) ↔ (parse (Text.trim part)).isOk = true := by
  simp only [← parse_trim_eq_ok]
  cases parse (Text.trim part) with
  | error e => simp [Except.isOk, Except.toBool]
  | ok s => simp [Except.isOk, Except.toBool]

instance (part : String) : Decidable (∃ s, ReadFrom part s) :=
  decidable_of_iff _ exists_readFrom_iff.symm

theorem parseAll_eq_ok_iff {texts : List String} {told : List Sentence} :
    parseAll texts = .ok told ↔ List.Forall₂ (fun text s => parse text = .ok s) texts told := by
  induction texts generalizing told with
  | nil => simp [parseAll, eq_comm]
  | cons text texts ih =>
    simp only [parseAll, bind_eq_ok, pure_eq_ok, ih, List.forall₂_cons_left_iff]
    constructor
    · rintro ⟨s, hs, rest, hrest, rfl⟩
      exact ⟨s, rest, hs, hrest, rfl⟩
    · rintro ⟨s, rest, hs, hrest, rfl⟩
      exact ⟨s, hs, rest, hrest, rfl⟩

/-- Reading stops at the first text that is no sentence. -/
theorem parseAll_eq_error_iff {texts : List String} {e : InvalidSentence} :
    parseAll texts = .error e ↔
      ∃ before text after, texts = before ++ text :: after ∧
        (∀ b ∈ before, ∃ s, parse b = .ok s) ∧ parse text = .error e := by
  constructor
  · intro h
    induction texts with
    | nil => cases h
    | cons text texts ih =>
      rw [parseAll, bind_eq_error] at h
      rcases h with h | ⟨s, hs, h⟩
      · exact ⟨[], text, texts, rfl, by simp, h⟩
      · obtain ⟨before, first, after, rfl, hbefore, hfirst⟩ := ih (bind_pure_eq_error.1 h)
        exact ⟨text :: before, first, after, rfl,
          List.forall_mem_cons.2 ⟨⟨s, hs⟩, hbefore⟩, hfirst⟩
  · rintro ⟨before, text, after, rfl, hbefore, h⟩
    induction before with
    | nil => exact bind_eq_error.2 (.inl h)
    | cons b before ih =>
      obtain ⟨⟨s, hs⟩, hrest⟩ := List.forall_mem_cons.1 hbefore
      exact bind_eq_error.2 (.inr ⟨s, hs, bind_pure_eq_error.2 (ih hrest)⟩)

theorem split_eq (batch : String) : split batch = (Text.filledParts ';' batch).map Text.trim :=
  Text.trimmedParts_eq ';' batch

/-- **A batch is read** when each of its parts is, and gives the sentences they tell. -/
theorem parseAll_split_eq_ok_iff {batch : String} {told : List Sentence} :
    parseAll (split batch) = .ok told ↔ List.Forall₂ ReadFrom (Text.filledParts ';' batch) told := by
  rw [split_eq, parseAll_eq_ok_iff, List.forall₂_map_left_iff]
  simp only [parse_trim_eq_ok]

/-- What is read was read off every part. -/
theorem exists_readFrom_of_parseAll {batch : String} {told : List Sentence}
    (h : parseAll (split batch) = .ok told) {part : String} (hpart : part ∈ Text.filledParts ';' batch) :
    ∃ s, ReadFrom part s := by
  rw [parseAll_split_eq_ok_iff] at h
  generalize Text.filledParts ';' batch = parts at h hpart
  induction h with
  | nil => cases hpart
  | cons hs _ ih =>
    rcases List.mem_cons.1 hpart with rfl | hpart
    · exact ⟨_, hs⟩
    · exact ih hpart

/-- **A batch is refused** for the first of its parts that is no sentence. -/
theorem parseAll_split_eq_error_iff {batch : String} {e : InvalidSentence} :
    parseAll (split batch) = .error e ↔
      ∃ before part after, Text.filledParts ';' batch = before ++ part :: after ∧
        (∀ b ∈ before, ∃ s, ReadFrom b s) ∧ e.RaisedBy part := by
  rw [split_eq, parseAll_eq_error_iff]
  constructor
  · rintro ⟨_, _, _, hparts, hbefore, hfirst⟩
    obtain ⟨before, _, hsplit, rfl, hrest⟩ := List.map_eq_append_iff.1 hparts
    obtain ⟨part, after, rfl, rfl, rfl⟩ := List.map_eq_cons_iff.1 hrest
    simp only [List.forall_mem_map, parse_trim_eq_ok] at hbefore
    exact ⟨before, part, after, hsplit, hbefore, parse_trim_eq_error.1 hfirst⟩
  · rintro ⟨before, part, after, hparts, hbefore, hfirst⟩
    refine ⟨before.map Text.trim, Text.trim part, after.map Text.trim, ?_, ?_, ?_⟩
    · rw [hparts, List.map_append, List.map_cons]
    · simpa only [List.forall_mem_map, parse_trim_eq_ok] using hbefore
    · exact parse_trim_eq_error.2 hfirst

end Sentence

/-! ## Telling a batch -/

namespace KnowledgeBase

theorem Built.symbols_eq_eraseDups {base : KnowledgeBase} (h : base.Built) :
    base.vocabulary.symbols = (base.sentences.flatMap Sentence.symbols).eraseDups := by
  rw [← Symbol.firstAppearances_eq_eraseDups, ← symbols_ofSentences, ← h]

theorem tell_eq_error {base : KnowledgeBase} {batch : String} {e : InvalidSentence}
    (h : Sentence.parseAll (Sentence.split batch) = .error e) : base.tell batch = (.error e, base) := by
  rw [tell, h]

/-- A batch whose parts can all be read is taken in. -/
theorem tell_of_readable {batch : String}
    (hall : ∀ part ∈ Text.filledParts ';' batch, ∃ s, Sentence.ReadFrom part s) (base : KnowledgeBase) :
    ∃ told base', base.tell batch = (.ok told, base') ∧
      List.Forall₂ Sentence.ReadFrom (Text.filledParts ';' batch) told ∧
      base'.sentences = base.sentences ++ told := by
  cases hread : Sentence.parseAll (Sentence.split batch) with
  | ok told =>
    refine ⟨told, _, tell_eq_ok.2 ⟨hread, rfl⟩, Sentence.parseAll_split_eq_ok_iff.1 hread, ?_⟩
    rw [foldl_append]
  | error e =>
    -- the part reported is one of those that can be read
    obtain ⟨before, part, after, hparts, -, hraised⟩ := Sentence.parseAll_split_eq_error_iff.1 hread
    obtain ⟨s, hs⟩ := hall part (by simp [hparts])
    have hok := Sentence.parse_trim_eq_ok.2 hs
    rw [Sentence.parse_trim_eq_error.2 hraised] at hok
    cases hok

/-- A batch with a part that cannot be read is refused for the first such part. -/
theorem tell_of_unreadable {batch : String}
    (hsome : ∃ part ∈ Text.filledParts ';' batch, ¬∃ s, Sentence.ReadFrom part s) (base : KnowledgeBase) :
    ∃ before part after e, Text.filledParts ';' batch = before ++ part :: after ∧
      (∀ b ∈ before, ∃ s, Sentence.ReadFrom b s) ∧ e.RaisedBy part ∧
      base.tell batch = (.error e, base) := by
  cases hread : Sentence.parseAll (Sentence.split batch) with
  | ok told =>
    obtain ⟨part, hpart, hnone⟩ := hsome
    exact absurd (Sentence.exists_readFrom_of_parseAll hread hpart) hnone
  | error e =>
    obtain ⟨before, part, after, hparts, hbefore, hraised⟩ :=
      Sentence.parseAll_split_eq_error_iff.1 hread
    exact ⟨before, part, after, e, hparts, hbefore, hraised, tell_eq_error hread⟩

/-- **What a knowledge base holds is what it was told.** Whatever was told and cleared before,
its vocabulary lists the symbols of its sentences, each where it first occurs. A batch whose
parts, the blank ones apart, can all be read is answered with the sentences they tell, one
for each part and in order, and these are appended. A batch with a part that cannot be read
is answered with the first such part, trimmed, and what is wrong with it, and changes
nothing. Two batches accepted one after the other leave what both together leave, joined by
a separator. -/
theorem told_part_by_part (changes : List Change) :
    let base := changeAll {} changes
    base.vocabulary.symbols = (base.sentences.flatMap Sentence.symbols).eraseDups ∧
    base.vocabulary.symbols.Nodup ∧
    (∀ batch, (∀ part ∈ Text.filledParts ';' batch, ∃ s, Sentence.ReadFrom part s) →
      ∃ told base', base.tell batch = (.ok told, base') ∧
        List.Forall₂ Sentence.ReadFrom (Text.filledParts ';' batch) told ∧
        base'.sentences = base.sentences ++ told) ∧
    (∀ batch, (∃ part ∈ Text.filledParts ';' batch, ¬∃ s, Sentence.ReadFrom part s) →
      ∃ before part after e, Text.filledParts ';' batch = before ++ part :: after ∧
        (∀ b ∈ before, ∃ s, Sentence.ReadFrom b s) ∧ e.RaisedBy part ∧
        base.tell batch = (.error e, base)) ∧
    ∀ a b told told' base' base'', base.tell a = (.ok told, base') →
      base'.tell b = (.ok told', base'') →
      base.tell (a ++ ";" ++ b) = (.ok (told ++ told'), base'') := by
  intro base
  have hbuilt : base.Built := (retellable_empty.changeAll changes).built
  refine ⟨hbuilt.symbols_eq_eraseDups, hbuilt.nodup, fun batch hall => tell_of_readable hall base,
    fun batch hsome => tell_of_unreadable hsome base, ?_⟩
  intro a b told told' base' base'' ha hb
  exact tell_of_split (Sentence.split_append a b) ha hb

/-- Two sentences between blanks, one of them a wide one, are appended, and a fact told next
can be told with them at once; of three parts the second and the third are no sentences, and
the second is reported. -/
theorem told_part_by_part_blanks :
    let base := changeAll {} [.tell "x", .clear, .tell "b => a"]
    let good := "\u3000c & b ;; ~ c\t"
    let bad := "d; c & ; e )"
    let fact : Sentence := ⟨"a", .symbol ⟨"a"⟩⟩
    (∀ part ∈ Text.filledParts ';' good, ∃ s, Sentence.ReadFrom part s) ∧
      (∃ part ∈ Text.filledParts ';' bad, ¬∃ s, Sentence.ReadFrom part s) ∧
      (∃ told base', base.tell good = (.ok told, base') ∧
        List.Forall₂ Sentence.ReadFrom (Text.filledParts ';' good) told ∧
        base'.sentences = base.sentences ++ told ∧
        base'.tell "a" = (.ok [fact], base'.append fact) ∧
        base.tell (good ++ ";" ++ "a") = (.ok (told ++ [fact]), base'.append fact)) ∧
      (∃ before part after e, Text.filledParts ';' bad = before ++ part :: after ∧
        (∀ b ∈ before, ∃ s, Sentence.ReadFrom b s) ∧ e.RaisedBy part ∧
        base.tell bad = (.error e, base)) ∧
      (base.tell bad).1 = .error ⟨"c &", .missingOperand (.binary .and)⟩ := by
  intro base good bad fact
  have hgood : ∀ part ∈ Text.filledParts ';' good, ∃ s, Sentence.ReadFrom part s := by
    decide +kernel
  have hbad : ∃ part ∈ Text.filledParts ';' bad, ¬∃ s, Sentence.ReadFrom part s := by
    decide +kernel
  obtain ⟨-, -, haccept, hrefuse, hjoin⟩ := told_part_by_part [.tell "x", .clear, .tell "b => a"]
  obtain ⟨told, base', htold, hforall, hsentences⟩ := haccept good hgood
  have hfact : base'.tell "a" = (.ok [fact], base'.append fact) :=
    tell_eq_ok.2 ⟨by decide +kernel, rfl⟩
  exact ⟨hgood, hbad,
    ⟨told, base', htold, hforall, hsentences, hfact, hjoin good "a" _ _ _ _ htold hfact⟩,
    hrefuse bad hbad, by decide +kernel⟩

end KnowledgeBase

end Reasoner
