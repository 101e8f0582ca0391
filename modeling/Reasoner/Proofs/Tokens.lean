/-
Tokens of a text. What is read at the front is a mark, or a name that goes on until a
blank or a mark comes next (`Token.tokenAt_eq_some_iff`). Every text is a token list, since
a character that is neither blank nor the start of a mark begins a name
(`Token.tokenize_eq`). A name that is read is readable (`Symbol.Readable`): not empty,
without blanks and without a mark inside. Conversely a readable name is read as it stands
wherever a blank, a closing parenthesis or nothing follows, because no mark reaches across
such a boundary (`Token.standsBefore_of_readable`).
-/
import Mathlib.Data.List.Infix
import Mathlib.Data.List.TakeWhile
import Reasoner.Token

namespace Reasoner

open Text (isBlank)

namespace Token

/-! ## Marks -/

/-- The tokens that are not names: the operators and the parentheses. -/
def marks : List Token :=
  [opening, closing, operator .not, operator (.binary .and), operator (.binary .or),
    operator (.binary .implies), operator (.binary .iff)]

theorem operator_mem_marks (op : Operator) : operator op ∈ marks := by
  cases op with
  | not => decide
  | binary c => cases c <;> decide

/-- What is found is a mark, and the text starts with it. -/
theorem eq_append_of_markAt {cs rest : List Char} {t : Token} (h : markAt cs = some (t, rest)) :
    t ∈ marks ∧ cs = t.text.toList ++ rest := by
  unfold markAt at h
  split at h <;> cases h <;> exact ⟨by decide, rfl⟩

/-- No mark is the start of another one. -/
theorem markAt_text_append {t : Token} (h : t ∈ marks) (rest : List Char) :
    markAt (t.text.toList ++ rest) = some (t, rest) := by
  simp only [marks, List.mem_cons, List.not_mem_nil, or_false] at h
  rcases h with rfl | rfl | rfl | rfl | rfl | rfl | rfl <;> rfl

/-- A mark can be read at the front of the text. -/
def StartsMark (cs : List Char) : Prop :=
  ∃ t ∈ marks, t.text.toList <+: cs

theorem isSome_markAt {cs : List Char} : (markAt cs).isSome = true ↔ StartsMark cs := by
  constructor
  · intro h
    obtain ⟨⟨t, rest⟩, hmark⟩ := Option.isSome_iff_exists.1 h
    obtain ⟨ht, rfl⟩ := eq_append_of_markAt hmark
    exact ⟨t, ht, List.prefix_append _ _⟩
  · rintro ⟨t, ht, rest, rfl⟩
    rw [markAt_text_append ht]
    rfl

theorem markAt_eq_none_iff {cs : List Char} : markAt cs = none ↔ ¬ StartsMark cs := by
  rw [← isSome_markAt, Option.not_isSome_iff_eq_none]

/-! ## The first name -/

/-- A name cannot go on: nothing is left, or a blank or a mark comes next. -/
def Stops (rest : List Char) : Prop :=
  ∀ c ∈ rest.head?, isBlank c = true ∨ StartsMark rest

/-- At no character of the name there is a blank or the start of a mark, not even of one that
reaches into the text after the name. -/
def Unbroken (name rest : List Char) : Prop :=
  ∀ c after, c :: after <:+ name → isBlank c = false ∧ ¬ StartsMark (c :: (after ++ rest))

theorem unbroken_nil (rest : List Char) : Unbroken [] rest := by
  intro c after h
  cases List.suffix_nil.1 h

theorem unbroken_cons {c : Char} {name rest : List Char} :
    Unbroken (c :: name) rest ↔
      (isBlank c = false ∧ ¬ StartsMark (c :: (name ++ rest))) ∧ Unbroken name rest := by
  constructor
  · intro h
    exact ⟨h c name (List.suffix_refl _), fun d after hd => h d after (hd.trans (List.suffix_cons c name))⟩
  · rintro ⟨hfirst, htail⟩ d after hd
    rcases List.suffix_cons_iff.1 hd with heq | hd
    · cases heq
      exact hfirst
    · exact htail d after hd

/-- **What is read as a name** is the stretch up to where a name cannot go on. -/
theorem nameAt_eq_iff {cs name rest : List Char} :
    nameAt cs = (name, rest) ↔ cs = name ++ rest ∧ Unbroken name rest ∧ Stops rest := by
  constructor
  · intro h
    fun_induction nameAt cs generalizing name rest with
    | case1 =>
      cases h
      exact ⟨rfl, unbroken_nil _, by simp [Stops]⟩
    | case2 c cs hstop =>
      cases h
      rw [Bool.or_eq_true, isSome_markAt] at hstop
      refine ⟨rfl, unbroken_nil _, fun d hd => ?_⟩
      obtain rfl : c = d := by simpa using hd
      exact hstop
    | case3 c cs hgo name' rest' hname ih =>
      cases h
      rw [Bool.or_eq_true, isSome_markAt, not_or, Bool.not_eq_true] at hgo
      obtain ⟨rfl, htail, hrest⟩ := ih hname
      exact ⟨rfl, unbroken_cons.2 ⟨hgo, htail⟩, hrest⟩
  · rintro ⟨rfl, hname, hrest⟩
    induction name with
    | nil =>
      cases rest with
      | nil => rfl
      | cons c rest =>
        rw [List.nil_append, nameAt, if_pos]
        simpa [isSome_markAt] using hrest c rfl
    | cons c name ih =>
      obtain ⟨hfirst, htail⟩ := unbroken_cons.1 hname
      rw [List.cons_append, nameAt, if_neg, ih htail]
      simpa [isSome_markAt] using hfirst

/-! ## The first token -/

theorem tokenAt_text_append {t : Token} (h : t ∈ marks) (rest : List Char) :
    tokenAt (t.text.toList ++ rest) = some (t, rest) := by
  rw [tokenAt, markAt_text_append h]

end Token

/-- The name is all that can be read as a name where it stands. -/
structure Symbol.StandsBefore (s : Symbol) (rest : List Char) : Prop where
  nonempty : s.name.toList ≠ []
  unbroken : Token.Unbroken s.name.toList rest
  stops : Token.Stops rest

namespace Token

/-- The token can be read in front of `rest`: a mark anywhere, a name up to where it stops. -/
def StandsBefore : Token → List Char → Prop
  | symbol s, rest => s.StandsBefore rest
  | _, _ => True

theorem mem_marks_or_symbol (t : Token) : t ∈ marks ∨ ∃ s, t = symbol s := by
  cases t with
  | opening | closing => exact .inl (by decide)
  | operator op => exact .inl (operator_mem_marks op)
  | symbol s => exact .inr ⟨s, rfl⟩

theorem standsBefore_of_mem_marks {t : Token} (h : t ∈ marks) (rest : List Char) :
    t.StandsBefore rest := by
  cases t with
  | symbol s => simp [marks] at h
  | _ => trivial

/-- **The token at the front of a text.** -/
theorem tokenAt_eq_some_iff {cs rest : List Char} {t : Token} :
    tokenAt cs = some (t, rest) ↔ cs = t.text.toList ++ rest ∧ t.StandsBefore rest := by
  constructor
  · intro h
    unfold tokenAt at h
    split at h
    next found hmark =>
      cases h
      obtain ⟨ht, hcs⟩ := eq_append_of_markAt hmark
      exact ⟨hcs, standsBefore_of_mem_marks ht rest⟩
    next =>
      split at h
      next => cases h
      next name after hne hname =>
        cases h
        obtain ⟨hcs, hunbroken, hstops⟩ := nameAt_eq_iff.1 hname
        refine ⟨by simpa [text] using hcs, ?_, ?_, hstops⟩
        · simpa using hne
        · simpa using hunbroken
  · rintro ⟨rfl, hstands⟩
    rcases mem_marks_or_symbol t with ht | ⟨s, rfl⟩
    · exact tokenAt_text_append ht rest
    · obtain ⟨hne, hunbroken, hstops⟩ := hstands
      have hname : nameAt (s.name.toList ++ rest) = (s.name.toList, rest) :=
        nameAt_eq_iff.2 ⟨rfl, hunbroken, hstops⟩
      obtain ⟨c, name, hcons⟩ := List.exists_cons_of_ne_nil hne
      have hnone : markAt (s.name.toList ++ rest) = none := by
        rw [hcons] at hunbroken ⊢
        exact markAt_eq_none_iff.2 (unbroken_cons.1 hunbroken).1.2
      rw [text, tokenAt, hnone, hname, hcons]
      simp only [← hcons, String.ofList_toList]

/-- The text starts with the token that is read. -/
theorem eq_append_of_tokenAt {cs rest : List Char} {t : Token} (h : tokenAt cs = some (t, rest)) :
    cs = t.text.toList ++ rest :=
  (tokenAt_eq_some_iff.1 h).1

theorem exists_tokenAt {c : Char} (cs : List Char) (h : isBlank c = false) :
    ∃ found, tokenAt (c :: cs) = some found := by
  cases hmark : markAt (c :: cs) with
  | some found => exact ⟨found, by rw [tokenAt, hmark]⟩
  | none =>
    have hname : nameAt (c :: cs) = (c :: (nameAt cs).1, (nameAt cs).2) := by
      rw [nameAt, if_neg]
      simp [h, hmark]
    exact ⟨_, by rw [tokenAt, hmark, hname]⟩

end Token

/-! ## Readable names -/

/-- A name that can be read: not empty, and with no blank and no mark inside. -/
structure Symbol.Readable (s : Symbol) : Prop where
  nonempty : s.name.toList ≠ []
  no_blank : ∀ c ∈ s.name.toList, isBlank c = false
  no_mark : ∀ t ∈ Token.marks, ¬ t.text.toList <:+: s.name.toList

instance (s : Symbol) : Decidable s.Readable :=
  decidable_of_iff (s.name.toList ≠ [] ∧ s.name.toList.all (!isBlank ·) = true ∧
      ∀ t ∈ Token.marks, ¬ t.text.toList <:+: s.name.toList) <| by
    constructor
    · rintro ⟨hne, hblank, hmark⟩
      exact ⟨hne, by simpa using hblank, hmark⟩
    · rintro ⟨hne, hblank, hmark⟩
      exact ⟨hne, by simpa using hblank, hmark⟩

namespace Token

theorem text_ne_nil_of_mem_marks {t : Token} (h : t ∈ marks) : t.text.toList ≠ [] := by
  revert t
  decide

/-- Where a name is read it has no mark inside: reading would have stopped where that starts. -/
theorem readable_of_standsBefore {s : Symbol} {rest : List Char} (h : s.StandsBefore rest) :
    s.Readable := by
  refine ⟨h.nonempty, fun c hc => ?_, fun t ht hwithin => ?_⟩
  · obtain ⟨before, after, hname⟩ := List.append_of_mem hc
    exact (h.unbroken c after ⟨before, hname.symm⟩).1
  · obtain ⟨before, after, hname⟩ := hwithin
    obtain ⟨c, mark, hcons⟩ := List.exists_cons_of_ne_nil (text_ne_nil_of_mem_marks ht)
    have hsuffix : c :: (mark ++ after) <:+ s.name.toList :=
      ⟨before, by rw [← hname, hcons, List.append_assoc, List.cons_append]⟩
    refine (h.unbroken c (mark ++ after) hsuffix).2 ⟨t, ht, after ++ rest, ?_⟩
    rw [hcons, List.cons_append, List.append_assoc]

/-- A symbol that is read has a readable name. -/
theorem readable_of_tokenAt {cs rest : List Char} {s : Symbol}
    (h : tokenAt cs = some (symbol s, rest)) : s.Readable :=
  readable_of_standsBefore (tokenAt_eq_some_iff.1 h).2

/-- After the text comes nothing, a blank or a closing parenthesis. -/
def Boundary (rest : List Char) : Prop :=
  ∀ c ∈ rest.head?, isBlank c = true ∨ c = ')'

theorem boundary_nil : Boundary [] := by simp [Boundary]

theorem boundary_blank {c : Char} (h : isBlank c = true) (rest : List Char) : Boundary (c :: rest) := by
  simp [Boundary, h]

theorem boundary_closing (rest : List Char) : Boundary (closing.text.toList ++ rest) := by
  simp [Boundary, text]

theorem stops_of_boundary {rest : List Char} (h : Boundary rest) : Stops rest := by
  intro c hc
  refine (h c hc).imp_right ?_
  rintro rfl
  obtain ⟨after, rfl⟩ := List.head?_eq_some_iff.1 hc
  exact ⟨closing, by decide, List.prefix_append [')'] after⟩

/-- Past its first character a mark has neither blanks nor parentheses. -/
theorem not_boundary_of_mem_tail {t : Token} (ht : t ∈ marks) {d : Char}
    (hd : d ∈ t.text.toList.tail) : ¬ (isBlank d = true ∨ d = ')') := by
  have hall : (marks.all fun t => t.text.toList.tail.all fun d => !(isBlank d || d == ')')) = true := by
    decide
  have hinside := List.all_eq_true.1 (List.all_eq_true.1 hall t ht) d hd
  simpa using hinside

/-- So a mark does not reach across a boundary. -/
theorem prefix_of_prefix_append {t : Token} (ht : t ∈ marks) {c : Char} {name rest : List Char}
    (hrest : Boundary rest) (h : t.text.toList <+: c :: (name ++ rest)) :
    t.text.toList <+: c :: name := by
  obtain ⟨after, hafter⟩ := h
  rw [← List.cons_append] at hafter
  rcases List.append_eq_append_iff.1 hafter with ⟨more, hname, -⟩ | ⟨beyond, htext, hbeyond⟩
  · exact ⟨more, hname.symm⟩
  · cases beyond with
    | nil => rw [htext, List.append_nil]
    | cons d beyond =>
      have hmem : d ∈ t.text.toList.tail := by simp [htext]
      have hhead : d ∈ rest.head? := by simp [hbeyond]
      exact absurd (hrest d hhead) (not_boundary_of_mem_tail ht hmem)

/-- **A readable name is read as it stands** where a boundary follows. -/
theorem standsBefore_of_readable {s : Symbol} (hs : s.Readable) {rest : List Char}
    (hrest : Boundary rest) : s.StandsBefore rest := by
  refine ⟨hs.nonempty, fun c after hsuffix => ⟨hs.no_blank c ?_, ?_⟩, stops_of_boundary hrest⟩
  · exact hsuffix.subset (.head _)
  · rintro ⟨t, ht, hstart⟩
    exact hs.no_mark t ht ((prefix_of_prefix_append ht hrest hstart).isInfix.trans hsuffix.isInfix)

/-! ## All tokens -/

theorem scan_of_tokenAt {cs rest : List Char} {t : Token}
    (h : tokenAt (cs.dropWhile isBlank) = some (t, rest)) :
    scan cs = (t :: (scan rest).1, (scan rest).2) := by
  rw [scan]
  split
  next hnone =>
    rw [h] at hnone
    cases hnone
  next t' rest' hsome =>
    rw [h] at hsome
    cases hsome
    rfl

theorem scan_of_tokenAt_none {cs : List Char} (h : tokenAt (cs.dropWhile isBlank) = none) :
    scan cs = ([], cs) := by
  rw [scan]
  split
  next => rfl
  next t rest hsome =>
    rw [h] at hsome
    cases hsome

@[simp] theorem scan_nil : (scan []).1 = [] := by rw [scan_of_tokenAt_none rfl]

/-- Nothing but blanks is left unread. -/
theorem all_blank_scan (cs : List Char) : (scan cs).2.all isBlank = true := by
  fun_induction scan cs with
  | case1 cs hnone =>
    have hnil : cs.dropWhile isBlank = [] := by
      cases hdrop : cs.dropWhile isBlank with
      | nil => rfl
      | cons c rest =>
        have hhead := List.head?_dropWhile_not isBlank cs
        rw [hdrop] at hhead
        obtain ⟨found, hfound⟩ := exists_tokenAt rest hhead
        rw [hdrop, hfound] at hnone
        cases hnone
    exact List.all_eq_true.2 (List.dropWhile_eq_nil_iff.1 hnil)
  | case2 cs t rest hsome ts unread hscan ih =>
    rw [hscan] at ih
    exact ih

/-- **Every text has a token list.** -/
theorem tokenize_eq (text : String) : tokenize text = .ok (scan text.toList).1 := by
  simp only [tokenize, all_blank_scan, if_true]

theorem readable_of_mem_scan {cs : List Char} {s : Symbol} (h : symbol s ∈ (scan cs).1) :
    s.Readable := by
  fun_induction scan cs with
  | case1 => cases h
  | case2 cs t rest hsome ts unread hscan ih =>
    rcases List.mem_cons.1 h with rfl | h
    · exact readable_of_tokenAt hsome
    · rw [hscan] at ih
      exact ih h

/-- Tokens are made of characters of the text. -/
theorem mem_of_mem_scan {cs : List Char} {t : Token} (h : t ∈ (scan cs).1) {c : Char}
    (hc : c ∈ t.text.toList) : c ∈ cs := by
  fun_induction scan cs with
  | case1 => cases h
  | case2 cs first rest hsome ts unread hscan ih =>
    have hcs := eq_append_of_tokenAt hsome
    have hsub : ∀ d ∈ first.text.toList ++ rest, d ∈ cs := by
      intro d hd
      rw [← hcs] at hd
      exact (List.dropWhile_sublist _).subset hd
    rcases List.mem_cons.1 h with rfl | h
    · exact hsub c (List.mem_append_left _ hc)
    · rw [hscan] at ih
      exact hsub c (List.mem_append_right _ (ih h))

theorem scan_blank_cons {c : Char} (hc : isBlank c = true) (cs : List Char) :
    (scan (c :: cs)).1 = (scan cs).1 := by
  have hdrop : (c :: cs).dropWhile isBlank = cs.dropWhile isBlank := by simp [hc]
  cases htoken : tokenAt (cs.dropWhile isBlank) with
  | none => rw [scan_of_tokenAt_none htoken, scan_of_tokenAt_none (by rw [hdrop, htoken])]
  | some found => rw [scan_of_tokenAt htoken, scan_of_tokenAt (by rw [hdrop, htoken])]

/-- A token at the front of the text is the first of its tokens. -/
theorem scan_of_front {c : Char} {cs rest : List Char} {t : Token} (hc : isBlank c = false)
    (h : tokenAt (c :: cs) = some (t, rest)) : (scan (c :: cs)).1 = t :: (scan rest).1 := by
  rw [scan_of_tokenAt]
  rwa [List.dropWhile_cons_of_neg (by simp [hc])]

/-- No token starts with a blank. -/
theorem exists_cons_of_standsBefore {t : Token} {rest : List Char} (h : t.StandsBefore rest) :
    ∃ c cs, t.text.toList = c :: cs ∧ isBlank c = false := by
  rcases mem_marks_or_symbol t with ht | ⟨s, rfl⟩
  · simp only [marks, List.mem_cons, List.not_mem_nil, or_false] at ht
    rcases ht with rfl | rfl | rfl | rfl | rfl | rfl | rfl <;> exact ⟨_, _, rfl, by decide⟩
  · obtain ⟨c, name, hcons⟩ := List.exists_cons_of_ne_nil h.nonempty
    exact ⟨c, name, hcons, (h.unbroken c name (hcons ▸ List.suffix_refl _)).1⟩

theorem scan_append_of_standsBefore {t : Token} {rest : List Char} (h : t.StandsBefore rest) :
    (scan (t.text.toList ++ rest)).1 = t :: (scan rest).1 := by
  obtain ⟨c, cs, hcons, hc⟩ := exists_cons_of_standsBefore h
  have htoken : tokenAt (t.text.toList ++ rest) = some (t, rest) := tokenAt_eq_some_iff.2 ⟨rfl, h⟩
  rw [hcons, List.cons_append] at htoken ⊢
  exact scan_of_front hc htoken

theorem scan_text_append {t : Token} (h : t ∈ marks) (rest : List Char) :
    (scan (t.text.toList ++ rest)).1 = t :: (scan rest).1 :=
  scan_append_of_standsBefore (standsBefore_of_mem_marks h rest)

theorem scan_name_append {s : Symbol} (hs : s.Readable) {rest : List Char} (hrest : Boundary rest) :
    (scan (s.name.toList ++ rest)).1 = symbol s :: (scan rest).1 :=
  scan_append_of_standsBefore (t := symbol s) (standsBefore_of_readable hs hrest)

end Token

end Reasoner
