/-
Taking the blanks off a text. What trimming leaves stands in the text between blanks, and
begins and ends with characters that are none (`Trims`); there is only one such stretch
(`trims_iff`), the empty one where everything is blank (`trimChars_eq_nil_iff`).
-/
import Mathlib.Data.List.TakeWhile
import Reasoner.Text.Blank

namespace Reasoner.Text

/-- `text` is `part` without the blanks around it. -/
structure Trims (part text : String) : Prop where
  around : ∃ front back, part.toList = front ++ text.toList ++ back ∧
    ∀ c ∈ front ++ back, isBlank c = true
  starts : ∀ c, text.toList.head? = some c → isBlank c = false
  ends : ∀ c, text.toList.getLast? = some c → isBlank c = false

theorem not_blank_of_head?_dropWhile {cs : List Char} {c : Char}
    (h : (cs.dropWhile isBlank).head? = some c) : isBlank c = false := by
  have hhead := List.head?_dropWhile_not isBlank cs
  rwa [h] at hhead

theorem trimChars_eq_nil_iff {cs : List Char} : trimChars cs = [] ↔ ∀ c ∈ cs, isBlank c = true := by
  rw [trimChars, List.reverse_eq_nil_iff, List.dropWhile_eq_nil_iff]
  simp only [List.mem_reverse]
  constructor
  · intro h
    have hnone : cs.dropWhile isBlank = [] := by
      rw [← List.head?_eq_none_iff, Option.eq_none_iff_forall_ne_some]
      intro c hc
      have hblank := h c (List.mem_of_mem_head? hc)
      rw [not_blank_of_head?_dropWhile hc] at hblank
      cases hblank
    exact List.dropWhile_eq_nil_iff.1 hnone
  · intro h c hc
    exact h c ((List.dropWhile_sublist _).subset hc)

/-- What trimming takes away: blanks in front, and then blanks behind. -/
theorem dropWhile_eq_trimChars_append (cs : List Char) :
    cs.dropWhile isBlank =
      trimChars cs ++ ((cs.dropWhile isBlank).reverse.takeWhile isBlank).reverse := by
  rw [trimChars, ← List.reverse_append, List.takeWhile_append_dropWhile, List.reverse_reverse]

theorem trims_trim (part : String) : Trims part (trim part) := by
  have htext : (trim part).toList = trimChars part.toList := by rw [trim, String.toList_ofList]
  have hrest := dropWhile_eq_trimChars_append part.toList
  refine ⟨⟨part.toList.takeWhile isBlank,
    ((part.toList.dropWhile isBlank).reverse.takeWhile isBlank).reverse, ?_, ?_⟩, ?_, ?_⟩
  · rw [htext, List.append_assoc, ← hrest, List.takeWhile_append_dropWhile]
  · intro c hc
    rcases List.mem_append.1 hc with hc | hc
    · exact List.mem_takeWhile_imp hc
    · exact List.mem_takeWhile_imp (List.mem_reverse.1 hc)
  · intro c hc
    rw [htext] at hc
    have hhead : (part.toList.dropWhile isBlank).head? = some c := by
      rw [hrest, List.head?_append, hc, Option.some_or]
    exact not_blank_of_head?_dropWhile hhead
  · intro c hc
    rw [htext, trimChars, List.getLast?_reverse] at hc
    exact not_blank_of_head?_dropWhile hc

/-- Trimming takes away blanks, and stops at a character that is none. -/
theorem trimChars_of_around {front cs back : List Char} (hblank : ∀ c ∈ front ++ back, isBlank c = true)
    (hstart : ∀ c, cs.head? = some c → isBlank c = false)
    (hend : ∀ c, cs.getLast? = some c → isBlank c = false) :
    trimChars (front ++ cs ++ back) = cs := by
  simp only [List.mem_append] at hblank
  rcases List.eq_nil_or_concat cs with rfl | ⟨init, d, hlast⟩
  · rw [trimChars_eq_nil_iff]
    simpa using hblank
  · obtain ⟨c, rest, hfirst⟩ : ∃ c rest, cs = c :: rest :=
      List.exists_cons_of_ne_nil (by simp [hlast])
    have hc : isBlank c = false := hstart c (by simp [hfirst])
    have hd : isBlank d = false := hend d (by simp [hlast])
    have hfront : (front ++ cs ++ back).dropWhile isBlank = cs ++ back := by
      rw [List.append_assoc, List.dropWhile_append_of_pos fun x hx => hblank x (.inl hx), hfirst,
        List.cons_append, List.dropWhile_cons_of_neg (by simp [hc])]
    have hback : (cs ++ back).reverse.dropWhile isBlank = cs.reverse := by
      rw [List.reverse_append, List.dropWhile_append_of_pos fun x hx =>
        hblank x (.inr (List.mem_reverse.1 hx)), hlast, List.concat_eq_append, List.reverse_append,
        List.reverse_singleton, List.singleton_append, List.dropWhile_cons_of_neg (by simp [hd])]
    rw [trimChars, hfront, hback, List.reverse_reverse]

/-- Nothing is trimmed off a text with no blank at either end. -/
theorem trimChars_of_ends {cs : List Char} (hstart : ∀ c, cs.head? = some c → isBlank c = false)
    (hend : ∀ c, cs.getLast? = some c → isBlank c = false) : trimChars cs = cs := by
  have h : trimChars ([] ++ cs ++ []) = cs := trimChars_of_around (by simp) hstart hend
  rwa [List.nil_append, List.append_nil] at h

/-- There is one way to take the blanks away. -/
theorem trims_iff {part text : String} : Trims part text ↔ text = trim part := by
  refine ⟨?_, fun h => h ▸ trims_trim part⟩
  rintro ⟨⟨front, back, hpart, hblank⟩, hstart, hend⟩
  rw [trim, hpart, trimChars_of_around hblank hstart hend, String.ofList_toList]

theorem trim_trim (part : String) : trim (trim part) = trim part := by
  have h := trims_trim part
  rw [trim, trimChars_of_ends h.starts h.ends, String.ofList_toList]

end Reasoner.Text
