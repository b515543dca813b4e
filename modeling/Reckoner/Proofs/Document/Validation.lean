import Mathlib.Data.List.Chain
import Reckoner.Document.Validation
import Reckoner.Proofs.Text.Runs

/-!
# Rejected lines

A line passes the validation when it is short enough, no two underscores stand in a row in it, and none of its words is
forbidden.  Both conditions on its characters can be checked part by part: two underscores in a row lie in one of the
parts or meet at the seam, and a word lies in one of the parts if the second does not go on with a word.
-/

namespace Reckoner.Document

open Reckoner.Text

variable {settings : Settings} {s t : List Char}

/-! ### Underscores -/

/-- Two characters that are not both underscores. -/
def Apart (c d : Char) : Prop := c ≠ '_' ∨ d ≠ '_'

theorem occursIn_underscores_eq_false : occursIn ['_', '_'] s = false ↔ s.IsChain Apart := by
  induction s with
  | nil => simp [occursIn]
  | cons c rest ih =>
    cases rest with
    | nil => simp [occursIn, List.isPrefixOf]
    | cons d more =>
      rw [occursIn, Bool.or_eq_false_iff, ih, List.isChain_cons_cons, and_congr_left_iff]
      intro _
      simp only [List.isPrefixOf, Bool.and_true, Bool.and_eq_false_iff, beq_eq_false_iff_ne, Apart]
      exact or_congr ne_comm ne_comm

theorem isChain_of_not_mem (h : '_' ∉ s) : s.IsChain Apart := by
  induction s with
  | nil => exact .nil
  | cons c rest ih =>
    rw [List.mem_cons, not_or] at h
    exact List.isChain_cons.mpr ⟨fun _ _ => .inl (Ne.symm h.1), ih h.2⟩

theorem isChain_append_of_not_mem (hs : '_' ∉ s) : (s ++ t).IsChain Apart ↔ t.IsChain Apart := by
  rw [List.isChain_append]
  refine ⟨fun h => h.2.1, fun h => ⟨isChain_of_not_mem hs, h, fun c hc _ _ => .inl ?_⟩⟩
  rintro rfl
  exact hs (List.mem_of_getLast? hc)

/-- Where the second text does not go on with a word, no two underscores meet at the seam. -/
theorem isChain_append_of_stopsAt (ht : StopsAt isWord t) :
    (s ++ t).IsChain Apart ↔ s.IsChain Apart ∧ t.IsChain Apart := by
  rw [List.isChain_append]
  refine ⟨fun h => ⟨h.1, h.2.1⟩, fun h => ⟨h.1, h.2, fun _ _ d hd => .inr ?_⟩⟩
  rintro rfl
  exact absurd (ht '_' hd) (by decide)

/-! ### Words -/

@[simp] theorem wordRuns_nil : wordRuns [] = [] := by
  rw [wordRuns]

theorem wordRuns_cons {c : Char} (hc : isWord c = false) (s : List Char) : wordRuns (c :: s) = wordRuns s := by
  rw [wordRuns, if_neg (by simp [hc])]

theorem wordRuns_append (s : List Char) (ht : StopsAt isWord t) : wordRuns (s ++ t) = wordRuns s ++ wordRuns t := by
  fun_induction wordRuns s with
  | case1 => rfl
  | case2 c rest hc ih =>
    rw [List.cons_append, wordRuns, if_pos hc, takeWhile_append_of_stopsAt rest ht,
      dropWhile_append_of_stopsAt rest ht, ih, List.cons_append]
  | case3 c rest hc ih => rw [List.cons_append, wordRuns_cons (by simpa using hc), ih]

theorem wordRuns_of_word (hs : ∀ c ∈ s, isWord c) (hne : s ≠ []) : wordRuns s = [s] := by
  cases s with
  | nil => exact absurd rfl hne
  | cons c rest =>
    rw [List.forall_mem_cons] at hs
    have htake : rest.takeWhile isWord = rest := by
      simpa [List.takeWhile_eq_self_iff] using hs.2
    have hdrop : rest.dropWhile isWord = [] := by
      simpa [List.dropWhile_eq_nil_iff] using hs.2
    rw [wordRuns, if_pos hs.1, htake, hdrop, wordRuns_nil]

/-- A word in front of a text that does not go on with it is the first of the words. -/
theorem wordRuns_word_append {word : List Char} (hword : ∀ c ∈ word, isWord c) (hne : word ≠ [])
    (hs : StopsAt isWord s) : wordRuns (word ++ s) = word :: wordRuns s := by
  rw [wordRuns_append word hs, wordRuns_of_word hword hne, List.singleton_append]

/-- A text is empty, or begins with a character outside words, or with a whole word. -/
theorem wordRun_induction {P : List Char → Prop} (nil : P [])
    (character : ∀ c s, isWord c = false → P s → P (c :: s))
    (word : ∀ word s, (∀ c ∈ word, isWord c) → word ≠ [] → StopsAt isWord s → P s → P (word ++ s))
    (text : List Char) : P text := by
  fun_induction wordRuns text with
  | case1 => exact nil
  | case2 c rest hc ih =>
    rw [← List.takeWhile_append_dropWhile (p := isWord) (l := rest), ← List.cons_append]
    refine word _ _ ?_ (List.cons_ne_nil _ _) (stopsAt_dropWhile isWord rest) ih
    exact List.forall_mem_cons.mpr ⟨hc, fun d hd => List.mem_takeWhile_imp hd⟩
  | case3 c rest hc ih => exact character c rest (by simpa using hc) ih

/-- A word ends where a text ends whose last character belongs to none. -/
theorem wordRuns_append_of_getLast? (hs : ∀ c ∈ s.getLast?, isWord c = false) (t : List Char) :
    wordRuns (s ++ t) = wordRuns s ++ wordRuns t := by
  rcases List.eq_nil_or_concat s with rfl | ⟨front, last, rfl⟩
  · simp
  · have hlast : isWord last = false := hs last (by simp)
    have hstops (t : List Char) : StopsAt isWord (last :: t) := stopsAt_cons.mpr hlast
    rw [List.concat_eq_append, List.append_assoc, List.singleton_append, wordRuns_append front (hstops t),
      wordRuns_append front (hstops []), wordRuns_cons hlast, wordRuns_cons hlast, wordRuns_nil, List.append_nil]

theorem mem_of_mem_wordRuns {word : List Char} {c : Char} (h : word ∈ wordRuns s) (hc : c ∈ word) : c ∈ s := by
  fun_induction wordRuns s with
  | case1 => cases h
  | case2 d rest hd ih =>
    rw [← List.takeWhile_append_dropWhile (p := isWord) (l := rest), ← List.cons_append, List.mem_append]
    rcases List.mem_cons.mp h with rfl | h
    · exact .inl hc
    · exact .inr (ih h)
  | case3 d rest hd ih => exact List.mem_cons_of_mem d (ih h)

/-! ### Forbidden words -/

theorem isAsciiText_of_mem_forbiddenWords : ∀ word ∈ forbiddenWords, IsAsciiText word.toList ∧ '_' ∉ word.toList := by
  decide

theorem forbiddenWord?_eq_none :
    forbiddenWord? s = none ↔ ∀ word ∈ forbiddenWords, word.toList ∉ wordRuns s := by
  simp only [forbiddenWord?, List.find?_eq_none, List.mem_map, List.contains_iff_mem, forall_exists_index, and_imp]
  constructor
  · intro h word hword hmem
    exact h word word.toList hmem String.ofList_toList hword
  · rintro h word run hrun rfl hword
    exact h _ hword (by rwa [String.toList_ofList])

theorem reject?_eq_none :
    reject? settings s = none ↔
      s.length ≤ settings.maxLineLength ∧ s.IsChain Apart ∧ ∀ word ∈ forbiddenWords, word.toList ∉ wordRuns s := by
  rw [← occursIn_underscores_eq_false, ← forbiddenWord?_eq_none, ← Int.not_lt, reject?]
  by_cases hlength : settings.maxLineLength < s.length
  · simp [hlength]
  · cases hunderscores : occursIn ['_', '_'] s <;> simp [hlength]

end Reckoner.Document
