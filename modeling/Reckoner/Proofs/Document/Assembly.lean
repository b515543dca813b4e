import Reckoner.Proofs.Document.Step
import Reckoner.Proofs.Number.Numerals

/-!
# Assembled lines

A line is put together from the text of the previous answer, if it begins with an operator, and from the line with its
percentages written out.  Both parts can be told apart afterwards: the substitution of names leaves the first part
alone and does to the second what it would do to it alone.
-/

namespace Reckoner.Document

open Reckoner.Expression Reckoner.Text

variable {settings : Settings} {context : Context} {line assembled : List Char}

/-! ### Operators in front -/

/-- A line that begins with an operator goes on with the previous answer. -/
def Continues (line : List Char) : Prop := ∃ c ∈ line.head?, c ∈ chainOperators

theorem not_isDigit_of_mem_chainOperators {c : Char} (h : c ∈ chainOperators) : isDigit c = false := by
  simp only [chainOperators, List.mem_cons, List.not_mem_nil, or_false] at h
  rcases h with rfl | rfl | rfl | rfl <;> decide

theorem not_isWord_of_mem_chainOperators {c : Char} (h : c ∈ chainOperators) : isWord c = false := by
  simp only [chainOperators, List.mem_cons, List.not_mem_nil, or_false] at h
  rcases h with rfl | rfl | rfl | rfl <;> decide

theorem Continues.stopsAt_isWord (h : Continues line) : StopsAt isWord line := by
  obtain ⟨c, hc, hoperator⟩ := h
  intro d hd
  obtain rfl : c = d := Option.some.inj (hc.symm.trans hd)
  exact not_isWord_of_mem_chainOperators hoperator

theorem Continues.expandPercent (h : Continues line) : Continues (expandPercent line) := by
  obtain ⟨c, hc, hoperator⟩ := h
  cases line with
  | nil => simp at hc
  | cons first rest =>
    obtain rfl : first = c := by simpa using hc
    rw [Document.expandPercent, if_neg (by simp [not_isDigit_of_mem_chainOperators hoperator])]
    exact ⟨first, by simp, hoperator⟩

/-! ### Parts of an assembled line -/

theorem chain_of_not_continues {previous : Option Value} (h : ¬ Continues line) :
    chain settings previous line = .ok line := by
  unfold chain
  split
  · rename_i c rest
    have hc : c ∉ chainOperators := fun hmem => h ⟨c, by simp, hmem⟩
    rw [if_neg (by simpa using hc)]
  · rfl

theorem chain_of_continues {v : Value} {text : String} (h : Continues line)
    (htext : (DisplayStyle.ofSettings settings).displayValue v = .ok text) :
    chain settings (some v) line = .ok (text.toList ++ line) := by
  obtain ⟨c, hc, hoperator⟩ := h
  cases line with
  | nil => simp at hc
  | cons first rest =>
    obtain rfl : first = c := by simpa using hc
    simp [chain, hoperator, htext, Except.map]

theorem chain_of_continues_of_error {v : Value} {fault : DisplayFault} (h : Continues line)
    (htext : (DisplayStyle.ofSettings settings).displayValue v = .error fault) :
    chain settings (some v) line = .error fault := by
  obtain ⟨c, hc, hoperator⟩ := h
  cases line with
  | nil => simp at hc
  | cons first rest =>
    obtain rfl : first = c := by simpa using hc
    simp [chain, hoperator, htext, Except.map]

/-- An assembled line is the line alone, or the text of the previous answer with a line behind it that begins with an
    operator. -/
theorem chain_eq_ok {previous : Option Value} (h : chain settings previous line = .ok assembled) :
    assembled = line ∨ Continues line ∧ ∃ v text, previous = some v ∧
      (DisplayStyle.ofSettings settings).displayValue v = .ok text ∧ assembled = text.toList ++ line := by
  by_cases hline : Continues line
  · cases previous with
    | none =>
      simp only [chain, Except.ok.injEq] at h
      exact .inl h.symm
    | some v =>
      cases htext : (DisplayStyle.ofSettings settings).displayValue v with
      | ok text =>
        rw [chain_of_continues hline htext, Except.ok.injEq] at h
        exact .inr ⟨hline, v, text, rfl, htext, h.symm⟩
      | error fault =>
        rw [chain_of_continues_of_error hline htext] at h
        cases h
  · rw [chain_of_not_continues hline, Except.ok.injEq] at h
    exact .inl h.symm

/-- The names of an assembled line that need an alias are those of the line. -/
theorem mem_identifiers_assembled {name : List Char}
    (h : chain settings context.previous (expandPercent line) = .ok assembled) (hname : needsAlias name) :
    name ∈ identifiers assembled ↔ name ∈ identifiers (expandPercent line) := by
  rcases chain_eq_ok h with rfl | ⟨hline, v, text, _, htext, rfl⟩
  · rfl
  · rw [identifiers_append text.toList hline.stopsAt_isWord, List.mem_append]
    constructor
    · rintro (htextual | hmem)
      · have hascii : IsAsciiText name :=
          (isAsciiText_of_displayValue htext).of_subset fun c hc => mem_of_mem_identifiers htextual hc
        rw [needsAlias_eq_false.mpr hascii] at hname
        cases hname
      · exact hmem
    · exact .inr

end Reckoner.Document
