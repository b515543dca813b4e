import Reckoner.Text.Alphabet

/-!
# Percentages

A numeral directly followed by a percent sign stands for a hundredth of it: `50%` becomes `(50/100)`.  The numeral is a
run of digits, or two runs with a point between them.
-/

namespace Reckoner.Document

open Reckoner.Text

def hundredth (numeral : List Char) : List Char := '(' :: numeral ++ ['/', '1', '0', '0', ')']

/-- The percent sign that follows a run of digits: directly, or after a point and a second run.  The rest of the
    numeral, and the text after the sign. -/
def percentTail? (s : List Char) : Option (List Char × List Char) :=
  match s with
  | '%' :: rest => some ([], rest)
  | '.' :: rest =>
    let fraction := rest.takeWhile isDigit
    match rest.dropWhile isDigit with
    | '%' :: after => if fraction.isEmpty then none else some ('.' :: fraction, after)
    | _ => none
  | _ => none

theorem length_percentTail? {s fraction after : List Char} (h : percentTail? s = some (fraction, after)) :
    after.length < s.length := by
  unfold percentTail? at h
  split at h
  · simp only [Option.some.injEq, Prod.mk.injEq] at h
    simp [h.2]
  · rename_i rest
    simp only at h
    split at h
    · rename_i rest' hd
      split at h
      · cases h
      · simp only [Option.some.injEq, Prod.mk.injEq] at h
        have := (List.dropWhile_sublist isDigit (l := rest)).length_le
        rw [hd] at this
        simp only [List.length_cons] at this ⊢
        rw [← h.2]
        omega
    · cases h
  · cases h

/-- A line with every percentage written as a quotient. -/
def expandPercent (line : List Char) : List Char :=
  match line with
  | [] => []
  | c :: rest =>
    if isDigit c then
      let run := c :: rest.takeWhile isDigit
      match _h : percentTail? (rest.dropWhile isDigit) with
      | some (fraction, after) => hundredth (run ++ fraction) ++ expandPercent after
      | none => run ++ expandPercent (rest.dropWhile isDigit)
    else c :: expandPercent rest
termination_by line.length
decreasing_by
  · have h₁ := length_percentTail? _h
    have h₂ := (List.dropWhile_sublist isDigit (l := rest)).length_le
    simp only [List.length_cons]
    omega
  · have h₂ := (List.dropWhile_sublist isDigit (l := rest)).length_le
    simp only [List.length_cons]
    omega
  · simp

end Reckoner.Document
