import Reckoner.Proofs.Document.Run
import Reckoner.Proofs.Number.Numerals

/-!
# Results of a document

Every line of a document has one result.  Whatever fails on a line, be it the preparation, the evaluation or the
display, ends as the error of that line, and the lines below it are evaluated all the same.
-/

namespace Reckoner.Document

open Reckoner.Expression Reckoner.Text

variable {settings : Settings} {context : Context} {line : List Char}

/-! ### Lines of a text -/

theorem splitAt_eq_splitOn (sep : Char) (s : List Char) : splitAt sep s = s.splitOn sep := by
  induction s with
  | nil => rfl
  | cons c rest ih =>
    rw [splitAt, ih, List.splitOn, List.splitOn, List.splitOnP_cons_eq_if_modifyHead]
    by_cases hc : c = sep
    · simp [hc]
    · simp only [hc, if_false, beq_iff_eq]
      cases hpieces : List.splitOnP (· == sep) rest with
      | nil => exact absurd hpieces (List.splitOnP_ne_nil _ rest)
      | cons piece pieces => rfl

theorem length_splitAt (sep : Char) (s : List Char) : (splitAt sep s).length = s.count sep + 1 := by
  induction s with
  | nil => rfl
  | cons c rest ih =>
    rw [splitAt]
    by_cases hc : c = sep
    · simp [hc, ih]
    · have hcount : (c :: rest).count sep = rest.count sep := List.count_cons_of_ne hc
      rw [if_neg hc, hcount, ← ih]
      cases hpieces : splitAt sep rest with
      | nil => simp [hpieces] at ih
      | cons piece pieces => rfl

theorem not_mem_of_mem_splitAt {sep : Char} {s line : List Char} (h : line ∈ splitAt sep s) : sep ∉ line := by
  induction s generalizing line with
  | nil =>
    obtain rfl := List.mem_singleton.mp h
    simp
  | cons c rest ih =>
    rw [splitAt] at h
    split at h
    · rcases List.mem_cons.mp h with rfl | h
      · simp
      · exact ih h
    · rename_i hc
      split at h
      · obtain rfl := List.mem_singleton.mp h
        simpa using Ne.symm hc
      · rename_i piece pieces hpieces
        rw [hpieces] at ih
        rcases List.mem_cons.mp h with rfl | h
        · rw [List.mem_cons, not_or]
          exact ⟨Ne.symm hc, ih List.mem_cons_self⟩
        · exact ih (List.mem_cons_of_mem piece h)

theorem not_mem_of_mem_linesOf {text line : String} (h : line ∈ linesOf text) : '\n' ∉ line.toList := by
  obtain ⟨piece, hpiece, rfl⟩ := List.mem_map.mp h
  rw [String.toList_ofList]
  exact not_mem_of_mem_splitAt hpiece

/-- The lines of a text, with newlines between them, are the text again. -/
theorem intercalate_linesOf (text : String) :
    ['\n'].intercalate ((linesOf text).map String.toList) = text.toList := by
  have hlines : (linesOf text).map String.toList = text.toList.splitOn '\n' := by
    simp [linesOf, splitAt_eq_splitOn, Function.comp_def]
  rw [hlines, List.intercalate_splitOn]

/-! ### Shapes of results -/

namespace LineResult

def message? : LineResult → Option String
  | .error message => some message
  | _ => none

/-- A blank line has neither a text nor a message, a number has only a text, and an error has only a message. -/
inductive IsWellFormed (r : LineResult) : Prop
  | blank (hblank : r.isBlank) (htext : r.text? = none) (hmessage : r.message? = none)
  | display (text : String) (htext : r.text? = some text) (hmessage : r.message? = none) (hshown : IsShown text)
  | error (message : String) (htext : r.text? = none) (hmessage : r.message? = some message) (hsome : message ≠ "")

theorem isWellFormed_failed (message : String) : (failed message).IsWellFormed := by
  unfold failed
  by_cases hempty : message.isEmpty
  · rw [if_pos hempty]
    exact .error "Evaluation failed" rfl rfl (by decide)
  · rw [if_neg hempty]
    refine .error message rfl rfl ?_
    rintro rfl
    exact hempty rfl

end LineResult

/-- A number that is the value of a line is defined. -/
theorem ne_undefined_of_ofValue {v : Value} {t : Algebra.Term} (h : Answer.ofValue v = .ok (.numeric t)) :
    t ≠ .undefined := by
  rintro rfl
  obtain rfl := eq_number_of_answer h
  simp [Answer.ofValue, Algebra.Term.unknowns, Algebra.Term.mentionsUndefined] at h

/-- A numeric answer of the engine is the value of some text. -/
theorem exists_value_of_answer {scope : Scope} {text : List Char} {answer : Answer}
    (h : (evaluateExpression settings scope text).answer = .ok answer) : ∃ v, Answer.ofValue v = .ok answer := by
  have hcases := evaluates_evaluateExpression settings scope text
  generalize evaluateExpression settings scope text = report at h hcases
  cases hcases with
  | failed => cases h
  | answered v isRounded other roundedText hplain hvalue hanswer =>
    obtain rfl : other = answer := by simpa using h
    exact ⟨v, hanswer⟩
  | assigned name v other roundedText hassigns =>
    obtain rfl : other = answer := by simpa using h
    exact ⟨v, hassigns.answers⟩

theorem isWellFormed_evaluateTrimmed (settings : Settings) (context : Context) (line : List Char) :
    (evaluateTrimmed settings context line).result.IsWellFormed := by
  have hstep := step_evaluateTrimmed settings context line
  generalize evaluateTrimmed settings context line = report at hstep
  cases hstep with
  | passedOver => exact .blank rfl rfl rfl
  | silent => exact .blank rfl rfl rfl
  | refused => exact LineResult.isWellFormed_failed _
  | failed => exact LineResult.isWellFormed_failed _
  | undisplayed => exact LineResult.isWellFormed_failed _
  | displayed r hrequest t hanswer text htext =>
    obtain ⟨v, hv⟩ := exists_value_of_answer hanswer
    exact .display text rfl rfl (isShown_of_display htext (ne_undefined_of_ofValue hv))

/-! ### Failing stages -/

/-- What can go wrong with a line that is evaluated: its preparation, the evaluation of the expression that is made of
    it, or the display of the number that comes out. -/
inductive Fails (settings : Settings) (context : Context) (line : List Char) : Prop
  | preparation (fault : PreparationFault) (h : prepare settings context line = .error fault)
  | evaluation (text : List Char) (prepared : Context) (f : Failure)
      (hprepare : prepare settings context line = .ok (text, prepared))
      (h : (evaluateExpression settings prepared.scope text).answer = .error f)
  | display (text : List Char) (prepared : Context) (t : Algebra.Term) (fault : DisplayFault)
      (hprepare : prepare settings context line = .ok (text, prepared))
      (hanswer : (evaluateExpression settings prepared.scope text).answer = .ok (.numeric t))
      (h : (DisplayStyle.ofSettings settings).display t = .error fault)

theorem getElem?_evaluateLines (settings : Settings) (context : Context) (lines : List String) (k : Nat) :
    (evaluateLines settings context lines)[k]? =
      lines[k]?.map (evaluateLine settings (contextAfter settings context (lines.take k))) := by
  induction lines generalizing context k with
  | nil => rfl
  | cons line rest ih =>
    cases k with
    | zero => rfl
    | succ k => simp [evaluateLines, ih]

end Reckoner.Document
