import Reckoner.Proofs.Document.Assembly
import Reckoner.Proofs.Document.Run

/-!
# The previous answer

At every moment of a run the previous answer is the number that was shown last.  It always has a text, so a line that
is not rejected can always be put together, and the engine finds the number under the name `ans` whatever was assigned
to that name before.
-/

namespace Reckoner.Document

open Reckoner.Expression Reckoner.Text

variable {settings : Settings} {context : Context}

/-- The text of the number that was shown last. -/
def lastText? (reports : List LineReport) : Option String :=
  (reports.filterMap fun report => report.result.text?).getLast?

/-- The previous answer of a state is the number with a text, or there is none where nothing was shown. -/
def Remembers (settings : Settings) (context : Context) : Option String → Prop
  | none => context.previous = none
  | some shown => ∃ v, context.previous = some v ∧ (DisplayStyle.ofSettings settings).displayValue v = .ok shown

/-! ### The invariant -/

/-- A line that shows a number replaces the one that is remembered, every other line keeps it. -/
theorem remembers_step {shown : Option String} (h : Remembers settings context shown) (line : String) :
    Remembers settings (evaluateLine settings context line).context
      ((evaluateLine settings context line).result.text?.or shown) := by
  have hkept {after : Context} (hprevious : after.previous = context.previous) : Remembers settings after shown := by
    cases shown with
    | none => exact hprevious.trans h
    | some shown =>
      obtain ⟨v, hv, htext⟩ := h
      exact ⟨v, hprevious.trans hv, htext⟩
  have hstep := step_evaluateTrimmed settings context (trim line.toList)
  unfold evaluateLine
  generalize evaluateTrimmed settings context (trim line.toList) = report at hstep ⊢
  cases hstep with
  | passedOver => exact hkept rfl
  | refused => exact hkept rfl
  | failed r hrequest => exact hkept (previous_left_of_request? hrequest)
  | silent r hrequest => exact hkept (previous_left_of_request? hrequest)
  | undisplayed r hrequest => exact hkept (previous_left_of_request? hrequest)
  | displayed r hrequest t hanswer text htext => exact ⟨.number t, rfl, htext⟩

theorem lastText?_cons (report : LineReport) (rest : List LineReport) (shown : Option String) :
    (lastText? (report :: rest)).or shown = (lastText? rest).or (report.result.text?.or shown) := by
  unfold lastText?
  cases htext : report.result.text? with
  | none => simp [htext]
  | some text =>
    simp only [List.filterMap_cons, htext, List.getLast?_cons]
    cases (rest.filterMap fun report => report.result.text?).getLast? <;> simp

theorem remembers_contextAfter {shown : Option String} (h : Remembers settings context shown) (lines : List String) :
    Remembers settings (contextAfter settings context lines)
      ((lastText? (evaluateLines settings context lines)).or shown) := by
  induction lines generalizing context shown with
  | nil => exact h
  | cons line rest ih =>
    rw [evaluateLines, lastText?_cons]
    exact ih (remembers_step h line)

theorem remembers_lastText? (settings : Settings) (lines : List String) :
    Remembers settings (contextAfter settings .empty lines) (lastText? (evaluateLines settings .empty lines)) := by
  have h : Remembers settings .empty none := rfl
  simpa using remembers_contextAfter h lines

theorem Reachable.remembers (h : Reachable settings context) : ∃ shown, Remembers settings context shown := by
  induction h with
  | start => exact ⟨none, rfl⟩
  | step h line ih =>
    obtain ⟨shown, hshown⟩ := ih
    exact ⟨_, remembers_step hshown line⟩

theorem lastText?_eq_none {reports : List LineReport} :
    lastText? reports = none ↔ ∀ report ∈ reports, report.result.text? = none := by
  rw [lastText?, List.getLast?_eq_none_iff, List.filterMap_eq_nil_iff]

/-! ### What the engine is given -/

theorem bindAnswer_find?_ans {v : Value} (h : context.previous = some v) :
    context.bindAnswer.scope.find? "ans" = some v := by
  unfold Context.bindAnswer
  rw [h]
  exact Scope.find?_assign_self context.scope "ans" v

/-- Where the previous answer has a text, every line can be put together. -/
theorem exists_chain {shown : Option String} (h : Remembers settings context shown) (line : List Char) :
    ∃ assembled, chain settings context.previous line = .ok assembled := by
  by_cases hline : Continues line
  · cases shown with
    | none =>
      rw [show context.previous = none from h]
      exact ⟨line, rfl⟩
    | some shown =>
      obtain ⟨v, hv, htext⟩ := h
      rw [hv]
      exact ⟨_, chain_of_continues hline htext⟩
  · exact ⟨line, chain_of_not_continues hline⟩

/-- In a state that lines can lead to, every line that is not rejected is put together and renamed. -/
theorem Reachable.exists_assembled (h : Reachable settings context) {line : List Char}
    (hline : reject? settings line = none) :
    ∃ assembled, chain settings context.previous (expandPercent line) = .ok assembled ∧
      prepare settings context line =
        .ok ((Request.ofAssembled context assembled).expression, (Request.ofAssembled context assembled).prepared) := by
  obtain ⟨shown, hshown⟩ := h.remembers
  obtain ⟨assembled, hchain⟩ := exists_chain hshown (expandPercent line)
  exact ⟨assembled, hchain, prepare_eq_ok hline hchain⟩

/-- A line that begins with an operator becomes the text of the previous answer followed by what the line would become
    alone. -/
theorem expression_of_continues {shown : String} (h : Remembers settings context (some shown))
    {line assembled : List Char} (hline : Continues line) (hchain : chain settings context.previous line = .ok assembled) :
    (Request.ofAssembled context assembled).expression = shown.toList ++ (context.aliases.substitute line).1 := by
  obtain ⟨v, hv, htext⟩ := h
  rw [hv, chain_of_continues hline htext, Except.ok.injEq] at hchain
  subst hchain
  simp only [Request.ofAssembled]
  rw [Aliases.substitute_append_of_ascii (isAsciiText_of_displayValue htext) hline.stopsAt_isWord]

/-- After the first lines of a document the previous answer is the number that was shown last among them, and a line
    that is evaluated next sees that number as `ans` and, if it begins with an operator, gets its text in front. -/
theorem previous_answer_is_last_shown (settings : Settings) (text : String) (k : Nat) :
    let reports := (pass settings text).take k
    let context := contextAfter settings .empty ((linesOf text).take k)
    (context.previous = none ↔ ∀ report ∈ reports, report.result.text? = none) ∧
    (∀ shown, lastText? reports = some shown →
      ∃ v, context.previous = some v ∧ (DisplayStyle.ofSettings settings).displayValue v = .ok shown) ∧
    ∀ line : String, classify context (trim line.toList) = .evaluate → reject? settings (trim line.toList) = none →
      ∃ expression prepared, prepare settings context (trim line.toList) = .ok (expression, prepared) ∧
        (∀ v, context.previous = some v → prepared.scope.find? "ans" = some v) ∧
        ∀ shown, lastText? reports = some shown → Continues (trim line.toList) →
          expression = shown.toList ++ (context.aliases.substitute (expandPercent (trim line.toList))).1 := by
  intro reports context
  have hremembers : Remembers settings context (lastText? reports) := by
    have h := remembers_lastText? settings ((linesOf text).take k)
    rwa [← take_evaluateLines] at h
  refine ⟨?_, ?_, ?_⟩
  · rw [← lastText?_eq_none]
    cases hshown : lastText? reports with
    | none =>
      rw [hshown] at hremembers
      exact iff_of_true hremembers rfl
    | some shown =>
      rw [hshown] at hremembers
      obtain ⟨v, hv, _⟩ := hremembers
      simp [hv]
  · intro shown hshown
    rw [hshown] at hremembers
    exact hremembers
  · intro line _ hreject
    obtain ⟨assembled, hchain⟩ := exists_chain hremembers (expandPercent (trim line.toList))
    refine ⟨_, _, prepare_eq_ok hreject hchain, ?_, ?_⟩
    · intro v hv
      exact bindAnswer_find?_ans hv
    · intro shown hshown hline
      rw [hshown] at hremembers
      exact expression_of_continues hremembers hline.expandPercent hchain

theorem quarter_is_continued :
    let context := contextAfter .standard .empty ((linesOf "1/4\n# note").take 2)
    classify context (trim "* 50%".toList) = .evaluate ∧ reject? .standard (trim "* 50%".toList) = none ∧
      ∃ expression prepared, prepare .standard context (trim "* 50%".toList) = .ok (expression, prepared) ∧
        expression = "0.25* (50/100)".toList := by
  intro context
  have hclass : classify context (trim "* 50%".toList) = .evaluate := by decide +kernel
  have hreject : reject? .standard (trim "* 50%".toList) = none := by decide +kernel
  obtain ⟨expression, prepared, hprepare, _, hexpression⟩ :=
    (previous_answer_is_last_shown .standard "1/4\n# note" 2).2.2 "* 50%" hclass hreject
  have hshown : lastText? ((pass .standard "1/4\n# note").take 2) = some "0.25" := by decide +kernel
  have hline : Continues (trim "* 50%".toList) := ⟨'*', by decide, by decide⟩
  refine ⟨hclass, hreject, expression, prepared, hprepare, ?_⟩
  rw [hexpression "0.25" hshown hline]
  decide +kernel

end Reckoner.Document
