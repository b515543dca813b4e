import Reckoner.Document.Pass
import Reckoner.Proofs.Document.Substitution
import Reckoner.Proofs.Expression.Assignment

/-!
# One line

Everything that one line of a document can do.  A line that is evaluated and not refused makes a request of the engine,
and what becomes of the request decides what the line shows and what it leaves behind.  Later proofs go through the
cases of `Step` and never unfold the evaluation of a line.
-/

namespace Reckoner.Document

open Reckoner.Expression Reckoner.Text

variable {settings : Settings} {context : Context} {line : List Char}

/-! ### Requests -/

/-- What a line asks of the engine: the line as it was put together, the expression that is made of it, and the state
    in which the expression is evaluated. -/
structure Request where
  assembled : List Char
  expression : List Char
  prepared : Context

/-- The request that is made of an assembled line. -/
def Request.ofAssembled (context : Context) (assembled : List Char) : Request where
  assembled := assembled
  expression := (context.aliases.substitute assembled).1
  prepared := { context.bindAnswer with aliases := (context.aliases.substitute assembled).2 }

/-- The request of a trimmed line, if it makes one. -/
def request? (settings : Settings) (context : Context) (line : List Char) : Option Request :=
  if classify context line = .evaluate ∧ reject? settings line = none then
    match chain settings context.previous (expandPercent line) with
    | .ok assembled => some (.ofAssembled context assembled)
    | .error _ => none
  else none

namespace Request

/-- What the engine reports on a request. -/
def report (settings : Settings) (r : Request) : Report := evaluateExpression settings r.prepared.scope r.expression

/-- The state that a request leaves behind, whatever its answer is shown as. -/
def left (settings : Settings) (r : Request) : Context := { r.prepared with scope := (r.report settings).scope }

end Request

@[simp] theorem bindAnswer_aliases (context : Context) : context.bindAnswer.aliases = context.aliases := by
  unfold Context.bindAnswer
  split <;> rfl

@[simp] theorem bindAnswer_previous (context : Context) : context.bindAnswer.previous = context.previous := by
  unfold Context.bindAnswer
  split <;> rfl

theorem bindAnswer_find? {name : String} (h : name ≠ "ans") :
    context.bindAnswer.scope.find? name = context.scope.find? name := by
  unfold Context.bindAnswer
  split
  · exact Scope.find?_assign_of_ne context.scope _ h
  · rfl

theorem prepare_eq_ok {assembled : List Char} (hreject : reject? settings line = none)
    (hchain : chain settings context.previous (expandPercent line) = .ok assembled) :
    prepare settings context line =
      .ok ((Request.ofAssembled context assembled).expression, (Request.ofAssembled context assembled).prepared) := by
  simp [prepare, hreject, hchain, Request.ofAssembled]

/-- A line that is prepared is not rejected, and its expression is that of the line it was put together to. -/
theorem exists_assembled_of_prepare {text : List Char} {prepared : Context}
    (h : prepare settings context line = .ok (text, prepared)) :
    reject? settings line = none ∧ ∃ assembled, chain settings context.previous (expandPercent line) = .ok assembled ∧
      text = (Request.ofAssembled context assembled).expression ∧
      prepared = (Request.ofAssembled context assembled).prepared := by
  unfold prepare at h
  split at h
  · cases h
  · rename_i hreject
    split at h
    · cases h
    · rename_i assembled hchain
      simp only [bindAnswer_aliases, Except.ok.injEq, Prod.mk.injEq] at h
      exact ⟨hreject, assembled, hchain, h.1.symm, h.2.symm⟩

/-- The expression of a line is the line with its names replaced. -/
theorem Request.expression_ofAssembled (context : Context) (assembled : List Char) :
    (Request.ofAssembled context assembled).expression =
      (Request.ofAssembled context assembled).prepared.aliases.renamed assembled :=
  Aliases.substitute_eq_renamed List.prefix_rfl

theorem prepared_of_request? {r : Request} (h : request? settings context line = some r) :
    classify context line = .evaluate ∧ reject? settings line = none ∧
      chain settings context.previous (expandPercent line) = .ok r.assembled ∧
      r = .ofAssembled context r.assembled := by
  unfold request? at h
  split at h
  · rename_i hline
    split at h
    · rename_i assembled hchain
      cases h
      exact ⟨hline.1, hline.2, hchain, rfl⟩
    · cases h
  · cases h

theorem growsBy_ofAssembled (context : Context) (assembled : List Char) :
    context.aliases.GrowsBy (Request.ofAssembled context assembled).prepared.aliases (· ∈ identifiers assembled) :=
  Aliases.growsBy_substitute context.aliases assembled

section Left

variable {r : Request}

@[simp] theorem Request.left_aliases : (r.left settings).aliases = r.prepared.aliases := rfl

@[simp] theorem Request.left_scope :
    (r.left settings).scope = (evaluateExpression settings r.prepared.scope r.expression).scope := rfl

/-- A request does not touch the previous answer; only showing its answer does. -/
theorem previous_left_of_request? (h : request? settings context line = some r) :
    (r.left settings).previous = context.previous := by
  obtain ⟨_, _, _, hr⟩ := prepared_of_request? h
  rw [hr]
  exact bindAnswer_previous context

theorem find?_prepared_of_request? (h : request? settings context line = some r) {name : String}
    (hname : name ≠ "ans") : r.prepared.scope.find? name = context.scope.find? name := by
  obtain ⟨_, _, _, hr⟩ := prepared_of_request? h
  rw [hr]
  exact bindAnswer_find? hname

end Left

/-! ### Steps -/

/-- What the report on a line can be. -/
inductive Step (settings : Settings) (context : Context) (line : List Char) : LineReport → Prop
  /-- The line is no calculation. -/
  | passedOver (hrequest : request? settings context line = none) (hclass : classify context line ≠ .evaluate) :
      Step settings context line ⟨.blank, context, []⟩
  /-- The line is rejected, or the previous answer has no text to put in front of it. -/
  | refused (hrequest : request? settings context line = none) (hclass : classify context line = .evaluate)
      (message : String) (events : List Event) : Step settings context line ⟨.failed message, context, events⟩
  /-- The engine fails. -/
  | failed (r : Request) (hrequest : request? settings context line = some r) (f : Failure)
      (hanswer : (r.report settings).answer = .error f) (events : List Event) :
      Step settings context line ⟨.failed f.message, r.left settings, events⟩
  /-- The answer is no number. -/
  | silent (r : Request) (hrequest : request? settings context line = some r) (v : Value)
      (hanswer : (r.report settings).answer = .ok (.other v)) (events : List Event) :
      Step settings context line ⟨.blank, r.left settings, events⟩
  /-- The answer is a number that has no text. -/
  | undisplayed (r : Request) (hrequest : request? settings context line = some r) (t : Algebra.Term)
      (hanswer : (r.report settings).answer = .ok (.numeric t)) (fault : DisplayFault)
      (htext : (DisplayStyle.ofSettings settings).display t = .error fault) (events : List Event) :
      Step settings context line ⟨.failed noDisplayMessage, r.left settings, events⟩
  /-- The answer is a number, which is shown and remembered. -/
  | displayed (r : Request) (hrequest : request? settings context line = some r) (t : Algebra.Term)
      (hanswer : (r.report settings).answer = .ok (.numeric t)) (text : String)
      (htext : (DisplayStyle.ofSettings settings).display t = .ok text) (events : List Event) :
      Step settings context line
        ⟨.display text (toDouble t), { r.left settings with previous := some (.number t) }, events⟩

theorem step_failureReport {r : Request} (hrequest : request? settings context line = some r) {f : Failure}
    (hanswer : (r.report settings).answer = .error f) (events : List Event) :
    Step settings context line (failureReport (r.left settings) events line f) := by
  unfold failureReport
  split
  · exact .failed r hrequest f hanswer _
  · exact .failed r hrequest f hanswer _

theorem step_answerReport {r : Request} (hrequest : request? settings context line = some r) {answer : Answer}
    (hanswer : (r.report settings).answer = .ok answer) (events : List Event) :
    Step settings context line (answerReport settings (r.left settings) events line answer) := by
  cases answer with
  | other v => exact .silent r hrequest v hanswer events
  | numeric t =>
    simp only [answerReport]
    split
    · rename_i text htext
      exact .displayed r hrequest t hanswer text htext events
    · rename_i fault htext
      exact .undisplayed r hrequest t hanswer fault htext _

theorem step_evaluateTrimmed (settings : Settings) (context : Context) (line : List Char) :
    Step settings context line (evaluateTrimmed settings context line) := by
  by_cases hclass : classify context line = .evaluate
  · cases hreject : reject? settings line with
    | some rejection =>
      have hrequest : request? settings context line = none := by simp [request?, hreject]
      simp only [evaluateTrimmed, hclass, prepare, hreject, ne_eq, not_true_eq_false, if_false]
      exact .refused hrequest hclass _ _
    | none =>
      cases hchain : chain settings context.previous (expandPercent line) with
      | error fault =>
        have hrequest : request? settings context line = none := by simp [request?, hchain]
        simp only [evaluateTrimmed, hclass, prepare, hreject, hchain, ne_eq, not_true_eq_false, if_false]
        exact .refused hrequest hclass "Evaluation failed" _
      | ok assembled =>
        have hrequest : request? settings context line = some (.ofAssembled context assembled) := by
          simp [request?, hclass, hreject, hchain]
        simp only [evaluateTrimmed, hclass, prepare_eq_ok hreject hchain, ne_eq, not_true_eq_false, if_false]
        cases hanswer : ((Request.ofAssembled context assembled).report settings).answer with
        | error f =>
          rw [Request.report] at hanswer
          simp only [hanswer]
          exact step_failureReport hrequest hanswer _
        | ok answer =>
          rw [Request.report] at hanswer
          simp only [hanswer]
          exact step_answerReport hrequest hanswer _
  · have hrequest : request? settings context line = none := by simp [request?, hclass]
    simp only [evaluateTrimmed, hclass, ne_eq, not_false_eq_true, if_true]
    exact .passedOver hrequest hclass

section Displays

variable {text : String} {numeric : Number.Double}

/-- A line that shows a number has made a request that is answered with it, and leaves it as the previous answer. -/
theorem exists_request_of_display (h : (evaluateTrimmed settings context line).result = .display text numeric) :
    ∃ r t, request? settings context line = some r ∧ (r.report settings).answer = .ok (.numeric t) ∧
      (DisplayStyle.ofSettings settings).display t = .ok text ∧ toDouble t = numeric ∧
      (evaluateTrimmed settings context line).context = { r.left settings with previous := some (.number t) } := by
  have hstep := step_evaluateTrimmed settings context line
  generalize evaluateTrimmed settings context line = report at h hstep ⊢
  cases hstep with
  | displayed r hrequest t hanswer shown htext =>
    simp only [LineResult.display.injEq] at h
    obtain ⟨rfl, rfl⟩ := h
    exact ⟨r, t, hrequest, hanswer, htext, rfl, rfl⟩
  | _ => cases h

theorem result_of_answer {r : Request} (hrequest : request? settings context line = some r) {t : Algebra.Term}
    (hanswer : (r.report settings).answer = .ok (.numeric t))
    (htext : (DisplayStyle.ofSettings settings).display t = .ok text) :
    (evaluateTrimmed settings context line).result = .display text (toDouble t) := by
  have hstep := step_evaluateTrimmed settings context line
  generalize evaluateTrimmed settings context line = report at hstep ⊢
  cases hstep <;> simp_all

end Displays

end Reckoner.Document
