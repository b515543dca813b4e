import Reckoner.Proofs.Document.Step

/-!
# Runs

What a run over several lines leaves behind, and the two ways to take a run apart: at its first line, and at any line
in its middle.  An invariant that holds at the start and that every line keeps holds after every run.
-/

namespace Reckoner.Document

open Reckoner.Text

variable {settings : Settings} {context : Context}

/-- The state after some lines. -/
def contextAfter (settings : Settings) (context : Context) (lines : List String) : Context :=
  lines.foldl (fun context line => (evaluateLine settings context line).context) context

@[simp] theorem contextAfter_nil : contextAfter settings context [] = context := rfl

@[simp] theorem contextAfter_cons (line : String) (rest : List String) :
    contextAfter settings context (line :: rest) =
      contextAfter settings (evaluateLine settings context line).context rest := rfl

theorem contextAfter_append (first second : List String) :
    contextAfter settings context (first ++ second) =
      contextAfter settings (contextAfter settings context first) second := by
  simp [contextAfter]

theorem evaluateLines_append (first second : List String) :
    evaluateLines settings context (first ++ second) =
      evaluateLines settings context first ++ evaluateLines settings (contextAfter settings context first) second := by
  induction first generalizing context with
  | nil => rfl
  | cons line rest ih => simp [evaluateLines, ih]

@[simp] theorem length_evaluateLines (lines : List String) :
    (evaluateLines settings context lines).length = lines.length := by
  induction lines generalizing context with
  | nil => rfl
  | cons line rest ih => simp [evaluateLines, ih]

theorem take_evaluateLines (lines : List String) (k : Nat) :
    (evaluateLines settings context lines).take k = evaluateLines settings context (lines.take k) := by
  induction lines generalizing context k with
  | nil => simp [evaluateLines]
  | cons line rest ih =>
    cases k with
    | zero => rfl
    | succ k => simp [evaluateLines, ih]

/-- States that some lines can lead to from the empty one. -/
inductive Reachable (settings : Settings) : Context → Prop
  | start : Reachable settings .empty
  | step {context : Context} (h : Reachable settings context) (line : String) :
      Reachable settings (evaluateLine settings context line).context

theorem Reachable.contextAfter (h : Reachable settings context) (lines : List String) :
    Reachable settings (contextAfter settings context lines) := by
  induction lines generalizing context with
  | nil => exact h
  | cons line rest ih => exact ih (h.step line)

end Reckoner.Document
